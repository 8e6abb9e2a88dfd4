import Storyworld.Proofs.Knowledge.Quantification

namespace Storyworld

/-!
# Calls and existentials are compiled into links

While calls are made and existentials requested, the account of what the solver was told is an
account of links (`Grounding.Compiled`). A link comes from a relation or is a rule of an
existential, and every relation that bears on a call has its link, except for the calls that are
under way. What such a call still lacks it has told by the time it returns (`compileUpkeep`).
-/

namespace KnowledgeBase

variable {kb kb' : KnowledgeBase} {a : Nat} {l : Link} {r : Relation} {args : Arguments}
  {links links' : List Link}

/-- The atom is that of a call or of an existential. -/
def Speaks (kb : KnowledgeBase) (a : Atom) : Prop :=
  (∃ p args, kb.atom? p args = some a) ∨ ∃ p s, kb.Requested p s a

/-- The link comes from a relation between calls, or is a rule of an existential. -/
def Justifies (kb : KnowledgeBase) (l : Link) : Prop :=
  (∃ r ∈ kb.relations, ∃ args, kb.Relates r args l) ∨
    l.kind = .strong ∧ ∃ p s, kb.Requested p s l.general

/-- There is a link for the relation between the calls on the arguments. -/
def Linked (r : Relation) (args : Arguments) (kb : KnowledgeBase) (links : List Link) : Prop :=
  ∃ l ∈ links, kb.Relates r args l

/-- What was called, requested and related still is. -/
structure Includes (kb kb' : KnowledgeBase) : Prop where
  atoms : ∀ p args a, kb.atom? p args = some a → kb'.atom? p args = some a
  requested : ∀ p s e, kb.Requested p s e → kb'.Requested p s e
  relations : ∀ r ∈ kb.relations, r ∈ kb'.relations

theorem Develops.includes (h : Develops kb kb') : Includes kb kb' :=
  ⟨fun _ _ _ ha => (h.atom? _ _).trans ha, fun _ _ _ he => h.requested.2 he, h.relations⟩

/-- A link that a relation makes is made still where more is included. -/
theorem Includes.relates (h : Includes kb kb') (hl : kb.Relates r args l) : kb'.Relates r args l :=
  ⟨hl.kind, h.atoms _ _ _ hl.specific, h.atoms _ _ _ hl.general⟩

theorem Includes.speaks (h : Includes kb kb') (ha : kb.Speaks a) : kb'.Speaks a :=
  ha.imp (fun ⟨p, args, ha⟩ => ⟨p, args, h.atoms p args a ha⟩)
    fun ⟨p, s, he⟩ => ⟨p, s, h.requested p s a he⟩

theorem Includes.justifies (h : Includes kb kb') (hl : kb.Justifies l) : kb'.Justifies l :=
  hl.imp (fun ⟨r, hr, args, hrelates⟩ => ⟨r, h.relations r hr, args, h.relates hrelates⟩)
    (And.imp_right fun ⟨p, s, he⟩ => ⟨p, s, h.requested p s _ he⟩)

theorem Includes.linked (h : Includes kb kb') (hl : Linked r args kb links) :
    Linked r args kb' links := hl.imp fun _ hl => ⟨hl.1, h.relates hl.2⟩

theorem Linked.grows (h : Linked r args kb links) (hgrows : Grows kb kb') :
    Linked r args kb' links := h.imp fun _ hl => ⟨hl.1, hgrows.relates hl.2⟩

theorem Linked.mono (h : Linked r args kb links) (hsub : links ⊆ links') :
    Linked r args kb links' := h.imp fun _ hl => ⟨hsub hl.1, hl.2⟩

end KnowledgeBase

namespace Grounding

open Action KnowledgeBase

variable {ρ : Type} {g t : Grounding ρ} {links : List Link} {p : Nat} {args : Arguments} {a : Nat}
  {pending pending' : Pending} {opened : List (PredicateId × SortId)}

/-! ### The invariant -/

/-- The atoms of the solver are top and those of calls and existentials, and what was told are links
between them. The calls that are pending may lack links. -/
structure Compiled (pending : Pending) (g : Grounding ρ) (links : List Link) : Prop where
  covered : ∀ a : Nat, a < g.solver.atoms.count → a = Atom.top ∨ g.base.Speaks a
  told : ∃ atoms heads, Solver.Told g.solver (Link.account atoms heads links) ∧
    ∀ b ∈ heads, ∃ p s, g.base.Requested p s b
  justified : ∀ l ∈ links, g.base.Justifies l
  complete : ∀ r ∈ g.base.relations, ∀ args, g.base.Called r.specific args →
    (r.specific, args) ∉ pending → g.base.Bears r args → Linked r args g.base links

theorem compiled_start {kb : KnowledgeBase} (huses : ∀ p, kb.uses p = ({}, []))
    (config : Config) (source : ρ) : Compiled [] ⟨kb, Solver.ofConfig config source⟩ [] where
  covered _ ha := Or.inl (Nat.lt_one_iff.1 ha)
  told := ⟨[], [], Solver.Told.start config source, nofun⟩
  justified := nofun
  complete _ _ _ hcalled := absurd hcalled.choose_spec (not_called_of_uses (huses _))

/-- Every atom that the knowledge base speaks of has a name. -/
theorem Exact.exists_named (h : Exact pending opened g) (ha : g.base.Speaks a) :
    ∃ P, g.solver.atoms.named? P = some a := by
  rcases ha with ⟨p, args, ha⟩ | ⟨p, s, he⟩
  · exact ⟨_, h.named p args a ha⟩
  · exact ⟨_, h.called p s a he⟩

/-- Groundings that speak of more, where the solver was given atoms and heads for it. -/
theorem Compiled.extend (h : Compiled pending g links) (hkb : Includes g.base t.base)
    (hcovered : ∀ a : Nat, a < t.solver.atoms.count →
      a < g.solver.atoms.count ∨ t.base.Speaks a)
    (htold : ∀ atoms heads, Solver.Told g.solver (Link.account atoms heads links) →
      ∃ atoms' heads', Solver.Told t.solver (Link.account atoms' heads' links) ∧
        ∀ b ∈ heads', b ∈ heads ∨ ∃ p s, t.base.Requested p s b)
    (hcomplete : ∀ r ∈ t.base.relations, ∀ args, t.base.Called r.specific args →
      (r.specific, args) ∉ pending' → t.base.Bears r args → Linked r args g.base links) :
    Compiled pending' t links where
  covered a ha := by
    rcases hcovered a ha with ha | ha
    · exact (h.covered a ha).imp_right hkb.speaks
    · exact Or.inr ha
  told := by
    -- heads are existentials, and these stay requested
    obtain ⟨atoms, heads, hg, hheads⟩ := h.told
    obtain ⟨atoms', heads', ht, hheads'⟩ := htold atoms heads hg
    refine ⟨atoms', heads', ht, fun b hb => (hheads' b hb).elim (fun hb => ?_) id⟩
    obtain ⟨p, s, he⟩ := hheads b hb
    exact ⟨p, s, hkb.requested p s b he⟩
  justified l hl := hkb.justifies (h.justified l hl)
  complete r hr args ha hpending hbears := hkb.linked (hcomplete r hr args ha hpending hbears)

/-- A valid declaration leaves all links as they are, and asks for no more of them: a relation is
new only where there are no calls. -/
theorem Compiled.develops (h : Compiled pending g links) (hexact : Exact pending opened g)
    {kb : KnowledgeBase} (hkb : Develops g.base kb) :
    Compiled pending { g with base := kb } links := by
  refine h.extend hkb.includes (fun a ha => Or.inl ha)
    (fun atoms heads htold => ⟨atoms, heads, htold, fun _ hb => Or.inl hb⟩)
    fun r hr args hcalled hpending hbears => ?_
  obtain ⟨a, ha⟩ := hcalled
  rw [hkb.atom?] at ha
  rcases hkb.unused r hr with hr | hunused
  · exact h.complete r hr args ⟨a, ha⟩ hpending ((hkb.stays.bears_iff hexact.orderly.toPlaced
      (hexact.registered ha) (hkb.signature r.general (hexact.orderly.relations r hr).2)).1 hbears)
  · -- a relation that is new has no calls yet
    rw [hunused args] at ha
    cases ha

/-- A new call, with an atom of its own, has no links yet. -/
theorem Compiled.enter (h : Compiled pending g links) (hp : p < g.base.predicates.size)
    (hnone : g.base.atom? p args = none) :
    let s := g.solver.proposition (.call ⟨(g.base.predicate p).name, args.terms⟩)
    Compiled ((p, args) :: pending) ⟨g.base.enter p args s.1, s.2⟩ links := by
  intro s
  have hgrows : Grows g.base (g.base.enter p args s.1) := grows_enter hnone s.1
  refine h.extend (t := ⟨g.base.enter p args s.1, s.2⟩)
    ⟨hgrows.atoms, fun q t e he => (sameExistentials_enter ..).requested.2 he, fun _ hr => hr⟩
    (fun b hb => ?_)
    (fun atoms heads htold => ⟨_, heads, htold.freshAtom (some _), fun _ hb => Or.inl hb⟩)
    fun r hr args' hcalled hpending hbears => ?_
  · refine (Solver.lt_or_eq_proposition hb).imp_right fun hb => Or.inl ⟨p, args, ?_⟩
    exact hb ▸ atom?_enter_self hp hnone
  · obtain ⟨b, hb⟩ := hcalled
    rcases atom?_enter_cases hp hnone hb with ⟨hspecific, rfl, -⟩ | hb
    · -- the new call is pending, so that nothing is asked of it
      exact absurd (hspecific ▸ List.mem_cons_self) hpending
    · exact h.complete r hr args' ⟨b, hb⟩ (fun hmem => hpending (List.mem_cons_of_mem _ hmem))
        fun hnegative => admits_enter ▸ hbears hnegative

/-- An existential that is opened has no links yet. -/
theorem Compiled.after_openExistential (h : Compiled [] g links) (hexact : Exact [] opened g)
    {s : Nat} (hp : p < g.base.predicates.size) :
    After (openExistential p s) g (fun _ t => Compiled [] t links) fun _ _ => False := by
  refine (Grounding.after_openExistential hexact.backed.wellFormed p s).imp
    fun e t ⟨he, hbase, hadd⟩ => ?_
  obtain ⟨-, hsolver⟩ := (Solver.after_addHead _ _).of_ok hadd
  obtain ⟨kb, u⟩ := t
  obtain rfl : kb = g.base.request p s e := hbase
  -- the existential is the only name, the only head and the only request that is new
  have hrequested : (g.base.request p s e).Requested p s e :=
    (requested_request hp).2 (Or.inr ⟨rfl, rfl, rfl⟩)
  have hatom := atom?_request g.base p s e
  refine h.extend (t := ⟨g.base.request p s e, u⟩)
    ⟨fun q args a ha => (hatom q args).trans ha,
      fun q t f hf => (requested_request hp).2 (Or.inl hf), fun _ hr => hr⟩
    (fun b hb => ?_) (fun atoms heads htold => ?_) fun r hr args hcalled _ hbears => ?_
  · have hb : b < (g.solver.proposition (g.base.someMember p s)).2.atoms.count := by
      rw [show u = _ from hsolver] at hb
      exact hb
    refine (Solver.lt_or_eq_proposition hb).imp_right fun hb => Or.inr ⟨p, s, ?_⟩
    exact hb ▸ he ▸ hrequested
  · refine ⟨_, _, (htold.freshAtom (some (g.base.someMember p s))).addHead ?_ hadd,
      fun b hb => (List.mem_cons.1 hb).elim (fun hb => ?_) Or.inl⟩
    · exact Or.inr (he ▸ List.mem_cons_self)
    · exact Or.inr ⟨p, s, hb ▸ hrequested⟩
  · -- no call is new, so the links there are suffice
    obtain ⟨a, ha⟩ := hcalled
    exact h.complete r hr args ⟨a, (hatom _ _).symm.trans ha⟩ List.not_mem_nil fun hnegative =>
      admits_request g.base p s e _ args ▸ hbears hnegative

/-- What is asserted between atoms that have names is a link. -/
theorem Compiled.after_assert (h : Compiled pending g links) {l : Link}
    (hspecific : ∃ P, g.solver.atoms.named? P = some l.specific)
    (hgeneral : ∃ P, g.solver.atoms.named? P = some l.general) (hl : g.base.Justifies l) :
    After (assert l.constraint) g (fun _ t => Compiled pending t (l :: links) ∧
      t.base = g.base ∧ t.solver.atoms = g.solver.atoms) fun _ _ => True := by
  obtain ⟨atoms, heads, htold, hheads⟩ := h.told
  obtain ⟨P, hP⟩ := hspecific
  obtain ⟨Q, hQ⟩ := hgeneral
  refine after_onSolver.2 ((Link.after_assert htold l (htold.faithful.knows_named hP)
    (htold.faithful.knows_named hQ)).imp_done fun _ s ⟨htold', hatoms⟩ => ⟨?_, rfl, hatoms⟩)
  exact
    -- atoms and calls are as before, and there is one link more
    { covered := by
        show ∀ a : Nat, a < s.atoms.count → _
        rw [hatoms]
        exact h.covered
      told := ⟨atoms, heads, htold', hheads⟩
      justified := List.forall_mem_cons.2 ⟨hl, h.justified⟩
      complete := fun r hr args hcalled hpending hbears =>
        (h.complete r hr args hcalled hpending hbears).mono (List.subset_cons_self _ _) }

/-- The rules of existentials that a call supports are links. -/
theorem Compiled.after_supportExistentials (h : Compiled pending g links)
    (hexact : Exact pending opened g) (ha : g.base.atom? p args = some a) :
    After (supportExistentials p args a) g
      (fun _ t => t.base = g.base ∧ ∃ links', Compiled pending t links' ∧ links ⊆ links')
      fun _ _ => True := by
  cases args with
  -- only calls on one entity support existentials
  | two left right => exact ⟨rfl, links, h, List.Subset.refl _⟩
  | one x =>
    refine (Grounding.after_supportExistentials (I := fun _ t => t.base = g.base ∧
      t.solver.atoms = g.solver.atoms ∧ ∃ links', Compiled pending t links' ∧ links ⊆ links')
      (hexact.isSome_sortOf? ha) ⟨rfl, rfl, links, h, List.Subset.refl _⟩
      (fun _ _ ht => ht.1) (fun es e rest hsplit _ t ⟨hbase, hatoms, links', ht, hsub⟩ => ?_)
      fun _ _ _ _ ht => ht).imp_done fun _ _ ⟨hbase, _, ht⟩ => ⟨hbase, ht⟩
    -- each rule is a link to an existential that has been requested
    have he : g.base.Requested p e.1 e.2 := requested_of_split hsplit
    have hl : t.base.Justifies ⟨.strong, a, e.2⟩ := Or.inr ⟨rfl, p, e.1, hbase ▸ he⟩
    refine (ht.after_assert (l := ⟨.strong, a, e.2⟩) (hatoms ▸ ⟨_, hexact.named p _ a ha⟩)
      (hatoms ▸ ⟨_, hexact.called p e.1 e.2 he⟩) hl).imp_done
      fun _ u ⟨hu, hbase', hatoms'⟩ => ?_
    exact ⟨hbase'.trans hbase, hatoms'.trans hatoms, _, hu,
      List.Subset.trans hsub (List.subset_cons_self _ _)⟩

/-- A pending call that has all its links is settled. -/
theorem Compiled.settle (h : Compiled ((p, args) :: pending) g links)
    (hlinks : ∀ r ∈ g.base.relations, r.specific = p → g.base.Bears r args →
      Linked r args g.base links) : Compiled pending g links :=
  { h with
    complete := by
      intro r hr args' hcalled hpending hbears
      by_cases he : (r.specific, args') = (p, args)
      · obtain ⟨hspecific, rfl⟩ := Prod.mk.inj he
        exact hlinks r hr hspecific hbears
      · exact h.complete r hr args' hcalled
          (fun hmem => (List.mem_cons.1 hmem).elim he hpending) hbears }

/-! ### Whole calls and requests -/

/-- Calls compile what relations say. -/
def compileUpkeep (ρ : Type) : Upkeep ρ (List Link) where
  Holds pending g links := Exact pending [] g ∧ Compiled pending g links
  Refused _ _ := True
  More links links' := links ⊆ links'
  Done := Linked
  Wanted _ _ _ _ := True
  more_refl _ := List.Subset.refl _
  more_trans h h' := List.Subset.trans h h'
  done_lasts hgrows hsub h := (h.grows hgrows).mono hsub
  refused _ := trivial
  orderly h := h.1.orderly
  admitted h ha := h.1.admitted _ _ _ ha
  enrolls h hkb := ⟨h.1.develops hkb.develops (h.1.orderly.registers hkb.toRegisters),
    h.2.develops h.1 hkb.develops⟩
  enters h hp hnone hadmits _ := ⟨h.1.enter hp hnone hadmits, h.2.enter hp hnone⟩
  tells h hr hl := ((h.1.after_assert hl).and (h.2.after_assert
    ⟨_, h.1.named _ _ _ hl.specific⟩ ⟨_, h.1.named _ _ _ hl.general⟩
    (Or.inl ⟨_, hr, _, hl⟩))).mono (fun _ _ ⟨ht, ht', _⟩ => ⟨_, ⟨ht.1, ht'⟩, ht.2,
      List.subset_cons_self _ _, _, List.mem_cons_self, ht.2 ▸ hl⟩) fun _ _ _ => trivial
  settles h ha hdone _ := ((h.1.after_supportExistentials ha).and
    (h.2.after_supportExistentials h.1 ha)).mono (fun _ _ ⟨ht, _, links', ht', hsub⟩ =>
      ⟨links', ⟨ht.1, ht'.settle fun r hr hspecific hbears => by
        rw [ht.2] at hr hbears ⊢
        exact (hdone r hr hspecific hbears).mono hsub⟩, ht.2, hsub⟩) fun _ _ _ => trivial
  withdraws _ := trivial
  wanted_lasts _ _ _ := trivial
  wanted_enter _ := trivial
  wanted_general _ _ _ _ := trivial
  wanted_sibling _ _ _ _ _ := trivial

end Grounding

end Storyworld
