import Storyworld.Proofs.Knowledge.Typing

namespace Storyworld

/-!
# Existentials are exact

An existential of a unary predicate is to hold exactly when the predicate holds of some member of
the sort. Its supports are atoms of calls on members, and existentials over subsorts
(`Exact.sound`); each call on a member is among them, or belongs to a subsort whose existential is
(`Exact.complete`). Since sorts form a tree the first implies that a true existential has a true
member, and the second that a true member makes it true (`Exact.isModel_iff`).

No single channel feeds an existential: a call that is made later supports every existential there
is, a call that was made before is found by its sort, or by way of a subsort. So the invariant does
not say which of them it was, and it leaves out the calls that are pending and the existentials that
have been opened and still lack rules.
-/

/-- The proposition says that a predicate holds of some member of a sort. -/
def Proposition.IsExistential (p : Proposition) : Prop :=
  ∃ predicate sort, p = .ofSort predicate sort

namespace KnowledgeBase

variable {kb kb' : KnowledgeBase} {p q : PredicateId} {s t : SortId} {e a : Nat} {x : String}

/-- The call that says the predicate holds of the entity, with its atom, is a call on a member of
the sort. -/
structure Member (kb : KnowledgeBase) (p : PredicateId) (s : SortId) (x : String) (a : Atom) :
    Prop where
  atom : kb.atom? p (.one x) = some a
  belongs : kb.belongs x s = true

/-- The atom is that of the existential over a subsort. -/
structure Below (kb : KnowledgeBase) (p : PredicateId) (s t : SortId) (e : Atom) : Prop where
  subsort : t ∈ kb.taxonomy.subsorts s
  requested : kb.Requested p t e

theorem requested_of_split {es rest : List (SortId × Nat)}
    (h : (kb.predicate p).existentials = es ++ (s, e) :: rest) : kb.Requested p s e := by
  rw [Requested, h]
  exact List.mem_append_right _ List.mem_cons_self

/-- The predicates have the same signatures and the same existentials. -/
structure SameExistentials (kb kb' : KnowledgeBase) : Prop where
  size : kb'.predicates.size = kb.predicates.size
  signature : ∀ p, (kb'.predicate p).signature = (kb.predicate p).signature
  existentials : ∀ p, (kb'.predicate p).existentials = (kb.predicate p).existentials

theorem SameExistentials.refl (kb : KnowledgeBase) : SameExistentials kb kb :=
  ⟨rfl, fun _ => rfl, fun _ => rfl⟩

theorem SameExistentials.trans {kb'' : KnowledgeBase} (h : SameExistentials kb kb')
    (h' : SameExistentials kb' kb'') : SameExistentials kb kb'' :=
  ⟨h'.size.trans h.size, fun p => (h'.signature p).trans (h.signature p),
    fun p => (h'.existentials p).trans (h.existentials p)⟩

theorem SameExistentials.of_predicates (h : kb'.predicates = kb.predicates) :
    SameExistentials kb kb' :=
  ⟨by rw [h], fun p => by rw [predicate, h, predicate], fun p => by rw [predicate, h, predicate]⟩

/-- The same existentials are requested. -/
theorem SameExistentials.requested (h : SameExistentials kb kb') :
    kb'.Requested p s e ↔ kb.Requested p s e := by
  rw [Requested, h.existentials]
  rfl

/-- New arguments in a domain request no existential. -/
theorem sameExistentials_enter (kb : KnowledgeBase) (p : PredicateId) (args : Arguments)
    (a : Atom) : SameExistentials kb (kb.enter p args a) :=
  ⟨size_enter, fun q => (predicate_enter kb p q args a).2.1,
    fun q => (predicate_enter kb p q args a).2.2⟩

/-- Arguments that are taken out of a domain take no existential along. -/
theorem sameExistentials_withdraw (kb : KnowledgeBase) (p : PredicateId) (args : Arguments) :
    SameExistentials kb (kb.withdraw p args) :=
  ⟨Array.size_modify, fun q => (predicate_withdraw kb p q args).2.1,
    fun q => (predicate_withdraw kb p q args).2.2⟩

/-- A member of a sort is bound to the sort itself or belongs to a subsort. -/
theorem Placed.belongs_iff (hkb : kb.Placed) : kb.belongs x s = true ↔
    kb.sortOf? x = some s ∨ ∃ t ∈ kb.taxonomy.subsorts s, kb.belongs x t = true := by
  unfold KnowledgeBase.belongs
  cases hx : kb.sortOf? x with
  | none => simp
  | some d => exact (hkb.tree.isSubsort_iff (hkb.sorts x d hx)).trans (or_congr_left (by simp))

/-- A subsort stays one, whatever is added. -/
theorem Placed.mem_subsorts (hkb : kb.Placed) (hkb' : kb'.Placed) (h : Extends kb kb')
    (ht : t ∈ kb.taxonomy.subsorts s) : t ∈ kb'.taxonomy.subsorts s := by
  have hparent := (hkb.tree.mem_subsorts s t).1 ht
  rw [hkb'.tree.mem_subsorts, h.taxonomy.parent t (Taxonomy.size_le_of_parent? hparent)]
  exact hparent

end KnowledgeBase

namespace Grounding

open Action KnowledgeBase

variable {ρ : Type} {g : Grounding ρ} {pending : Pending} {opened : List (PredicateId × SortId)}
  {p q : Nat} {s t : Nat} {args : Arguments} {a e : Nat} {x : String} {l : Literal}
  {i : Interpretation}

/-! ### The invariant -/

/-- The literal may support the existential of the predicate over the sort: it is a call on a member
that is not pending, or the existential over a subsort. -/
inductive Supports (pending : Pending) (kb : KnowledgeBase) (p : PredicateId) (s : SortId) :
    Literal → Prop where
  | member {x : String} {a : Nat} (hmember : kb.Member p s x a) (hpending : (p, .one x) ∉ pending) :
    Supports pending kb p s (Literal.pos a)
  | subsort {t : SortId} {e : Nat} (hbelow : kb.Below p s t e) :
    Supports pending kb p s (Literal.pos e)

/-- The atom of the call, or of the existential over a subsort that the entity belongs to, is one
of the literals. -/
def Covered (kb : KnowledgeBase) (supports : List Literal) (p : PredicateId) (s : SortId)
    (x : String) (a : Atom) : Prop :=
  Literal.pos a ∈ supports ∨
    ∃ t e, kb.Below p s t e ∧ kb.belongs x t = true ∧ Literal.pos e ∈ supports

/-- The existentials are exact, up to the calls that are pending and the existentials that have been
opened. -/
structure Exact (pending : Pending) (opened : List (PredicateId × SortId)) (g : Grounding ρ) :
    Prop where
  orderly : g.base.Orderly
  backed : g.solver.Backed
  distinct : pending.Nodup
  entered : ∀ c ∈ pending, g.base.Called c.1 c.2
  admitted : ∀ p args a, g.base.atom? p args = some a → g.base.admits p args = true
  named : ∀ p args a, g.base.atom? p args = some a →
    g.solver.atoms.named? (.call ⟨(g.base.predicate p).name, args.terms⟩) = some a
  placed : ∀ p s e, g.base.Requested p s e → s < g.base.taxonomy.size
  called : ∀ p s e, g.base.Requested p s e →
    g.solver.atoms.named? (g.base.someMember p s) = some e
  heads : ∀ p s e, g.base.Requested p s e → e ∈ g.solver.rules.supports
  requested : ∀ h l P, g.solver.atoms.name? h = some P → P.IsExistential →
    l ∈ g.solver.rules.supportsOf h → ∃ p s, g.base.Requested p s h
  sound : ∀ p s e, g.base.Requested p s e → ∀ l ∈ g.solver.rules.supportsOf e,
    Supports pending g.base p s l
  complete : ∀ p s e, g.base.Requested p s e → (p, s) ∉ opened →
    ∀ x a, g.base.Member p s x a → (p, .one x) ∉ pending →
      Covered g.base (g.solver.rules.supportsOf e) p s x a

/-- At the start nothing has been called or requested. -/
theorem exact_start {kb : KnowledgeBase} (horder : kb.Orderly) (huses : ∀ p, kb.uses p = ({}, []))
    (config : Config) (source : ρ) : Exact [] [] ⟨kb, Solver.ofConfig config source⟩ :=
  { typed_start horder huses (Solver.backed_ofConfig config source) with
    distinct := List.nodup_nil
    entered := nofun
    heads := fun p _ _ he => absurd he (not_requested_of_uses (huses p))
    requested := by
      intro h l P _ _ hl
      rw [Solver.supportsOf_ofConfig config source h] at hl
      cases hl
    sound := fun p _ _ he => absurd he (not_requested_of_uses (huses p))
    complete := fun p _ _ he => absurd he (not_requested_of_uses (huses p)) }

/-- What is exact is well typed. -/
theorem Exact.typed (h : Exact pending opened g) : Typed g :=
  ⟨h.orderly, h.backed, h.admitted, h.named, h.placed, h.called⟩

/-- Arguments that a predicate remembers are registered. -/
theorem Exact.registered (h : Exact pending opened g) (ha : g.base.atom? p args = some a) :
    g.base.Registered args := h.typed.registered ha

theorem Exact.isSome_sortOf? (h : Exact pending opened g)
    (ha : g.base.atom? p (.one x) = some a) : (g.base.sortOf? x).isSome :=
  h.registered ha x List.mem_cons_self

/-- The name of an existential tells which one it is. -/
theorem Exact.eq_of_requested (h : Exact pending opened g) (hp : g.base.Requested p s e)
    (hq : g.base.Requested q t e) : p = q ∧ s = t := h.typed.eq_of_requested hp hq

/-- A subsort has a larger number, and a number less than there are sorts. -/
theorem Exact.size_sub_lt (h : Exact pending opened g) {t : Nat} (hb : g.base.Below p s t e) :
    g.base.taxonomy.size - t < g.base.taxonomy.size - s := by
  have hlt := h.orderly.tree.descending t s ((h.orderly.tree.mem_subsorts s t).1 hb.subsort)
  exact Nat.sub_lt_sub_left (Nat.lt_trans hlt (h.placed p t e hb.requested)) hlt

/-! ### What it means -/

/-- Where the existentials over the subsorts are exact, one of the supports is true exactly when the
predicate is true of some member. -/
theorem Exact.exists_support_iff (h : Exact [] [] g) (he : g.base.Requested p s e)
    (hexact : ∀ t f, g.base.Below p s t f →
      (i f = true ↔ ∃ x a, g.base.Member p t x a ∧ i a = true)) :
    (∃ l ∈ g.solver.rules.supportsOf e, i.Satisfies l) ↔
      ∃ x a, g.base.Member p s x a ∧ i a = true := by
  constructor
  · rintro ⟨l, hl, hsat⟩
    cases h.sound p s e he l hl with
    | member hmember _ => exact ⟨_, _, hmember, hsat⟩
    | @subsort t f hb =>
      obtain ⟨x, a, hmember, htrue⟩ := (hexact t f hb).1 hsat
      -- a member of a subsort is a member of the sort
      have hx := h.orderly.toPlaced.belongs_iff.2 (Or.inr ⟨t, hb.subsort, hmember.belongs⟩)
      exact ⟨x, a, ⟨hmember.atom, hx⟩, htrue⟩
  · rintro ⟨x, a, hmember, htrue⟩
    -- nothing is pending or opened here, so the call is covered in one of the two ways
    rcases h.complete p s e he List.not_mem_nil x a hmember List.not_mem_nil with hl | hl
    · exact ⟨_, hl, htrue⟩
    · obtain ⟨t, f, hb, hx, hl⟩ := hl
      exact ⟨_, hl, (hexact t f hb).2 ⟨x, a, ⟨hmember.atom, hx⟩, htrue⟩⟩

/-- **An existential is true exactly when the predicate is true of some member of the sort.** -/
theorem Exact.isModel_iff {s e : Nat} (h : Exact [] [] g) (hi : i.IsModel g.solver.formula)
    (he : g.base.Requested p s e) :
    i e = true ↔ ∃ x a, g.base.Member p s x a ∧ i a = true := by
  rw [h.backed.iff_of_isModel (h.heads p s e he) hi]
  refine h.exists_support_iff he fun t f hb => ?_
  have hfalls := h.size_sub_lt hb
  exact h.isModel_iff hi hb.requested
  termination_by g.base.taxonomy.size - s

/-! ### What declarations and questions do to it -/

/-- A valid declaration leaves members and subsorts what they are. -/
theorem Exact.develops (h : Exact pending opened g) {kb : KnowledgeBase}
    (hkb : Develops g.base kb) (horder : kb.Orderly) :
    Exact pending opened { g with base := kb } := by
  have htyped := h.typed.develops hkb horder
  have hrequested : ∀ p s e, kb.Requested p s e ↔ g.base.Requested p s e := fun _ _ _ =>
    hkb.requested
  -- who belongs to a sort changes for new entities only, and members are not new
  have hbelongs : ∀ {p x a}, kb.atom? p (.one x) = some a → ∀ s,
      kb.belongs x s = g.base.belongs x s := fun ha s =>
    hkb.stays.belongs h.orderly.toPlaced (h.isSome_sortOf? ((hkb.atom? _ _).symm.trans ha)) s
  have hmember : ∀ {p s x a}, kb.Member p s x a ↔ g.base.Member p s x a := fun {p s x a} =>
    ⟨fun hm => ⟨(hkb.atom? _ _).symm.trans hm.atom, (hbelongs hm.atom s).symm.trans hm.belongs⟩,
      fun hm => have ha := (hkb.atom? _ _).trans hm.atom
        ⟨ha, (hbelongs ha s).trans hm.belongs⟩⟩
  have hbelow : ∀ {p s t e}, g.base.Below p s t e → kb.Below p s t e := fun hb =>
    ⟨h.orderly.toPlaced.mem_subsorts horder.toPlaced hkb.stays hb.subsort,
      (hrequested _ _ _).2 hb.requested⟩
  refine
    { htyped with
      distinct := h.distinct
      entered := fun c hc => (h.entered c hc).imp fun a ha => (hkb.atom? _ _).trans ha
      heads := fun p s e he => h.heads p s e ((hrequested p s e).1 he)
      requested := fun f l P hname hP hl => ?_
      sound := fun p s e he l hl => ?_
      complete := fun p s e he hopened x a hm hpending => ?_ }
  · obtain ⟨p, s, hps⟩ := h.requested f l P hname hP hl
    exact ⟨p, s, (hrequested p s f).2 hps⟩
  · cases h.sound p s e ((hrequested p s e).1 he) l hl with
    | member hm hpending => exact .member (hmember.2 hm) hpending
    | subsort hb => exact .subsort (hbelow hb)
  · have he' := (hrequested p s e).1 he
    refine (h.complete p s e he' hopened x a (hmember.1 hm) hpending).imp_right
      fun ⟨t, e', hb, hx, hl⟩ => ⟨t, e', hbelow hb, ?_, hl⟩
    exact (hbelongs hm.atom t).trans hx

/-- What spares the existentials leaves them exact. -/
theorem Exact.spares (h : Exact pending opened g) {s : Solver ρ}
    (hs : Solver.Spares Proposition.IsExistential g.solver s) :
    Exact pending opened { g with solver := s } := by
  have htyped := h.typed.spares hs
  -- existentials have names of the kind that is spared, so none of them gains a support
  have hsame : ∀ p t e, g.base.Requested p t e →
      s.rules.supportsOf e = g.solver.rules.supportsOf e := fun p t e he =>
    hs.supportsOf e _ (hs.backed.wellFormed.atoms.named _ e (htyped.called p t e he)) ⟨_, _, rfl⟩
  refine
    { htyped with
      distinct := h.distinct
      entered := h.entered
      heads := fun p t e he => hs.heads e (h.heads p t e he)
      requested := fun f l P hname hP hl => ?_
      sound := fun p t e he => ?_
      complete := fun p t e he => ?_ }
  · have hl : l ∈ g.solver.rules.supportsOf f := hs.supportsOf f P hname hP ▸ hl
    -- an atom that is new has no supports
    have hlt : f < g.solver.atoms.count := by
      rcases Nat.lt_or_ge f g.solver.atoms.count with hlt | hge
      · exact hlt
      · rw [h.backed.wellFormed.rules.supportsOf_eq_nil hge] at hl
        cases hl
    exact h.requested f l P ((hs.name? f hlt).symm.trans hname) hP hl
  · show ∀ l ∈ s.rules.supportsOf e, _
    rw [hsame p t e he]
    exact h.sound p t e he
  · show _ → ∀ x a, _ → _ → Covered g.base (s.rules.supportsOf e) p t x a
    rw [hsame p t e he]
    exact h.complete p t e he

/-- More supports may be told, if those of existentials are what they should be. Calls that all
the existentials over sorts of their members have as supports by then are not pending any more. -/
theorem Exact.supported (h : Exact pending opened g) {s : Solver ρ} {more : Atom → Literal → Prop}
    (hs : Solver.Supported more g.solver s) {rest : Pending} (hrest : rest.Sublist pending)
    (hmore : ∀ f l, more f l →
      (∀ P, g.solver.atoms.name? f = some P → ¬ P.IsExistential) ∨
        ∃ p s, g.base.Requested p s f ∧ Supports rest g.base p s l)
    (hsettled : ∀ p s e, g.base.Requested p s e → ∀ x a, g.base.Member p s x a →
      (p, .one x) ∈ pending → (p, .one x) ∉ rest → more e (Literal.pos a)) :
    Exact rest opened { g with solver := s } := by
  have hatoms := hs.atoms
  have htyped := h.typed.withSolver hs.backed fun P b hb => hatoms ▸ hb
  have hname : ∀ p t e, g.base.Requested p t e →
      g.solver.atoms.name? e = some (g.base.someMember p t) := fun p t e he =>
    h.backed.wellFormed.atoms.named _ e (h.called p t e he)
  refine
    { htyped with
      distinct := h.distinct.sublist hrest
      entered := fun c hc => h.entered c (hrest.subset hc)
      heads := fun p t e he => hs.heads e (h.heads p t e he)
      requested := fun f l P hf hP hl => ?_
      sound := fun p t e he l hl => ?_
      complete := fun p t e he hopened x a hm hnot => ?_ }
  · have hf : g.solver.atoms.name? f = some P := hatoms ▸ hf
    rcases (hs.mem_supportsOf f l).1 hl with hl | hl
    · exact h.requested f l P hf hP hl
    · rcases hmore f l hl with hnone | ⟨p, t, he, -⟩
      · exact absurd hP (hnone P hf)
      · exact ⟨p, t, he⟩
  · -- a support is an old one or one of those that were added
    rcases (hs.mem_supportsOf e l).1 hl with hl | hl
    · cases h.sound p t e he l hl with
      | member hm hnot => exact .member hm fun hmem => hnot (hrest.subset hmem)
      | subsort hb => exact .subsort hb
    · rcases hmore e l hl with hnone | ⟨q, u, he', hsupports⟩
      · exact absurd ⟨_, _, rfl⟩ (hnone _ (hname p t e he))
      · obtain ⟨rfl, rfl⟩ := h.eq_of_requested he he'
        exact hsupports
  · have hsub : ∀ l ∈ g.solver.rules.supportsOf e, l ∈ s.rules.supportsOf e :=
      fun l hl => (hs.mem_supportsOf e l).2 (Or.inl hl)
    -- a call that is no longer pending is covered by what was added for it
    by_cases hpending : (p, Arguments.one x) ∈ pending
    · exact Or.inl ((hs.mem_supportsOf e _).2 (Or.inr (hsettled p t e he x a hm hpending hnot)))
    · exact (h.complete p t e he hopened x a hm hpending).imp (hsub _)
        fun ⟨u, e', hb, hx, hl⟩ => ⟨u, e', hb, hx, hsub _ hl⟩

/-! ### What calls do to it -/

/-- A new call is pending, so that nothing is asked of it. -/
theorem Exact.enter (h : Exact pending opened g) (hp : p < g.base.predicates.size)
    (hnone : g.base.atom? p args = none) (hadmits : g.base.admits p args = true) :
    let s := g.solver.proposition (.call ⟨(g.base.predicate p).name, args.terms⟩)
    Exact ((p, args) :: pending) opened ⟨g.base.enter p args s.1, s.2⟩ := by
  intro s
  have hspares : Solver.Spares Proposition.IsExistential g.solver s.2 :=
    Solver.spares_freshAtom h.backed (some _)
  have h' : Exact pending opened { g with solver := s.2 } := h.spares hspares
  have hgrows : Grows g.base (g.base.enter p args s.1) := grows_enter hnone s.1
  have htyped : Typed ⟨g.base.enter p args s.1, s.2⟩ := h.typed.enter hp hnone hadmits
  have hrequested : ∀ q t e, (g.base.enter p args s.1).Requested q t e ↔ g.base.Requested q t e :=
    fun _ _ _ => requested_enter
  have hmember : ∀ {q t x a}, g.base.Member q t x a → (g.base.enter p args s.1).Member q t x a :=
    fun hm => ⟨hgrows.atoms _ _ _ hm.atom, hm.belongs⟩
  refine
    { htyped with
      distinct := List.nodup_cons.2 ⟨fun hmem => ?_, h.distinct⟩
      entered := List.forall_mem_cons.2 ⟨⟨s.1, atom?_enter_self hp hnone⟩, fun c hc =>
        (h.entered c hc).imp fun b hb => hgrows.atoms _ _ b hb⟩
      heads := fun q t e he => h'.heads q t e ((hrequested q t e).1 he)
      requested := fun f l P hf hP hl => ?_
      sound := fun q t e he l hl => ?_
      complete := fun q t e he hopened x b hm hpending => ?_ }
  · obtain ⟨b, hb⟩ := h.entered _ hmem
    rw [hnone] at hb
    cases hb
  · obtain ⟨q, t, he⟩ := h'.requested f l P hf hP hl
    exact ⟨q, t, (hrequested q t f).2 he⟩
  · cases h'.sound q t e ((hrequested q t e).1 he) l hl with
    | @member x b hm hpending =>
      refine .member (hmember hm) fun hmem => ?_
      rcases List.mem_cons.1 hmem with he | hmem
      · -- the call was not made before, so that it is no member
        obtain ⟨rfl, rfl⟩ := Prod.mk.inj he
        have hatom := hm.atom
        rw [hnone] at hatom
        cases hatom
      · exact hpending hmem
    | subsort hb => exact .subsort ⟨hb.subsort, (hrequested _ _ _).2 hb.requested⟩
  · rcases atom?_enter_cases hp hnone hm.atom with ⟨rfl, rfl, -⟩ | hb
    · exact absurd List.mem_cons_self hpending
    · refine (h'.complete q t e ((hrequested q t e).1 he) hopened x b ⟨hb, hm.belongs⟩
        fun hmem => hpending (List.mem_cons_of_mem _ hmem)).imp_right ?_
      exact fun ⟨u, e', hbelow, hx, hl⟩ =>
        ⟨u, e', ⟨hbelow.subsort, (hrequested _ _ _).2 hbelow.requested⟩, hx, hl⟩

/-- A call that is pending may be withdrawn: nothing is supported by it. -/
theorem Exact.withdraw (h : Exact ((p, args) :: pending) opened g) :
    Exact pending opened { g with base := g.base.withdraw p args } := by
  have htyped := h.typed.withdraw p args
  have hrequested : ∀ q t e, (g.base.withdraw p args).Requested q t e ↔ g.base.Requested q t e :=
    fun _ _ _ => requested_withdraw
  have hne : ∀ {q args'}, (q, args') ∉ (p, args) :: pending → (p, args) ≠ (q, args') :=
    fun hmem he => hmem (he ▸ List.mem_cons_self)
  refine
    { htyped with
      distinct := (List.nodup_cons.1 h.distinct).2
      entered := fun c hc => ?_
      heads := fun q t e he => h.heads q t e ((hrequested q t e).1 he)
      requested := fun f l P hf hP hl => ?_
      sound := fun q t e he l hl => ?_
      complete := fun q t e he hopened x b hm hpending => ?_ }
  · refine (h.entered c (List.mem_cons_of_mem _ hc)).imp fun b hb => ?_
    -- calls are pending once each, so no other pending call loses its entry
    have hother : (p, args) ≠ c := fun he => (List.nodup_cons.1 h.distinct).1 (he ▸ hc)
    exact (atom?_withdraw_of_ne hother).trans hb
  · obtain ⟨q, t, he⟩ := h.requested f l P hf hP hl
    exact ⟨q, t, (hrequested q t f).2 he⟩
  · cases h.sound q t e ((hrequested q t e).1 he) l hl with
    | member hm hpending =>
      exact .member ⟨(atom?_withdraw_of_ne (hne hpending)).trans hm.atom, hm.belongs⟩
        fun hmem => hpending (List.mem_cons_of_mem _ hmem)
    | subsort hb => exact .subsort ⟨hb.subsort, (hrequested _ _ _).2 hb.requested⟩
  · -- a member that is left is another call, so it is covered as before
    obtain ⟨hatom, hother⟩ := atom?_withdraw_eq_some hm.atom
    refine (h.complete q t e ((hrequested q t e).1 he) hopened x b ⟨hatom, hm.belongs⟩
      fun hmem => (List.mem_cons.1 hmem).elim hother hpending).imp_right ?_
    exact fun ⟨u, e', hbelow, hx, hl⟩ =>
      ⟨u, e', ⟨hbelow.subsort, (hrequested _ _ _).2 hbelow.requested⟩, hx, hl⟩

/-! ### What is asserted -/

theorem not_isExistential_call (predicate : String) (args : Arguments) :
    ¬ (Proposition.call ⟨predicate, args.terms⟩).IsExistential := by
  rintro ⟨name, sort, h⟩
  have hterms : args.terms = [.sort sort] := (Call.mk.inj (Proposition.call.inj h)).2
  cases args <;> cases hterms

/-- The atom of a call is below the count. -/
theorem Exact.atom_lt (h : Exact pending opened g) (ha : g.base.atom? p args = some a) :
    a < g.solver.atoms.count := h.backed.wellFormed.atoms.lt (h.named p args a ha)

/-- The atom of an existential is below the count. -/
theorem Exact.requested_lt (h : Exact pending opened g) (he : g.base.Requested p s e) :
    e < g.solver.atoms.count := h.backed.wellFormed.atoms.lt (h.called p s e he)

/-- What a relation asserts is no rule of an existential. -/
theorem Exact.after_assert (h : Exact pending opened g) {r : Relation} {l : Link}
    (hl : g.base.Relates r args l) :
    After (assert l.constraint) g (fun _ t => Exact pending opened t ∧ t.base = g.base)
      fun _ _ => False := by
  obtain ⟨kind, b, c⟩ := l
  have hb := h.atom_lt hl.specific
  have hc := h.atom_lt hl.general
  have hclause : ∀ {m : Literal}, m.atom = c →
      After (assert (.clause [(Literal.pos b).negate, m])) g
        (fun _ t => Exact pending opened t ∧ t.base = g.base) fun _ _ => False := by
    intro m hm
    refine after_onSolver.2 (after_bind.2 ((Solver.after_addClause_known h.backed ?_).imp_done
      fun _ s hs => ⟨h.supported hs (List.Sublist.refl _) nofun
        (fun _ _ _ _ _ _ _ hmem hnot => absurd hmem hnot), rfl⟩))
    refine List.forall_mem_cons.2 ⟨hb, List.forall_mem_singleton.2 ?_⟩
    rw [hm]
    exact hc
  cases kind with
  | generalization => exact hclause (m := Literal.pos c) rfl
  | negative => exact hclause (m := (Literal.pos c).negate) rfl
  | strong =>
    refine after_onSolver.2 (after_bind.2 ((Solver.after_addRule_known h.backed hc
      (l := Literal.pos b) hb).imp_done fun _ s hs => ⟨h.supported hs (List.Sublist.refl _) ?_
        (fun _ _ _ _ _ _ _ hmem hnot => absurd hmem hnot), rfl⟩))
    -- the head of the rule is a call
    rintro f l ⟨rfl, -⟩
    refine Or.inl fun P hP => ?_
    have hname := h.backed.wellFormed.atoms.named _ _ (h.named _ _ _ hl.general)
    rw [hP] at hname
    rw [Option.some.inj hname]
    exact not_isExistential_call _ _

/-- A call on an entity supports the existentials over the sorts of the entity, and no others. -/
theorem Exact.after_supportEach (h : Exact pending opened g)
    (ha : g.base.atom? p (.one x) = some a) :
    After (supportExistentials p (.one x) a) g (fun _ t => t.base = g.base ∧
      Solver.Supported (fun f l => ∃ s, g.base.Requested p s f ∧ g.base.belongs x s = true ∧
        l = Literal.pos a) g.solver t.solver) fun _ _ => False := by
  -- the loop runs over the existentials of the predicate, `es` are those it has been through
  refine Grounding.after_supportExistentials (I := fun es t => t.base = g.base ∧
    Solver.Supported (fun f l => ∃ s, (s, f) ∈ es ∧ g.base.belongs x s = true ∧
      l = Literal.pos a) g.solver t.solver) (h.isSome_sortOf? ha) ⟨rfl, ?_⟩
    (fun _ _ ht => ht.1) (fun es e rest hsplit hbelongs t ht => ?_)
    fun es e t hbelongs ht => ?_
  · exact (Solver.Supported.refl h.backed).congr fun f l => ⟨nofun, nofun⟩
  · have he : g.base.Requested p e.1 e.2 := requested_of_split hsplit
    have hhead : e.2 < t.solver.atoms.count := ht.2.atoms ▸ h.requested_lt he
    have hbody : (Literal.pos a).atom < t.solver.atoms.count := ht.2.atoms ▸ h.atom_lt ha
    refine after_onSolver.2 (after_bind.2 ((Solver.after_addRule_known ht.2.backed hhead
      hbody).imp_done fun _ s hs => ⟨ht.1, (ht.2.trans hs).congr fun f l => ?_⟩))
    -- one rule is added, for the existential at hand
    simp only [List.mem_append, List.mem_singleton]
    constructor
    · rintro (⟨s, hs, hx, rfl⟩ | ⟨rfl, rfl⟩)
      · exact ⟨s, Or.inl hs, hx, rfl⟩
      · exact ⟨e.1, Or.inr rfl, hbelongs, rfl⟩
    · rintro ⟨s, hs | rfl, hx, rfl⟩
      · exact Or.inl ⟨s, hs, hx, rfl⟩
      · exact Or.inr ⟨rfl, rfl⟩
  · refine ⟨ht.1, ht.2.congr fun f l => exists_congr fun s => and_congr_left fun hs => ?_⟩
    rw [List.mem_append, List.mem_singleton]
    refine (or_iff_left ?_).symm
    rintro rfl
    -- an existential that the entity does not belong to gets no rule
    rw [hbelongs] at hs
    cases hs.1

/-- When a call has supported the existentials over the sorts of its entity it is not pending any
more. -/
theorem Exact.after_supportExistentials (h : Exact ((p, args) :: pending) opened g)
    (ha : g.base.atom? p args = some a) :
    After (supportExistentials p args a) g (fun _ t => Exact pending opened t ∧ t.base = g.base)
      fun _ _ => False := by
  have hnot : (p, args) ∉ pending := (List.nodup_cons.1 h.distinct).1
  cases args with
  | two left right =>
    -- the call is of no member
    refine ⟨h.supported (Solver.Supported.refl h.backed) (List.sublist_cons_self _ _) nofun ?_, rfl⟩
    intro q t e he x b hm hmem hrest
    cases (List.mem_cons.1 hmem).resolve_right hrest
  | one x =>
    refine (h.after_supportEach ha).imp_done fun _ t ⟨hbase, hsupported⟩ => ?_
    obtain ⟨kb, s⟩ := t
    obtain rfl : kb = g.base := hbase
    refine ⟨h.supported hsupported (List.sublist_cons_self _ _) ?_ ?_, rfl⟩
    · rintro f l ⟨s, hs, hx, rfl⟩
      exact Or.inr ⟨p, s, hs, .member ⟨ha, hx⟩ hnot⟩
    · intro q t e he y b hm hmem hrest
      obtain ⟨rfl, he'⟩ := Prod.mk.inj ((List.mem_cons.1 hmem).resolve_right hrest)
      obtain rfl := Arguments.one.inj he'
      obtain rfl : a = b := Option.some.inj (ha.symm.trans hm.atom)
      exact ⟨t, he, hm.belongs, rfl⟩

/-! ### Whole calls -/

/-- Calls keep the existentials exact and add none to a knowledge base, also when they are
refused. -/
def exactUpkeep (ρ : Type) (kb : KnowledgeBase) : Upkeep ρ Unit where
  Holds pending g _ := Exact pending [] g ∧ SameExistentials kb g.base
  Refused pending g := Exact pending [] g ∧ SameExistentials kb g.base
  More _ _ := True
  Done _ _ _ _ := True
  Wanted _ _ _ _ := True
  more_refl _ := trivial
  more_trans _ _ := trivial
  done_lasts _ _ _ := trivial
  refused h := h
  orderly h := h.1.orderly
  admitted h ha := h.1.admitted _ _ _ ha
  enrolls h hkb := ⟨h.1.develops hkb.develops (h.1.orderly.registers hkb.toRegisters),
    h.2.trans (SameExistentials.of_predicates hkb.same.predicates)⟩
  enters h hp hnone hadmits _ := ⟨h.1.enter hp hnone hadmits, h.2.trans (sameExistentials_enter ..)⟩
  tells h _ hl := (h.1.after_assert hl).imp
    fun _ _ ht => ⟨(), ⟨ht.1, ht.2 ▸ h.2⟩, ht.2, trivial, trivial⟩
  settles h ha _ _ := (h.1.after_supportExistentials ha).imp
    fun _ _ ht => ⟨(), ⟨ht.1, ht.2 ▸ h.2⟩, ht.2, trivial⟩
  withdraws h := ⟨h.1.withdraw, h.2.trans (sameExistentials_withdraw ..)⟩
  wanted_lasts _ _ _ := trivial
  wanted_enter _ := trivial
  wanted_general _ _ _ _ := trivial
  wanted_sibling _ _ _ _ _ := trivial

/-- **Calls keep existentials exact**, whether they go through or not, and request none. -/
theorem Exact.after_call (h : Exact [] [] g) (hp : p < g.base.predicates.size) (args : Arguments) :
    After (call p args) g (fun _ t => Exact [] [] t ∧ SameExistentials g.base t.base)
      fun _ t => Exact [] [] t ∧ SameExistentials g.base t.base :=
  After.imp_done ((exactUpkeep ρ g.base).after_call (x := ()) ⟨h, SameExistentials.refl _⟩ hp
    trivial) fun _ _ ⟨_, ht, _⟩ => ht

end Grounding

end Storyworld
