import Storyworld.Proofs.Knowledge.Existentials
import Storyworld.Random.Pcg

namespace Storyworld

/-!
# Requests for existentials

A request opens the existential, supports it by those over the subsorts, which it opens on the way,
and then by the calls on the entities bound to the sort itself. Subsorts have larger numbers, so the
depth that a request starts with is enough (`Inquiry.answers_existentialWithin`). With what calls do
to existentials, this makes them exact in every history (`History.existential_exact`).
-/

namespace KnowledgeBase

variable {kb : KnowledgeBase} {p q : PredicateId} {s t : SortId} {e f : Nat} {args : Arguments}

/-- The knowledge base with one more existential of a predicate. -/
def request (kb : KnowledgeBase) (p : PredicateId) (s : SortId) (e : Atom) : KnowledgeBase :=
  kb.modifyPredicate p fun q => { q with existentials := q.existentials ++ [(s, e)] }

/-- A request adds to the existentials of a predicate, and changes nothing else of it. -/
theorem predicate_request (kb : KnowledgeBase) (p q : PredicateId) (s : SortId) (e : Atom) :
    ∃ existentials, (kb.request p s e).predicate q = { kb.predicate q with existentials } := by
  rcases predicate_modifyPredicate kb
    (fun q => { q with existentials := q.existentials ++ [(s, e)] }) q p with h | h
  · exact ⟨_, h⟩
  · exact ⟨_, h⟩

/-- A request renames no predicate. -/
theorem name_request (kb : KnowledgeBase) (p : PredicateId) (s : SortId) (e : Atom)
    (q : PredicateId) : ((kb.request p s e).predicate q).name = (kb.predicate q).name := by
  obtain ⟨es, hq⟩ := predicate_request kb p q s e
  rw [hq]

/-- What an existential says does not depend on which have been requested. -/
theorem someMember_request (kb : KnowledgeBase) (p : PredicateId) (s : SortId) (e : Atom)
    (q : PredicateId) (t : SortId) : (kb.request p s e).someMember q t = kb.someMember q t := by
  rw [someMember, name_request]
  rfl

/-- A request changes nothing of what is admitted. -/
theorem admits_request (kb : KnowledgeBase) (p : PredicateId) (s : SortId) (e : Atom)
    (q : PredicateId) (args : Arguments) : (kb.request p s e).admits q args = kb.admits q args := by
  obtain ⟨es, hq⟩ := predicate_request kb p q s e
  rw [admits, hq]
  rfl

/-- A request changes nothing of what was called. -/
theorem atom?_request (kb : KnowledgeBase) (p : PredicateId) (s : SortId) (e : Atom)
    (q : PredicateId) (args : Arguments) : (kb.request p s e).atom? q args = kb.atom? q args := by
  obtain ⟨es, hq⟩ := predicate_request kb p q s e
  rw [atom?, hq]
  rfl

/-- A request adds one existential to those that were requested. -/
theorem requested_request (hp : p < kb.predicates.size) :
    (kb.request p s e).Requested q t f ↔ kb.Requested q t f ∨ q = p ∧ t = s ∧ f = e := by
  unfold Requested request
  by_cases hpq : p = q
  · subst hpq
    rw [predicate_modify_self _ hp, List.mem_append, List.mem_singleton, Prod.mk.injEq]
    exact or_congr_right (and_iff_right rfl).symm
  · rw [predicate_modify_of_ne _ hpq]
    exact (or_iff_left fun he => hpq he.1.symm).symm

end KnowledgeBase

namespace Grounding

open Action KnowledgeBase

variable {ρ : Type} {g t u : Grounding ρ} {opened : List (PredicateId × SortId)} {p q s : Nat}
  {args : Arguments} {a e f : Nat} {x : String} {l : Literal} {i : Interpretation}

/-! ### Groundings that are asked more -/

/-- Existentials were added to predicates, and supports to heads; the rest of the knowledge base is
as it was. -/
structure Asks (g t : Grounding ρ) : Prop where
  taxonomy : t.base.taxonomy = g.base.taxonomy
  entities : t.base.entities = g.base.entities
  relations : t.base.relations = g.base.relations
  size : t.base.predicates.size = g.base.predicates.size
  predicate : ∀ p, ∃ existentials,
    t.base.predicate p = { g.base.predicate p with existentials }
  requested : ∀ p s e, g.base.Requested p s e → t.base.Requested p s e
  supports : ∀ h l, l ∈ g.solver.rules.supportsOf h → l ∈ t.solver.rules.supportsOf h

/-- Where the knowledge base is the same, supports may have been added. -/
theorem Asks.of_base (hbase : t.base = g.base)
    (hsupports : ∀ h l, l ∈ g.solver.rules.supportsOf h → l ∈ t.solver.rules.supportsOf h) :
    Asks g t := by
  refine ⟨by rw [hbase], by rw [hbase], by rw [hbase], by rw [hbase], fun p => ?_, fun p s e => ?_,
    hsupports⟩
  · rw [hbase]
    exact ⟨_, rfl⟩
  · rw [hbase]
    exact id

theorem Asks.refl (g : Grounding ρ) : Asks g g := Asks.of_base rfl fun _ _ => id

theorem Asks.trans (h : Asks g t) (h' : Asks t u) : Asks g u where
  taxonomy := h'.taxonomy.trans h.taxonomy
  entities := h'.entities.trans h.entities
  relations := h'.relations.trans h.relations
  size := h'.size.trans h.size
  predicate p := by
    obtain ⟨es, hp⟩ := h.predicate p
    obtain ⟨es', hp'⟩ := h'.predicate p
    exact ⟨es', hp'.trans (by rw [hp])⟩
  requested p s e he := h'.requested p s e (h.requested p s e he)
  supports k l hl := h'.supports k l (h.supports k l hl)

/-- To ask for existentials renames no predicate. -/
theorem Asks.name (h : Asks g t) (p : PredicateId) :
    (t.base.predicate p).name = (g.base.predicate p).name := by
  obtain ⟨es, hp⟩ := h.predicate p
  rw [hp]

/-- To ask for existentials changes no signature. -/
theorem Asks.signature (h : Asks g t) (p : PredicateId) :
    (t.base.predicate p).signature = (g.base.predicate p).signature := by
  obtain ⟨es, hp⟩ := h.predicate p
  rw [hp]

/-- To ask for existentials calls nothing. -/
theorem Asks.domain (h : Asks g t) (p : PredicateId) :
    (t.base.predicate p).domain = (g.base.predicate p).domain := by
  obtain ⟨es, hp⟩ := h.predicate p
  rw [hp]

/-- To ask for existentials changes nothing of what was called. -/
theorem Asks.atom? (h : Asks g t) (p : PredicateId) (args : Arguments) :
    t.base.atom? p args = g.base.atom? p args := by
  rw [KnowledgeBase.atom?, h.domain]
  rfl

/-! ### The steps of a request -/

/-- To open an existential is to fetch its atom, to declare that a head, and to remember it. -/
theorem after_openExistential (hg : g.solver.WellFormed) (p : PredicateId) (s : SortId) :
    let made := g.solver.proposition (g.base.someMember p s)
    After (openExistential p s) g
      (fun e t => e = made.1 ∧ t.base = g.base.request p s e ∧
        Solver.addHead e made.2 = .ok () t.solver) fun _ _ => False := by
  intro made
  refine after_bind.2 (after_get.2 (after_bind.2 (after_onSolver.2 (after_modifyGet.2 ?_))))
  refine after_bind.2 (after_onSolver.2 ((Solver.after_addHead made.1 made.2).eq_ok.mono
    (fun _ t ⟨hok, _⟩ => ⟨rfl, rfl, hok⟩) fun _ t ⟨_, l, hl, hge, _⟩ => ?_))
  -- the atom is known, so that nothing is refused
  rw [List.mem_singleton.1 hl] at hge
  exact Nat.not_le_of_lt (hg.proposition_lt _) hge

/-- The existential is remembered with the atom of its name, which is a head by then. No head has
other supports than before. -/
theorem after_openExistential_named (hg : g.solver.Backed) (p : PredicateId) (s : SortId)
    (kind : Proposition → Prop) :
    After (openExistential p s) g
      (fun e t => t.base = g.base.request p s e ∧ Solver.Spares kind g.solver t.solver ∧
        t.solver.atoms.named? (g.base.someMember p s) = some e ∧ e ∈ t.solver.rules.supports ∧
        ∀ f, t.solver.rules.supportsOf f = g.solver.rules.supportsOf f) fun _ _ => False := by
  refine (after_openExistential hg.wellFormed p s).imp_done fun e t ⟨he, hbase, hadd⟩ => ?_
  obtain ⟨hlt, hsolver⟩ := (Solver.after_addHead _ _).of_ok hadd
  -- fetching the name adds an atom, declaring the head adds no support
  have hmade : Solver.Spares kind g.solver
      (g.solver.freshAtom (some (g.base.someMember p s))).2 := Solver.spares_freshAtom hg _
  rw [show t.solver = _ from hsolver, he]
  refine ⟨by rw [hbase, he], hmade.trans (Solver.spares_addHead hmade.backed (he ▸ hlt)) hg,
    Solver.named?_proposition g.solver _, Rules.mem_supports_declareHead.2 (Or.inl rfl),
    fun f => ?_⟩
  rw [Rules.supportsOf_declareHead]
  exact congrArg (fun r => Rules.supportsOf r f) (Solver.rules_proposition g.solver _)

/-- The atom of an existential that was not requested has no supports, since its name was not asked
for. -/
theorem Exact.supportsOf_eq_nil (h : Exact [] opened g) (hp : p < g.base.predicates.size)
    (hs : s < g.base.taxonomy.size) (hnone : ∀ e, ¬ g.base.Requested p s e)
    (hnamed : g.solver.atoms.named? (g.base.someMember p s) = some e) :
    g.solver.rules.supportsOf e = [] := by
  refine List.eq_nil_iff_forall_not_mem.2 fun l hl => ?_
  obtain ⟨q, t, he⟩ := h.requested e l _ (h.backed.wellFormed.atoms.named _ _ hnamed)
    ⟨_, _, rfl⟩ hl
  obtain ⟨hname, rfl⟩ := h.orderly.toPlaced.someMember_injective hs (h.placed q t e he)
    (h.backed.wellFormed.atoms.injective hnamed (h.called q t e he))
  obtain rfl := h.orderly.names p q hp (lt_of_requested he) hname
  exact hnone e he

/-- One more existential is remembered, with the atom of its name. -/
theorem Typed.request (h : Typed g) (hp : p < g.base.predicates.size)
    (hs : s < g.base.taxonomy.size)
    (hnamed : g.solver.atoms.named? (g.base.someMember p s) = some e) :
    Typed { g with base := g.base.request p s e } where
  orderly := h.orderly.modifyPredicate p fun _ => ⟨rfl, rfl⟩
  backed := h.backed
  admitted q args a ha := by
    rw [admits_request]
    exact h.admitted q args a ((atom?_request g.base p s e q args).symm.trans ha)
  named q args a ha := by
    rw [name_request]
    exact h.named q args a ((atom?_request g.base p s e q args).symm.trans ha)
  placed q t f hf := by
    rcases (requested_request hp).1 hf with hf | ⟨-, rfl, -⟩
    · exact h.placed q t f hf
    · exact hs
  called q t f hf := by
    rw [someMember_request]
    -- what is requested was requested before, or is the new existential with the atom of its name
    rcases (requested_request hp).1 hf with hf | ⟨rfl, rfl, rfl⟩
    · exact h.called q t f hf
    · exact hnamed

/-- One more existential is requested. It has no supports yet. -/
theorem Exact.request (h : Exact [] opened g) (hp : p < g.base.predicates.size)
    (hs : s < g.base.taxonomy.size) (hnone : ∀ e, ¬ g.base.Requested p s e)
    (hnamed : g.solver.atoms.named? (g.base.someMember p s) = some e)
    (hhead : e ∈ g.solver.rules.supports) :
    Exact [] ((p, s) :: opened) { g with base := g.base.request p s e } := by
  have hatom := atom?_request g.base p s e
  have hrequested : ∀ {q t f}, (g.base.request p s e).Requested q t f ↔
      g.base.Requested q t f ∨ q = p ∧ t = s ∧ f = e := requested_request hp
  -- nothing supports the new existential yet, so it has no support too many
  have hunsupported := h.supportsOf_eq_nil hp hs hnone hnamed
  refine
    { h.typed.request hp hs hnamed with
      distinct := h.distinct
      entered := nofun
      heads := fun q t f hf => ?_
      requested := fun f l P hname hP hl => ?_
      sound := fun q t f hf l hl => ?_
      complete := fun q t f hf hopened x a hm hpending => ?_ }
  · rcases hrequested.1 hf with hf | ⟨-, -, rfl⟩
    · exact h.heads q t f hf
    · exact hhead
  · obtain ⟨q, t, hf⟩ := h.requested f l P hname hP hl
    exact ⟨q, t, hrequested.2 (Or.inl hf)⟩
  · rcases hrequested.1 hf with hf | ⟨-, -, rfl⟩
    · cases h.sound q t f hf l hl with
      | member hm hpending => exact .member ⟨(hatom _ _).trans hm.atom, hm.belongs⟩ hpending
      | subsort hb => exact .subsort ⟨hb.subsort, hrequested.2 (Or.inl hb.requested)⟩
    · have hl : l ∈ g.solver.rules.supportsOf f := hl
      rw [hunsupported] at hl
      cases hl
  · rcases hrequested.1 hf with hf | ⟨rfl, rfl, -⟩
    · refine (h.complete q t f hf (fun hmem => hopened (List.mem_cons_of_mem _ hmem)) x a
        ⟨(hatom _ _).symm.trans hm.atom, hm.belongs⟩ hpending).imp_right ?_
      exact fun ⟨u, k, hb, hx, hl⟩ =>
        ⟨u, k, ⟨hb.subsort, hrequested.2 (Or.inl hb.requested)⟩, hx, hl⟩
    · exact absurd List.mem_cons_self hopened

/-- What is opened is exact up to its own rules. -/
theorem Exact.after_openExistential (h : Exact [] opened g) (hp : p < g.base.predicates.size)
    (hs : s < g.base.taxonomy.size) (hnone : ∀ e, ¬ g.base.Requested p s e) :
    After (openExistential p s) g (fun e t => Exact [] ((p, s) :: opened) t ∧
      t.base.Requested p s e ∧ Asks g t) fun _ _ => False := by
  refine (after_openExistential_named h.backed p s Proposition.IsExistential).imp fun e t ht => ?_
  obtain ⟨hbase, hspares, hnamed, hhead, hsupports⟩ := ht
  obtain ⟨kb, u⟩ := t
  obtain rfl : kb = g.base.request p s e := hbase
  -- first the solver with its new head, which existentials do not notice, then the request itself
  have h' : Exact [] opened { g with solver := u } := h.spares hspares
  refine ⟨h'.request hp hs hnone hnamed hhead,
    (requested_request hp).2 (Or.inr ⟨rfl, rfl, rfl⟩), ?_⟩
  exact
    { taxonomy := rfl
      entities := rfl
      relations := rfl
      size := Array.size_modify
      predicate := fun q => predicate_request g.base p q s e
      requested := fun q t f hf => (requested_request hp).2 (Or.inl hf)
      supports := fun f l hl => (hsupports f).symm ▸ hl }

/-- A rule is asserted that supports an existential. -/
theorem Exact.after_support (h : Exact [] opened g) (he : g.base.Requested p s e)
    (hl : Supports [] g.base p s l) :
    After (assert (.rule e [l])) g (fun _ t => Exact [] opened t ∧ t.base = g.base ∧ Asks g t ∧
      l ∈ t.solver.rules.supportsOf e) fun _ _ => False := by
  -- a rule is refused for unknown atoms only, and these are known
  have hknown : l.atom < g.solver.atoms.count := by
    cases hl with
    | member hm _ => exact h.atom_lt hm.atom
    | subsort hb => exact h.requested_lt hb.requested
  refine after_onSolver.2 (after_bind.2 ((Solver.after_addRule_known h.backed
    (h.requested_lt he) hknown).imp fun _ u hu => ?_))
  refine ⟨h.supported hu (List.Sublist.refl _) ?_ nofun, rfl, Asks.of_base rfl fun f m hm => ?_, ?_⟩
  · rintro f m ⟨rfl, rfl⟩
    exact Or.inr ⟨p, s, he, hl⟩
  · exact (hu.mem_supportsOf f m).2 (Or.inl hm)
  · exact (hu.mem_supportsOf e l).2 (Or.inr ⟨rfl, rfl⟩)

/-- An existential has all its rules when the existentials over the subsorts and the calls on the
entities bound to the sort are among its supports. -/
theorem Exact.close (h : Exact [] ((p, s) :: opened) g) (he : g.base.Requested p s e)
    (hbelow : ∀ c ∈ g.base.taxonomy.subsorts s, ∃ f, g.base.Requested p c f ∧
      Literal.pos f ∈ g.solver.rules.supportsOf e)
    (hbound : ∀ x a, g.base.atom? p (.one x) = some a → g.base.sortOf? x = some s →
      Literal.pos a ∈ g.solver.rules.supportsOf e) : Exact [] opened g :=
  { h with
    complete := by
      intro q t f hf hopened x a hm _
      by_cases hself : (q, t) = (p, s)
      · obtain ⟨rfl, rfl⟩ := Prod.mk.inj hself
        obtain rfl : f = e := Option.some.inj ((h.called q t f hf).symm.trans (h.called q t e he))
        -- the entity is bound to the sort itself, or belongs to a subsort
        rcases h.orderly.toPlaced.belongs_iff.1 hm.belongs with hx | ⟨c, hc, hx⟩
        · exact Or.inl (hbound x a hm.atom hx)
        · obtain ⟨k, hk, hl⟩ := hbelow c hc
          exact Or.inr ⟨c, k, ⟨hc, hk⟩, hx, hl⟩
      · exact h.complete q t f hf (fun hmem => (List.mem_cons.1 hmem).elim hself hopened) x a hm
          List.not_mem_nil }

/-! ### Whole requests -/

/-- What is kept besides while existentials are requested, with one law for each thing that a
request does. -/
structure Inquiry (ρ : Type) where
  Holds : List (PredicateId × SortId) → Grounding ρ → Prop
  /-- The existentials that may be requested. -/
  Wanted : PredicateId → SortId → Prop
  opens : ∀ {opened g p s}, Exact [] opened g → Holds opened g → p < g.base.predicates.size →
    s < g.base.taxonomy.size → (g.base.predicate p).signature.arity = 1 → Wanted p s →
    (∀ e, ¬ g.base.Requested p s e) →
    After (openExistential p s) g (fun _ t => Holds ((p, s) :: opened) t) fun _ _ => True
  supports : ∀ {opened g p s e l}, Exact [] opened g → Holds opened g → g.base.Requested p s e →
    Supports [] g.base p s l →
    After (assert (.rule e [l])) g (fun _ t => Holds opened t) fun _ _ => True
  closes : ∀ {opened g p s}, Holds ((p, s) :: opened) g →
    (∀ c ∈ g.base.taxonomy.subsorts s, ∃ e, g.base.Requested p c e) → Holds opened g
  wanted_subsort : ∀ {opened g p s c}, Exact [] opened g → Holds opened g → Wanted p s →
    c ∈ g.base.taxonomy.subsorts s → Wanted p c

namespace Inquiry

variable {u : Inquiry ρ}

/-- The existentials are exact, up to those that have been opened, and the rest is kept. -/
structure Ready (u : Inquiry ρ) (opened : List (PredicateId × SortId)) (g : Grounding ρ) :
    Prop where
  exact : Exact [] opened g
  holds : u.Holds opened g

/-- The existential may be requested. -/
structure Allows (u : Inquiry ρ) (kb : KnowledgeBase) (p : PredicateId) (s : SortId) : Prop where
  predicate : p < kb.predicates.size
  sort : s < kb.taxonomy.size
  unary : (kb.predicate p).signature.arity = 1
  wanted : u.Wanted p s

/-- What may be requested may be requested later too. -/
theorem Allows.asks (h : u.Allows g.base p s) (hasks : Asks g t) : u.Allows t.base p s :=
  ⟨hasks.size ▸ h.predicate, hasks.taxonomy ▸ h.sort, by rw [hasks.signature, h.unary], h.wanted⟩

/-- The action gives the existential, and asks for nothing that is not kept. -/
def Answers (u : Inquiry ρ) (opened : List (PredicateId × SortId)) (p : PredicateId) (s : SortId)
    (g : Grounding ρ) (act : EStateM Error (Grounding ρ) Atom) : Prop :=
  After act g (fun e t => u.Ready opened t ∧ t.base.Requested p s e ∧ Asks g t) fun _ _ => False

/-- An existential that is opened is remembered, and counts as open until it has its supports. -/
theorem after_open (h : u.Ready opened g) (hallows : u.Allows g.base p s)
    (hnone : ∀ e, ¬ g.base.Requested p s e) :
    After (openExistential p s) g (fun e t => u.Ready ((p, s) :: opened) t ∧
      t.base.Requested p s e ∧ Asks g t) fun _ _ => False := by
  have hexact := h.exact.after_openExistential hallows.predicate hallows.sort hnone
  have hholds := u.opens h.exact h.holds hallows.predicate hallows.sort hallows.unary
    hallows.wanted hnone
  exact (hexact.and hholds).mono (fun e t ⟨ht, hu⟩ => ⟨⟨ht.1, hu⟩, ht.2⟩) fun _ _ he => he.1

/-- A support that is asserted for an existential is one of its supports from then on. -/
theorem after_support (h : u.Ready opened g) (he : g.base.Requested p s e)
    (hl : Supports [] g.base p s l) :
    After (assert (.rule e [l])) g (fun _ t => u.Ready opened t ∧ t.base = g.base ∧ Asks g t ∧
      l ∈ t.solver.rules.supportsOf e) fun _ _ => False :=
  ((h.exact.after_support he hl).and (u.supports h.exact h.holds he hl)).mono
    (fun _ _ ⟨ht, hu⟩ => ⟨⟨ht.1, hu⟩, ht.2⟩) fun _ _ he => he.1

/-- The calls on entities bound to the sort itself are made supports, in the order of the calls. -/
theorem after_instances (h : u.Ready opened g) (he : g.base.Requested p s e)
    (hunary : (g.base.predicate p).signature.arity = 1) :
    After (((g.base.predicate p).domain.toList.filter fun d =>
        g.base.sortOf? d.1.subject == some s).forM fun d => assert (.rule e [Literal.pos d.2])) g
      (fun _ t => u.Ready opened t ∧ t.base = g.base ∧ Asks g t ∧ ∀ x a,
        g.base.atom? p (.one x) = some a → g.base.sortOf? x = some s →
          Literal.pos a ∈ t.solver.rules.supportsOf e) fun _ _ => False := by
  refine (after_forM (I := fun ds t => u.Ready opened t ∧ t.base = g.base ∧ Asks g t ∧
    ∀ d ∈ ds, Literal.pos d.2 ∈ t.solver.rules.supportsOf e)
    (fun ds d rest hsplit t ht => ?_) ⟨h, rfl, Asks.refl g, nofun⟩).imp_done
      fun _ t ⟨ht, hbase, hasks, hds⟩ => ⟨ht, hbase, hasks, fun x a ha hx => ?_⟩
  · obtain ⟨ht, hbase, hasks, hds⟩ := ht
    obtain ⟨args, a⟩ := d
    have hd : (args, a) ∈ (g.base.predicate p).domain.toList.filter fun d =>
        g.base.sortOf? d.1.subject == some s := by
      rw [hsplit]
      exact List.mem_append_right _ List.mem_cons_self
    obtain ⟨hmem, hsort⟩ := List.mem_filter.1 hd
    have ha : g.base.atom? p args = some a := Domain.get?_eq_some_iff.2 hmem
    -- a unary predicate is called on one entity
    have harity := (fits_iff.1 (h.exact.admitted p args a ha)).1
    cases args with
    | two left right => cases hunary.symm.trans harity
    | one x =>
      have hmember : t.base.Member p s x a := by
        rw [hbase]
        exact ⟨ha, h.exact.orderly.toPlaced.belongs_iff.2 (Or.inl (beq_iff_eq.1 hsort))⟩
      refine (after_support ht (hasks.requested p s e he) (.member hmember nofun)).imp_done
        fun _ v ⟨hv, hbase', hasks', hl⟩ => ⟨hv, hbase'.trans hbase, hasks.trans hasks', ?_⟩
      intro d hd
      rcases List.mem_append.1 hd with hd | hd
      · exact hasks'.supports e _ (hds d hd)
      · rw [List.mem_singleton.1 hd]
        exact hl
  · refine hds (.one x, a) (List.mem_filter.2 ⟨Domain.get?_eq_some_iff.1 ha, ?_⟩)
    exact beq_iff_eq.2 hx

/-- An existential that is new is opened, supported and closed. One that was requested before is
found. -/
theorem answers_existentialFrom {descend : Atom → EStateM Error (Grounding ρ) Unit}
    (h : u.Ready opened g) (hallows : u.Allows g.base p s)
    (hdescend : ∀ e t, u.Ready ((p, s) :: opened) t → t.base.Requested p s e → Asks g t →
      After (descend e) t
        (fun _ v => u.Ready ((p, s) :: opened) v ∧ Asks t v ∧ ∀ c ∈ t.base.taxonomy.subsorts s,
          ∃ f, v.base.Requested p c f ∧ Literal.pos f ∈ v.solver.rules.supportsOf e)
        fun _ _ => False) :
    u.Answers opened p s g (existentialFrom descend p s) := by
  refine after_bind.2 (after_get.2 ?_)
  dsimp only
  rw [if_neg (not_not_intro hallows.unary)]
  -- an existential that is remembered has been closed before
  cases hlookup : (g.base.predicate p).existentials.lookup s with
  | some e =>
    obtain ⟨before, rest, hsplit, -⟩ := List.lookup_eq_some_iff.1 hlookup
    exact after_pure.2 ⟨h, requested_of_split hsplit, Asks.refl g⟩
  | none =>
    have hnone : ∀ e, ¬ g.base.Requested p s e := fun e he => by
      have hne := List.lookup_eq_none_iff.1 hlookup (s, e) he
      rw [bne_self_eq_false] at hne
      cases hne
    refine after_bind.2 ((after_open h hallows hnone).imp fun e t ⟨ht, he, hasks⟩ => ?_)
    have hallows' := hallows.asks hasks
    refine after_bind.2 ((hdescend e t ht he hasks).imp fun _ v ⟨hv, hasks', hbelow⟩ => ?_)
    have hev := hasks'.requested p s e he
    -- the subsorts are done with, and now the entities of the sort itself are
    refine after_bind.2 (after_get.2 (after_bind.2 ((after_instances hv hev
      (hallows'.asks hasks').unary).imp fun _ w ⟨hw, hbase, hasks'', hbound⟩ => ?_)))
    have hbelow' : ∀ c ∈ w.base.taxonomy.subsorts s, ∃ f, w.base.Requested p c f ∧
        Literal.pos f ∈ w.solver.rules.supportsOf e := by
      rw [hbase, hasks'.taxonomy]
      intro c hc
      obtain ⟨f, hf, hl⟩ := hbelow c hc
      exact ⟨f, hf, hasks''.supports e _ hl⟩
    refine after_pure.2 ⟨⟨hw.exact.close (hasks''.requested p s e hev) hbelow' ?_,
      u.closes hw.holds fun c hc => (hbelow' c hc).imp fun _ hf => hf.1⟩,
      hasks''.requested p s e hev, (hasks.trans hasks').trans hasks''⟩
    rw [hbase]
    exact hbound

/-- **A request is answered.** Subsorts have larger numbers, so that the depth suffices if it makes
up for the number of the sort. -/
theorem answers_existentialWithin {s : Nat} (depth : Nat) (h : u.Ready opened g)
    (hallows : u.Allows g.base p s) (hdepth : g.base.taxonomy.size ≤ s + depth) :
    u.Answers opened p s g (existentialWithin depth p s) := by
  induction depth generalizing g opened s with
  | zero => exact absurd hallows.sort (Nat.not_lt_of_le hdepth)
  | succ depth ih =>
    refine answers_existentialFrom h hallows fun e t ht he hasks => after_bind.2 (after_get.2 ?_)
    have hallowst := hallows.asks hasks
    -- the subsorts that have been gone through support the existential
    refine after_forM (I := fun cs v => u.Ready ((p, s) :: opened) v ∧ Asks t v ∧ ∀ c ∈ cs,
      ∃ f, v.base.Requested p c f ∧ Literal.pos f ∈ v.solver.rules.supportsOf e)
      (fun cs c rest hsplit v ⟨hv, hasks', hcs⟩ => ?_) ⟨ht, Asks.refl t, nofun⟩
    have hc : c ∈ v.base.taxonomy.subsorts s := by
      rw [hasks'.taxonomy, hsplit]
      exact List.mem_append_right _ List.mem_cons_self
    have hparent := (hv.exact.orderly.tree.mem_subsorts s c).1 hc
    have hlt := hv.exact.orderly.tree.descending c s hparent
    have hallowsc : u.Allows v.base p c :=
      { hallowst.asks hasks' with
        sort := Taxonomy.size_le_of_parent? hparent
        wanted := u.wanted_subsort hv.exact hv.holds hallows.wanted hc }
    -- a subsort has a larger number, so it needs less depth
    have hsize : v.base.taxonomy.size ≤ c + depth := by
      rw [hasks'.taxonomy, hasks.taxonomy]
      omega
    refine after_bind.2 ((ih hv hallowsc hsize).imp fun f w ⟨hw, hf, hasks''⟩ => ?_)
    have hew := hasks''.requested p s e (hasks'.requested p s e he)
    have hbelow : w.base.Below p s c f := ⟨hasks''.taxonomy ▸ hc, hf⟩
    refine (after_support hw hew (.subsort hbelow)).imp_done
      fun _ z ⟨hz, hbase, hasksz, hl⟩ => ?_
    have hasksvz := hasks''.trans hasksz
    refine ⟨hz, hasks'.trans hasksvz, fun d hd => ?_⟩
    rcases List.mem_append.1 hd with hd | hd
    · obtain ⟨k, hk, hlk⟩ := hcs d hd
      exact ⟨k, hasksvz.requested p d k hk, hasksvz.supports e _ hlk⟩
    · rw [List.mem_singleton.1 hd]
      exact ⟨f, hasksz.requested p c f hf, hl⟩

/-- A request for an existential of a unary predicate is answered. -/
theorem answers_existential (h : u.Ready opened g) (hallows : u.Allows g.base p s) :
    u.Answers opened p s g (existential p s) :=
  after_bind.2 (after_get.2 (answers_existentialWithin _ h hallows (Nat.le_add_left _ _)))

/-- Nothing is kept besides. -/
def plain (ρ : Type) : Inquiry ρ where
  Holds _ _ := True
  Wanted _ _ := True
  opens h _ hp hs _ _ hnone := (h.after_openExistential hp hs hnone).mono
    (fun _ _ _ => trivial) fun _ _ _ => trivial
  supports h _ he hl := (h.after_support he hl).mono (fun _ _ _ => trivial) fun _ _ _ => trivial
  closes _ _ := trivial
  wanted_subsort _ _ _ _ := trivial

end Inquiry

/-- An existential of a predicate that is not unary is refused, and nothing is changed. -/
theorem after_existential_of_arity_ne (hp : (g.base.predicate p).signature.arity ≠ 1)
    (s : SortId) : After (existential p s) g (fun _ _ => False) fun _ t => t = g := by
  have hfrom : ∀ descend, After (existentialFrom (ρ := ρ) descend p s) g (fun _ _ => False)
      fun _ t => t = g := fun descend => by
    refine after_bind.2 (after_get.2 ?_)
    dsimp only
    rw [if_pos hp]
    exact after_throw.2 rfl
  refine after_bind.2 (after_get.2 ?_)
  cases g.base.taxonomy.size with
  | zero => exact hfrom _
  | succ depth => exact hfrom _

/-- A request keeps existentials exact, and one of a unary predicate is answered. -/
theorem Exact.after_existential (h : Exact [] [] g) (hp : p < g.base.predicates.size)
    (hs : s < g.base.taxonomy.size) :
    After (existential p s) g
      (fun _ t => Exact [] [] t ∧ Asks g t ∧ ∃ e, t.base.Requested p s e)
      fun _ t => t = g ∧ (g.base.predicate p).signature.arity ≠ 1 := by
  by_cases hunary : (g.base.predicate p).signature.arity = 1
  · have hanswers := Inquiry.answers_existential (u := Inquiry.plain ρ) ⟨h, trivial⟩
      ⟨hp, hs, hunary, trivial⟩
    exact After.imp hanswers fun e t ht => ⟨ht.1.exact, ht.2.2, e, ht.2.1⟩
  · exact (after_existential_of_arity_ne hunary s).imp_refused fun _ _ ht => ⟨ht, hunary⟩

/-- Whether it was answered or not, an existential of a unary predicate is there afterwards. -/
theorem Exact.existential (h : Exact [] [] g) (hp : p < g.base.predicates.size)
    (hs : s < g.base.taxonomy.size) :
    Exact [] [] (stateAfter (existential p s) g) ∧ Asks g (stateAfter (existential p s) g) ∧
      ((g.base.predicate p).signature.arity = 1 →
        ∃ e, (stateAfter (existential p s) g).base.Requested p s e) := by
  refine After.stateAfter (P := fun t => Exact [] [] t ∧ Asks g t ∧
    ((g.base.predicate p).signature.arity = 1 → ∃ e, t.base.Requested p s e))
    ((h.after_existential hp hs).mono (fun _ t ht => ⟨ht.1, ht.2.1, fun _ => ht.2.2⟩) ?_)
  rintro _ t ⟨rfl, hne⟩
  exact ⟨h, Asks.refl t, fun hunary => absurd hunary hne⟩

/-! ### Histories -/

/-- The knowledge base and the solver were new, and then things were declared, predicates were
called and existentials were requested, with or without success. Whatever else was done to the
solver, no rule was asserted with an existential as its head. The existentials that were requested
are listed, the latest first. -/
inductive History [RandomSource ρ] : List (PredicateId × SortId) → Grounding ρ → Prop where
  | start (root : String) (config : Config) (source : ρ) :
    History [] ⟨ofRoot root, Solver.ofConfig config source⟩
  | declaration {asked : List (PredicateId × SortId)} {g : Grounding ρ} (hg : History asked g)
    {d : Declaration} (hd : d.Valid g.base) : History asked { g with base := d.perform g.base }
  | call {asked : List (PredicateId × SortId)} {g : Grounding ρ} (hg : History asked g)
    {p : PredicateId} (hp : p < g.base.predicates.size) (args : Arguments) :
    History asked (stateAfter (call p args) g)
  | existential {asked : List (PredicateId × SortId)} {g : Grounding ρ} (hg : History asked g)
    {p : PredicateId} {s : SortId} (hp : p < g.base.predicates.size)
    (hs : s < g.base.taxonomy.size) :
    History ((p, s) :: asked) (stateAfter (existential p s) g)
  | solver {asked : List (PredicateId × SortId)} {g : Grounding ρ} (hg : History asked g)
    {m : Solver.Move} (hm : m.Spares Proposition.IsExistential g.solver) :
    History asked { g with solver := m.perform g.solver }

variable [RandomSource ρ] {asked : List (PredicateId × SortId)}

/-- Several declarations in a row are part of the history. -/
theorem History.declarations (h : History asked g) {ds : List Declaration}
    (hds : Declaration.ValidAll ds g.base) :
    History asked ⟨ds.foldl (fun kb d => d.perform kb) g.base, g.solver⟩ := by
  induction ds generalizing g with
  | nil => exact h
  | cons d ds ih => exact ih (h.declaration hds.1) hds.2

/-- In every history the existentials are exact, and none is open. -/
theorem History.exact (h : History asked g) : Exact [] [] g := by
  induction h with
  | start root config source =>
    exact exact_start (orderly_ofRoot root) (fun _ => rfl) config source
  | declaration hg hd ih =>
    obtain ⟨hdevelops, horder⟩ := Declaration.develops _ hd ih.orderly
    exact ih.develops hdevelops horder
  | call hg hp args ih => exact (ih.after_call hp args).stateAfter.1
  | existential hg hp hs ih => exact (ih.existential hp hs).1
  | solver hg hm ih => exact ih.spares (Solver.spares_perform ih.backed hm)

/-- Existentials that were requested of unary predicates are remembered. -/
theorem History.requested (h : History asked g) : ∀ c ∈ asked, c.1 < g.base.predicates.size ∧
    ((g.base.predicate c.1).signature.arity = 1 → ∃ e, g.base.Requested c.1 c.2 e) := by
  induction h with
  | start root config source => exact nofun
  | @declaration asked g hg d hd ih =>
    have hdevelops := (Declaration.develops d hd hg.exact.orderly).1
    intro c hc
    -- what was requested is remembered, whatever comes later
    obtain ⟨hlt, hremembered⟩ := ih c hc
    refine ⟨Nat.lt_of_lt_of_le hlt hdevelops.size, fun hunary => ?_⟩
    rw [hdevelops.signature c.1 hlt] at hunary
    exact (hremembered hunary).imp fun e he => hdevelops.requested.2 he
  | call hg hp args ih =>
    have hsame := (hg.exact.after_call hp args).stateAfter.2
    intro c hc
    obtain ⟨hlt, hremembered⟩ := ih c hc
    refine ⟨hsame.size ▸ hlt, fun hunary => ?_⟩
    rw [hsame.signature] at hunary
    exact (hremembered hunary).imp fun e he => hsame.requested.2 he
  | @existential asked g hg p s hp hs ih =>
    obtain ⟨-, hasks, hanswered⟩ := hg.exact.existential hp hs
    refine List.forall_mem_cons.2 ⟨⟨hasks.size ▸ hp, fun hunary => ?_⟩, fun c hc => ?_⟩
    · exact hanswered ((hasks.signature p).symm ▸ hunary)
    · obtain ⟨hlt, hremembered⟩ := ih c hc
      refine ⟨hasks.size ▸ hlt, fun hunary => ?_⟩
      rw [hasks.signature] at hunary
      exact (hremembered hunary).imp fun e he => hasks.requested _ _ e he
  | solver hg hm ih => exact ih

/-- **Existentials are exact in every history.** In every model of the asserted clauses and the
completion clauses, the existential of a unary predicate over a sort is true exactly when the
predicate is true of some entity that it has been called on and that is of the sort. -/
theorem History.existential_exact (h : History asked g) (hasked : (p, s) ∈ asked)
    (hunary : (g.base.predicate p).signature.arity = 1) :
    ∃ e, g.solver.atoms.named? (g.base.someMember p s) = some e ∧
      ∀ i : Interpretation, i.IsModel g.solver.formula → (i e = true ↔
        ∃ x a, g.base.Called p (.one x) ∧ g.base.isA x s = .ok true ∧
          g.solver.atoms.named? (.ofEntities (g.base.predicate p).name [x]) = some a ∧
            i a = true) := by
  -- what was asked for is there, although some requests and calls in between may have failed
  obtain ⟨e, he⟩ := (h.requested _ hasked).2 hunary
  refine ⟨e, h.exact.called p s e he, fun i hi => (h.exact.isModel_iff hi he).trans ?_⟩
  constructor
  · rintro ⟨x, a, hm, htrue⟩
    exact ⟨x, a, ⟨a, hm.atom⟩, isA_eq_ok_true.2 hm.belongs, h.exact.named p _ a hm.atom, htrue⟩
  · rintro ⟨x, a, ⟨b, hb⟩, hx, ha, htrue⟩
    -- the atom in the domain is the one that the solver has for the name
    obtain rfl : b = a := Option.some.inj ((h.exact.named p _ b hb).symm.trans ha)
    exact ⟨x, b, ⟨hb, isA_eq_ok_true.1 hx⟩, htrue⟩

/-- Tom sleeps before it is asked whether some animal does, and Rex afterwards, who is a dog: dogs
are animals, but there were none when it was asked. To sleep is no relation between two. -/
theorem existential_exact_sleeps :
    let g₀ : Grounding Pcg := ⟨[Declaration.subsort "animal" 0, .predicate "sleeps" (.unary 0),
      .entity "Tom" 1].foldl (fun kb d => d.perform kb) (ofRoot "thing"),
      Solver.ofConfig {} (Pcg.ofSeed 0)⟩
    let g₁ := stateAfter (existential 0 1) (stateAfter (call 0 (.one "Tom")) g₀)
    let g₂ : Grounding Pcg := ⟨[Declaration.subsort "dog" 1, .entity "Rex" 2].foldl
      (fun kb d => d.perform kb) g₁.base, g₁.solver⟩
    let g := stateAfter (call 0 (.one "Rex")) (stateAfter (call 0 (.two "Rex" "Tom")) g₂)
    History [(0, 1)] g ∧ (g.base.predicate 0).signature.arity = 1 ∧
      g.solver.formula = [[Literal.neg 1, Literal.pos 2], [Literal.pos 2, Literal.neg 3],
        [Literal.neg 2, Literal.pos 1, Literal.pos 3]] ∧
      ∃ e, g.solver.atoms.named? (g.base.someMember 0 1) = some e ∧
        ∀ i : Interpretation, i.IsModel g.solver.formula → (i e = true ↔
          ∃ x a, g.base.Called 0 (.one x) ∧ g.base.isA x 1 = .ok true ∧
            g.solver.atoms.named? (.ofEntities (g.base.predicate 0).name [x]) = some a ∧
              i a = true) := by
  intro g₀ g₁ g₂ g
  have hstart : History [] _ := History.start "thing" {} (Pcg.ofSeed 0)
  have h₀ : History [] g₀ := hstart.declarations (by decide +kernel)
  have h₁ : History [(0, 1)] g₁ :=
    (h₀.call (p := 0) (by decide +kernel) _).existential (by decide +kernel) (by decide +kernel)
  have h₂ : History [(0, 1)] g₂ := h₁.declarations (by decide +kernel)
  have h : History [(0, 1)] g :=
    (h₂.call (p := 0) (by decide +kernel) _).call (by decide +kernel) _
  have hunary : (g.base.predicate 0).signature.arity = 1 := by decide +kernel
  exact ⟨h, hunary, by decide +kernel, h.existential_exact List.mem_cons_self hunary⟩

end Grounding

end Storyworld
