import Storyworld.Proofs.Knowledge.Upkeep
import Storyworld.Proofs.Solver.Supports

namespace Storyworld

/-!
# What predicates remember is well typed

A predicate remembers the arguments it was called on and its existentials, each with an atom. Four
structures have a part in it, and change at different moments: the domain, the register of entities,
the taxonomy, and the names of the solver. `Typed` says how they go together: arguments are admitted
by the predicate, and each atom is the one that the solver has for the name of the call or the
existential.

It holds between any two steps, since nothing of it is ever put off. Arguments are put into a domain
after they were checked and with an atom that was just fetched; what is admitted stays admitted; and
a call that is refused takes out its own arguments only, which leaves what was there when it began
(`Keeps`, `Typed.after_call`).
-/

namespace KnowledgeBase

open Action

variable {kb kb' : KnowledgeBase} {p q : PredicateId} {s t : SortId} {e a : Nat}

/-- The existential of the predicate over the sort has been requested, and has the atom. -/
def Requested (kb : KnowledgeBase) (p : PredicateId) (s : SortId) (e : Atom) : Prop :=
  (s, e) ∈ (kb.predicate p).existentials

/-- The proposition that says the predicate holds of some member of the sort. -/
def someMember (kb : KnowledgeBase) (p : PredicateId) (s : SortId) : Proposition :=
  .ofSort (kb.predicate p).name (kb.taxonomy.name s)

/-- What it says tells which predicate and which sort it speaks of. -/
theorem Placed.someMember_injective (hkb : kb.Placed) (hs : s < kb.taxonomy.size)
    (ht : t < kb.taxonomy.size) (h : kb.someMember p s = kb.someMember q t) :
    (kb.predicate p).name = (kb.predicate q).name ∧ s = t := by
  obtain ⟨hname, hargs⟩ := Call.mk.inj (Proposition.call.inj h)
  exact ⟨hname, hkb.tree.names s t hs ht (Term.sort.inj (List.cons.inj hargs).1)⟩

/-- Only predicates there are have existentials. -/
theorem lt_of_requested (h : kb.Requested p s e) : p < kb.predicates.size := by
  rcases Nat.lt_or_ge p kb.predicates.size with hlt | hge
  · exact hlt
  · rw [Requested, predicate_of_ge hge] at h
    cases h

/-- What has not been used has not been called, and has no existentials. -/
theorem not_called_of_uses {args : Arguments} (h : kb.uses p = ({}, [])) :
    kb.atom? p args ≠ some a := by
  have hdomain : (kb.predicate p).domain = default := congrArg Prod.fst h
  rw [atom?, hdomain, Domain.get?_default]
  exact (Option.some_ne_none a).symm

theorem not_requested_of_uses (h : kb.uses p = ({}, [])) : ¬ kb.Requested p s e := by
  have hexistentials : (kb.predicate p).existentials = [] := congrArg Prod.snd h
  rw [Requested, hexistentials]
  exact List.not_mem_nil

/-- A development requests no existential. -/
theorem Develops.requested (h : Develops kb kb') : kb'.Requested p s e ↔ kb.Requested p s e := by
  have hsame : (kb'.predicate p).existentials = (kb.predicate p).existentials :=
    congrArg Prod.snd (h.uses p)
  rw [Requested, hsame]
  rfl

/-- Predicates and sorts have the same numbers in both, and the same predicate says that an entity
exists. -/
structure SameNumbers (kb kb' : KnowledgeBase) : Prop where
  size : kb'.predicates.size = kb.predicates.size
  sorts : kb'.taxonomy.size = kb.taxonomy.size
  existence : kb'.existence = kb.existence

theorem SameNumbers.refl (kb : KnowledgeBase) : SameNumbers kb kb := ⟨rfl, rfl, rfl⟩

theorem SameNumbers.trans {kb'' : KnowledgeBase} (h : SameNumbers kb kb')
    (h' : SameNumbers kb' kb'') : SameNumbers kb kb'' :=
  ⟨h'.size.trans h.size, h'.sorts.trans h.sorts, h'.existence.trans h.existence⟩

theorem Enrolls.sameNumbers (h : Enrolls kb kb') : SameNumbers kb kb' :=
  ⟨congrArg Array.size h.same.predicates, h.sorts, h.same.existence⟩

theorem requested_enter {args : Arguments} :
    (kb.enter p args a).Requested q t e ↔ kb.Requested q t e := by
  rw [Requested, (predicate_enter kb p q args a).2.2]
  rfl

theorem requested_withdraw {args : Arguments} :
    (kb.withdraw p args).Requested q t e ↔ kb.Requested q t e := by
  rw [Requested, (predicate_withdraw kb p q args).2.2]
  rfl

/-- Arguments that are admitted pass the check, which registers nothing then. -/
theorem checkArguments_of_admits {args : Arguments} (h : kb.admits p args = true) :
    checkArguments p args kb = .ok () kb := by
  obtain ⟨harity, hsorts⟩ := fits_iff.1 h
  have hcheck : After (checkArguments p args) kb (fun _ kb' => kb' = kb) fun _ _ => False := by
    refine after_bind.2 (after_get.2 ?_)
    dsimp only
    rw [if_neg (Decidable.not_not.2 harity)]
    refine after_forM (I := fun _ kb' => kb' = kb) (fun xs x ys hzip t ht => ?_) rfl
    subst ht
    have hbelongs : t.belongs x.2 x.1 = true := hsorts x (by rw [hzip]; simp)
    obtain ⟨s, hs⟩ := Option.isSome_iff_exists.1 (isSome_of_belongs hbelongs)
    -- the entity is registered, so that no sort is given to it
    have hensure : t.ensureSort x.2 x.1 = (s, t) := by rw [ensureSort, hs]
    refine after_bind.2 (after_modifyGet.2 (after_bind.2 (after_get.2 ?_)))
    rw [hensure, hbelongs]
    exact after_pure.2 rfl
  obtain ⟨_, _, hok, rfl⟩ := hcheck.exists_ok
  exact hok

end KnowledgeBase

namespace Grounding

open Action KnowledgeBase

variable {ρ : Type} {g : Grounding ρ} {pending : Pending} {p q : Nat} {s t : Nat}
  {args args' : Arguments} {a e : Nat}

/-! ### The invariant -/

/-- Arguments in the domain of a predicate are admitted by it, and the atoms of calls and of
existentials are those that the solver has for their names. -/
structure Typed (g : Grounding ρ) : Prop where
  orderly : g.base.Orderly
  backed : g.solver.Backed
  admitted : ∀ p args a, g.base.atom? p args = some a → g.base.admits p args = true
  named : ∀ p args a, g.base.atom? p args = some a →
    g.solver.atoms.named? (.call ⟨(g.base.predicate p).name, args.terms⟩) = some a
  placed : ∀ p s e, g.base.Requested p s e → s < g.base.taxonomy.size
  called : ∀ p s e, g.base.Requested p s e →
    g.solver.atoms.named? (g.base.someMember p s) = some e

/-- At the start nothing has been called or requested. -/
theorem typed_start {kb : KnowledgeBase} (horder : kb.Orderly) (huses : ∀ p, kb.uses p = ({}, []))
    {u : Solver ρ} (hu : u.Backed) : Typed ⟨kb, u⟩ where
  orderly := horder
  backed := hu
  admitted p _ _ ha := absurd ha (not_called_of_uses (huses p))
  named p _ _ ha := absurd ha (not_called_of_uses (huses p))
  placed p _ _ he := absurd he (not_requested_of_uses (huses p))
  called p _ _ he := absurd he (not_requested_of_uses (huses p))

/-- Arguments that a predicate remembers are registered. -/
theorem Typed.registered (h : Typed g) (ha : g.base.atom? p args = some a) :
    g.base.Registered args := registered_of_admits (h.admitted p args a ha)

/-! ### Different things have different atoms -/

/-- Different calls have different atoms. -/
theorem Typed.atom_injective (h : Typed g) (hp : g.base.atom? p args = some a)
    (hq : g.base.atom? q args' = some a) : p = q ∧ args = args' := by
  have hsame := h.backed.wellFormed.atoms.injective (h.named p args a hp) (h.named q args' a hq)
  obtain ⟨hname, hterms⟩ := Call.mk.inj (Proposition.call.inj hsame)
  refine ⟨h.orderly.names p q (lt_of_atom? hp) (lt_of_atom? hq) hname, ?_⟩
  exact Arguments.entities_injective (List.map_inj_right (fun _ _ => Term.entity.inj) |>.1 hterms)

/-- The name of an existential tells which one it is. -/
theorem Typed.eq_of_requested (h : Typed g) (hp : g.base.Requested p s e)
    (hq : g.base.Requested q t e) : p = q ∧ s = t := by
  have hsame := h.backed.wellFormed.atoms.injective (h.called p s e hp) (h.called q t e hq)
  obtain ⟨hname, rfl⟩ := h.orderly.toPlaced.someMember_injective (h.placed p s e hp)
    (h.placed q t e hq) hsame
  exact ⟨h.orderly.names p q (lt_of_requested hp) (lt_of_requested hq) hname, rfl⟩

/-- The atom of a call is not that of an existential. -/
theorem Typed.not_requested (h : Typed g) (ha : g.base.atom? p args = some a) :
    ¬ g.base.Requested q s a := by
  intro he
  have hsame := h.backed.wellFormed.atoms.injective (h.called q s a he) (h.named p args a ha)
  have hterms : [Term.sort (g.base.taxonomy.name s)] = args.terms :=
    (Call.mk.inj (Proposition.call.inj hsame)).2
  -- one is about a sort, and the other about entities
  cases args <;> cases hterms

/-! ### What keeps it -/

/-- A valid declaration settles nothing anew of what is remembered. -/
theorem Typed.develops (h : Typed g) {kb : KnowledgeBase} (hkb : Develops g.base kb)
    (horder : kb.Orderly) : Typed { g with base := kb } where
  orderly := horder
  backed := h.backed
  admitted p args a ha := by
    rw [hkb.atom?] at ha
    -- an entity that is registered stays where it is, so what was admitted still is
    rw [hkb.stays.admits h.orderly.toPlaced (h.registered ha) (hkb.signature p (lt_of_atom? ha))]
    exact h.admitted p args a ha
  named p args a ha := by
    rw [hkb.atom?] at ha
    rw [hkb.name p (lt_of_atom? ha)]
    exact h.named p args a ha
  placed p s e he :=
    Nat.lt_of_lt_of_le (h.placed p s e (hkb.requested.1 he)) hkb.stays.taxonomy.size
  called p s e he := by
    have he := hkb.requested.1 he
    rw [someMember, hkb.name p (lt_of_requested he), hkb.stays.taxonomy.name s (h.placed p s e he)]
    exact h.called p s e he

/-- The solver may go on by itself, as long as names stay with their atoms. -/
theorem Typed.withSolver (h : Typed g) {u : Solver ρ} (hu : u.Backed)
    (hnames : ∀ P b, g.solver.atoms.named? P = some b → u.atoms.named? P = some b) :
    Typed { g with solver := u } where
  orderly := h.orderly
  backed := hu
  admitted := h.admitted
  named p args a ha := hnames _ a (h.named p args a ha)
  placed := h.placed
  called p s e he := hnames _ e (h.called p s e he)

/-- What the solver does without naming anything keeps what is remembered well typed. -/
theorem Typed.spares (h : Typed g) {kind : Proposition → Prop} {u : Solver ρ}
    (hu : Solver.Spares kind g.solver u) : Typed { g with solver := u } :=
  h.withSolver hu.backed hu.named?

/-- Arguments that are admitted are put into the domain with the atom of the call. -/
theorem Typed.enter (h : Typed g) (hp : p < g.base.predicates.size)
    (hnone : g.base.atom? p args = none) (hadmits : g.base.admits p args = true) :
    let u := g.solver.proposition (.call ⟨(g.base.predicate p).name, args.terms⟩)
    Typed ⟨g.base.enter p args u.1, u.2⟩ := by
  intro u
  have hspares : Solver.Spares (fun _ => False) g.solver u.2 :=
    Solver.spares_freshAtom h.backed (some _)
  -- first the solver gets the atom, then the domain gets the arguments
  have h' : Typed { g with solver := u.2 } := h.spares hspares
  have hgrows : Grows g.base (g.base.enter p args u.1) := grows_enter hnone u.1
  exact
    { orderly := h.orderly.enter p args u.1
      backed := h'.backed
      admitted := fun q args' b hb => by
        rw [admits_enter]
        -- only the new entry has to be looked at
        rcases atom?_enter_cases hp hnone hb with ⟨rfl, rfl, -⟩ | hb
        · exact hadmits
        · exact h.admitted q args' b hb
      named := fun q args' b hb => by
        rw [hgrows.name]
        rcases atom?_enter_cases hp hnone hb with ⟨rfl, rfl, rfl⟩ | hb
        · exact Solver.named?_proposition g.solver _
        · exact h'.named q args' b hb
      placed := fun q t e he => h'.placed q t e (requested_enter.1 he)
      called := fun q t e he => by
        rw [someMember, hgrows.name]
        exact h'.called q t e (requested_enter.1 he) }

/-- What is taken out of a domain is no longer asked about. -/
theorem Typed.withdraw (h : Typed g) (p : PredicateId) (args : Arguments) :
    Typed { g with base := g.base.withdraw p args } where
  orderly := h.orderly.modifyPredicate p fun _ => ⟨rfl, rfl⟩
  backed := h.backed
  admitted q args' b hb := by
    rw [admits_withdraw]
    exact h.admitted q args' b (atom?_withdraw_eq_some hb).1
  named q args' b hb := by
    rw [(predicate_withdraw g.base p q args).1]
    exact h.named q args' b (atom?_withdraw_eq_some hb).1
  placed q t e he := h.placed q t e (requested_withdraw.1 he)
  called q t e he := by
    rw [someMember, (predicate_withdraw g.base p q args).1]
    exact h.called q t e (requested_withdraw.1 he)

theorem preserves_typed_onSolver {α : Type} {kb : KnowledgeBase}
    {act : EStateM Error (Solver ρ) α}
    (hact : ∀ s : Solver ρ, s.Backed → Preserves (Solver.Spares (fun _ => False) s) act) :
    Preserves (fun g => Typed g ∧ g.base = kb) (onSolver act) := by
  rintro g ⟨h, hbase⟩
  refine after_onSolver.2 ((hact g.solver h.backed g.solver (Solver.Spares.refl h.backed)).mono
    (fun _ s hs => ⟨h.spares hs, hbase⟩) fun _ s hs => ⟨h.spares hs, hbase⟩)

/-- An assertion changes nothing that is remembered. -/
theorem preserves_typed_assert {kb : KnowledgeBase} (c : Constraint) :
    Preserves (fun g => Typed g ∧ g.base = kb) (assert (ρ := ρ) c) :=
  preserves_typed_onSolver fun _ hs => Solver.preserves_spares_assert hs (fun _ => not_false) c

/-! ### Calls -/

/-- What there was in the first knowledge base is there in the second, and no call there was is
pending. -/
structure Keeps (kb : KnowledgeBase) (pending : Pending) (kb' : KnowledgeBase) : Prop
    extends SameNumbers kb kb' where
  atoms : ∀ p args a, kb.atom? p args = some a → kb'.atom? p args = some a
  apart : ∀ c ∈ pending, kb.atom? c.1 c.2 = none

theorem Keeps.refl (kb : KnowledgeBase) : Keeps kb [] kb :=
  ⟨SameNumbers.refl kb, fun _ _ _ h => h, nofun⟩

/-- A call that was not made before becomes pending. -/
theorem Keeps.enter {kb kb' : KnowledgeBase} (h : Keeps kb pending kb')
    (hnone : kb'.atom? p args = none) (a : Atom) :
    Keeps kb ((p, args) :: pending) (kb'.enter p args a) where
  toSameNumbers := h.toSameNumbers.trans ⟨size_enter, rfl, rfl⟩
  atoms q args' b hb := (grows_enter hnone a).atoms q args' b (h.atoms q args' b hb)
  apart := by
    refine List.forall_mem_cons.2 ⟨Option.eq_none_iff_forall_ne_some.2 fun b hb => ?_, h.apart⟩
    rw [h.atoms p args b hb] at hnone
    cases hnone

/-- A pending call may be taken out again, since it is none of those there were. -/
theorem Keeps.withdraw {kb kb' : KnowledgeBase} (h : Keeps kb ((p, args) :: pending) kb') :
    Keeps kb pending (kb'.withdraw p args) where
  toSameNumbers := h.toSameNumbers.trans ⟨Array.size_modify, rfl, rfl⟩
  atoms q args' b hb := by
    have hne : (p, args) ≠ (q, args') := by
      rintro he
      obtain ⟨rfl, rfl⟩ := Prod.mk.inj he
      rw [h.apart _ List.mem_cons_self] at hb
      cases hb
    rw [atom?_withdraw_of_ne hne]
    exact h.atoms q args' b hb
  apart c hc := h.apart c (List.mem_cons_of_mem _ hc)

/-- Calls keep what is remembered well typed, and take nothing out that was there before. -/
def typedUpkeep (ρ : Type) (kb : KnowledgeBase) : Upkeep ρ Unit where
  Holds pending g _ := Typed g ∧ Keeps kb pending g.base
  Refused pending g := Typed g ∧ Keeps kb pending g.base
  More _ _ := True
  Done _ _ _ _ := True
  Wanted _ _ _ _ := True
  more_refl _ := trivial
  more_trans _ _ := trivial
  done_lasts _ _ _ := trivial
  refused h := h
  orderly h := h.1.orderly
  admitted h ha := h.1.admitted _ _ _ ha
  enrolls h hkb := ⟨h.1.develops hkb.develops (h.1.orderly.registers hkb.toRegisters),
    ⟨h.2.toSameNumbers.trans hkb.sameNumbers,
      fun p args a ha => hkb.grows.atoms p args a (h.2.atoms p args a ha), h.2.apart⟩⟩
  enters h hp hnone hadmits _ := ⟨h.1.enter hp hnone hadmits, h.2.enter hnone _⟩
  tells h _ _ := (preserves_typed_assert _ _ ⟨h.1, rfl⟩).mono
    (fun _ _ ht => ⟨(), ⟨ht.1, ht.2 ▸ h.2⟩, ht.2, trivial, trivial⟩) fun _ _ ht =>
      ⟨ht.1, ht.2 ▸ h.2⟩
  settles h _ _ _ := (preserves_supportExistentials preserves_typed_assert _ _ _ _ ⟨h.1, rfl⟩).mono
    (fun _ _ ht => ⟨(), ⟨ht.1, ht.2 ▸ ⟨h.2.toSameNumbers, h.2.atoms,
      fun c hc => h.2.apart c (List.mem_cons_of_mem _ hc)⟩⟩, ht.2, trivial⟩) fun _ _ ht =>
      ⟨ht.1, ht.2 ▸ h.2⟩
  withdraws h := ⟨h.1.withdraw _ _, h.2.withdraw⟩
  wanted_lasts _ _ _ := trivial
  wanted_enter _ := trivial
  wanted_general _ _ _ _ := trivial
  wanted_sibling _ _ _ _ _ := trivial

/-- **A call keeps what is remembered well typed**, whether it goes through or not, and takes
nothing out that was there before. -/
theorem Typed.after_call {kb : KnowledgeBase} (h : Typed g) (hkeeps : Keeps kb [] g.base)
    (hp : p < g.base.predicates.size) (args : Arguments) :
    After (call p args) g
      (fun a t => (Typed t ∧ Keeps kb [] t.base) ∧ t.base.atom? p args = some a)
      fun _ t => Typed t ∧ Keeps kb [] t.base :=
  After.imp_done ((typedUpkeep ρ kb).after_call (x := ()) ⟨h, hkeeps⟩ hp trivial)
    fun _ _ ⟨_, ht, _, _, ha⟩ => ⟨ht, ha⟩

/-- **A call that was made before is found and changes nothing.** -/
theorem Typed.call_again (h : Typed g) (ha : g.base.atom? p args = some a) :
    call p args g = .ok a g := by
  have hcheck := checkArguments_of_admits (h.admitted p args a ha)
  have hget : (g.base.predicate p).domain.get? args = some a := ha
  have hcall : After (call p args) g (fun v t => v = a ∧ t = g) fun _ _ => False := by
    refine after_bind.2 (after_get.2 ?_)
    -- the check passes and the domain has the arguments, so nothing else is run
    unfold callWithin
    refine after_bind.2 (after_onBase.2 ?_)
    unfold After
    rw [hcheck]
    dsimp only
    refine after_bind.2 (after_get.2 ?_)
    rw [hget]
    exact after_pure.2 ⟨rfl, rfl⟩
  -- what cannot fail and ends in `g` is the result itself
  obtain ⟨_, _, hok, rfl, rfl⟩ := hcall.exists_ok
  exact hok

end Grounding

end Storyworld
