import Storyworld.Phrase.Meaning
import Storyworld.Proofs.Knowledge.Declarations
import Storyworld.Proofs.Solver.Invariant

namespace Storyworld

/-!
# Groundings stay sound

The solver of a grounding is well formed, and the atoms that the predicates remember belong to
it (`Grounding.Sound`). Calls, existentials and phrases keep it so, whether they are refused or
not, and each gives an atom of the language (`Yields`).
-/

namespace Grounding

open Action

variable {ρ : Type} {α : Type} {g : Grounding ρ} {count : Nat}

/-! ### Actions on a part of a grounding -/

/-- What is done on the solver concerns the solver only. -/
theorem after_onSolver {act : EStateM Error (Solver ρ) α} {done : α → Grounding ρ → Prop}
    {refused : Error → Grounding ρ → Prop} :
    After (onSolver act) g done refused ↔
      After act g.solver (fun a s => done a { g with solver := s })
        (fun e s => refused e { g with solver := s }) := by
  unfold After onSolver
  cases act g.solver <;> rfl

/-- What is done on the knowledge base concerns the knowledge base only. -/
theorem after_onBase {act : EStateM Error KnowledgeBase α} {done : α → Grounding ρ → Prop}
    {refused : Error → Grounding ρ → Prop} :
    After (onBase act) g done refused ↔
      After act g.base (fun a kb => done a { g with base := kb })
        (fun e kb => refused e { g with base := kb }) := by
  unfold After onBase
  cases act g.base <;> rfl

/-! ### The invariant -/

/-- The solver is well formed, with at least so many atoms, and the predicates remember atoms of
its language only. -/
structure Sound (count : Nat) (g : Grounding ρ) : Prop where
  solver : Solver.Grown count g.solver
  domains : ∀ p, ∀ e ∈ (g.base.predicate p).domain.toList, e.2 < g.solver.atoms.count
  existentials : ∀ p, ∀ e ∈ (g.base.predicate p).existentials, e.2 < g.solver.atoms.count

/-- A sound grounding has the atoms that it has. -/
theorem Sound.now (hg : Sound count g) : Sound g.solver.atoms.count g :=
  ⟨hg.solver.1.grown, hg.domains, hg.existentials⟩

theorem Sound.mono {m n : Nat} (hg : Sound n g) (hmn : m ≤ n) : Sound m g :=
  ⟨⟨hg.solver.1, Nat.le_trans hmn hg.solver.2⟩, hg.domains, hg.existentials⟩

/-- The solver may go on by itself, as long as its atoms stay. -/
theorem Sound.withSolver (hg : Sound count g) {s : Solver ρ}
    (hs : Solver.Grown g.solver.atoms.count s) : Sound count { g with solver := s } where
  solver := ⟨hs.1, Nat.le_trans hg.solver.2 hs.2⟩
  domains := fun p e he => Nat.lt_of_lt_of_le (hg.domains p e he) hs.2
  existentials := fun p e he => Nat.lt_of_lt_of_le (hg.existentials p e he) hs.2

/-- What the predicates remember decides; the rest of the knowledge base may change. -/
theorem Sound.withBase (hg : Sound count g) {kb : KnowledgeBase}
    (h : ∀ p, kb.uses p = g.base.uses p) : Sound count { g with base := kb } where
  solver := hg.solver
  domains := by
    intro p
    -- read off what has been made of the predicate
    show ∀ e ∈ (kb.uses p).1.toList, e.2 < g.solver.atoms.count
    rw [h]
    exact hg.domains p
  existentials := by
    intro p
    show ∀ e ∈ (kb.uses p).2, e.2 < g.solver.atoms.count
    rw [h]
    exact hg.existentials p

/-- A predicate may come to remember more atoms of the language, or fewer. -/
theorem Sound.modifyPredicate (hg : Sound count g) (p : PredicateId) {f : Predicate → Predicate}
    (hdomain : ∀ q, (∀ e ∈ q.domain.toList, e.2 < g.solver.atoms.count) →
      ∀ e ∈ (f q).domain.toList, e.2 < g.solver.atoms.count)
    (hexistentials : ∀ q, (∀ e ∈ q.existentials, e.2 < g.solver.atoms.count) →
      ∀ e ∈ (f q).existentials, e.2 < g.solver.atoms.count) :
    Sound count { g with base := g.base.modifyPredicate p f } where
  solver := hg.solver
  domains := by
    intro q
    show ∀ e ∈ ((g.base.modifyPredicate p f).predicate q).domain.toList, _
    -- each predicate is the one it was, or the one that was changed
    rcases KnowledgeBase.predicate_modifyPredicate g.base f q p with h | h
    · rw [h]
      exact hg.domains q
    · rw [h]
      exact hdomain _ (hg.domains q)
  existentials := by
    intro q
    show ∀ e ∈ ((g.base.modifyPredicate p f).predicate q).existentials, _
    rcases KnowledgeBase.predicate_modifyPredicate g.base f q p with h | h
    · rw [h]
      exact hg.existentials q
    · rw [h]
      exact hexistentials _ (hg.existentials q)

/-- What keeps solvers well formed and takes no atom away keeps groundings sound. -/
theorem preserves_onSolver {act : EStateM Error (Solver ρ) α}
    (h : ∀ n, Preserves (Solver.Grown n) act) : Preserves (Sound count) (onSolver act) := by
  intro g hg
  rw [after_onSolver]
  exact (h _ _ hg.solver.1.grown).mono (fun _ _ => hg.withSolver) fun _ _ => hg.withSolver

/-- What remembers no further atoms keeps groundings sound. -/
theorem preserves_onBase {act : EStateM Error KnowledgeBase α}
    (h : ∀ kb, Preserves (KnowledgeBase.SamePredicates kb) act) :
    Preserves (Sound count) (onBase (ρ := ρ) act) := by
  intro g hg
  rw [after_onBase]
  exact (h _ _ (KnowledgeBase.SamePredicates.refl _)).mono
    (fun _ _ hkb => hg.withBase fun _ => hkb.uses) fun _ _ hkb => hg.withBase fun _ => hkb.uses

/-- A constraint keeps groundings sound, also where it is refused. -/
theorem preserves_assert (c : Constraint) : Preserves (Sound count) (assert (ρ := ρ) c) :=
  preserves_onSolver fun _ => Solver.preserves_assert c

/-! ### Actions that give an atom -/

/-- The action keeps groundings sound, and gives an atom of the language. -/
def Yields (act : EStateM Error (Grounding ρ) Atom) : Prop :=
  ∀ n g, Sound n g → After act g (fun a t => Sound n t ∧ a < t.solver.atoms.count)
    (fun _ t => Sound n t)

/-- What gives an atom of the language keeps groundings sound. -/
theorem Yields.preserves {act : EStateM Error (Grounding ρ) Atom} (h : Yields act) :
    Preserves (Sound count) act :=
  fun g hg => (h count g hg).imp_done fun _ _ ht => ht.1

/-- What comes after an action starts from a grounding that is sound. -/
theorem Yields.after {act : EStateM Error (Grounding ρ) α} (h : ∀ n, Preserves (Sound n) act)
    {next : α → EStateM Error (Grounding ρ) Atom} (hnext : ∀ a, Yields (next a)) :
    Yields (act >>= next) := by
  intro n g hg
  exact after_bind.2 ((h n g hg).imp_done fun a t ht => hnext a n t ht)

/-- The action does so when it is taken where `a` is an atom of the language. -/
def YieldsFrom (a : Atom) (act : EStateM Error (Grounding ρ) Atom) : Prop :=
  ∀ n g, Sound n g → a < g.solver.atoms.count →
    After act g (fun b t => Sound n t ∧ b < t.solver.atoms.count) (fun _ t => Sound n t)

/-- An atom of the language may be given as it is. -/
theorem yieldsFrom_pure (a : Atom) : YieldsFrom a (pure a : EStateM Error (Grounding ρ) Atom) :=
  fun _ _ hg ha => ⟨hg, ha⟩

/-- An atom stays in the language whatever is done. -/
theorem YieldsFrom.after {a : Atom} {act : EStateM Error (Grounding ρ) α}
    (h : ∀ n, Preserves (Sound n) act) {next : α → EStateM Error (Grounding ρ) Atom}
    (hnext : ∀ x, YieldsFrom a (next x)) : YieldsFrom a (act >>= next) := by
  intro n g hg ha
  refine after_bind.2 ((h _ g hg.now).mono (fun x t ht => ?_) fun _ t ht => ht.mono hg.solver.2)
  exact hnext x n t (ht.mono hg.solver.2) (Nat.lt_of_lt_of_le ha ht.solver.2)

/-- A proposition has an atom of the language, or gets one. -/
theorem yields_proposition (p : Proposition) : Yields (proposition (ρ := ρ) p) := by
  intro n g hg
  have hgrown : Solver.Grown g.solver.atoms.count (g.solver.proposition p).2 :=
    hg.solver.1.grown.proposition p
  refine after_onSolver.2 (after_modifyGet.2 ⟨hg.withSolver hgrown, ?_⟩)
  exact hg.solver.1.proposition_lt p

/-! ### Calls -/

/-- A call is remembered with an atom of the language. -/
theorem yields_enter (p : PredicateId) (args : Arguments) : Yields (enter (ρ := ρ) p args) := by
  intro n g hg
  refine after_bind.2 (after_get.2 (after_bind.2 ?_))
  refine (yields_proposition _ n g hg).imp_done fun a t ht => ?_
  refine after_bind.2 (after_modify.2 (after_pure.2 ⟨?_, ht.2⟩))
  -- only the atom that is entered is new to the domain
  refine ht.1.modifyPredicate p (fun q hq e he => ?_) fun q hq => hq
  rcases Domain.mem_toList_insert he with he | rfl
  · exact hq e he
  · exact ht.2

/-- To take a call back forgets an atom. -/
theorem preserves_withdraw (p : PredicateId) (args : Arguments) (e : Error) :
    Preserves (Sound count) (withdraw (ρ := ρ) p args e) :=
  (preserves_modify fun _ hg => hg.modifyPredicate p
    (fun _ hq d hd => hq d (Domain.mem_toList_remove hd)) fun _ hq => hq).bind
      fun _ => preserves_throw e

/-- What relates a call to others keeps groundings sound if the calls that it makes do. -/
theorem preserves_relateCall {call : PredicateId → EStateM Error (Grounding ρ) Atom}
    (hcall : ∀ p, Preserves (Sound count) (call p)) (p : PredicateId) (args : Arguments)
    (atom : Atom) : Preserves (Sound count) (relateCall call p args atom) := by
  have hgeneral : ∀ q, Preserves (Sound count) (do
      let general ← call q
      assert (.implication (Literal.pos atom) (Literal.pos general))) :=
    fun q => (hcall q).bind fun _ => preserves_assert _
  have hspecific : ∀ q, Preserves (Sound count) (do
      if q ≠ p && (← get).base.admits q args then
        let _ ← call q) := by
    intro q
    refine preserves_get.bind fun t => ?_
    split
    · exact (hcall q).bind fun _ => preserves_pure _
    · exact preserves_pure _
  have hnegative : ∀ q, Preserves (Sound count) (do
      if (← get).base.admits q args then
        let other ← call q
        onSolver (Solver.inconsistent (Literal.pos atom) (Literal.pos other))) := by
    intro q
    refine preserves_get.bind fun t => ?_
    split
    · exact (hcall q).bind fun _ => preserves_onSolver fun _ => Solver.preserves_assert _
    · exact preserves_pure _
  -- the kinds of relations come one after the other
  refine preserves_get.bind fun t => (preserves_forM fun q _ => hgeneral q).bind fun _ => ?_
  refine preserves_get.bind fun t => (preserves_forM fun q _ => ?_).bind fun _ => ?_
  · refine (hcall q).bind fun head => (preserves_assert _).bind fun _ => ?_
    exact preserves_get.bind fun u => preserves_forM fun r _ => hspecific r
  · refine preserves_get.bind fun t => (preserves_forM fun q _ => hnegative q).bind fun _ => ?_
    cases args with
    | two left right => exact preserves_pure _
    | one entity =>
      refine preserves_get.bind fun t => preserves_forM fun e _ => ?_
      refine preserves_get.bind fun u => (preserves_ofExcept _).bind fun b => ?_
      split
      · exact preserves_assert _
      · exact preserves_pure _

/-- A call gives an atom of the language if what relates it to others keeps groundings sound. -/
theorem yields_callWithin_of_related {depth : Nat} {args : Arguments} {p : PredicateId}
    (h : ∀ atom, YieldsFrom atom (match depth with
      | 0 => return atom
      | depth + 1 => do
        tryCatch (relateCall (ρ := ρ) (callWithin depth args) p args atom) (withdraw p args)
        return atom)) :
    Yields (callWithin (ρ := ρ) depth args p) := by
  have hcheck : ∀ n, Preserves (Sound n) (onBase (ρ := ρ) (KnowledgeBase.checkArguments p args)) :=
    fun n => preserves_onBase fun kb => KnowledgeBase.preserves_checkArguments p args
  unfold callWithin
  refine Yields.after hcheck fun _ n g hg => after_bind.2 (after_get.2 ?_)
  cases hget : (g.base.predicate p).domain.get? args with
  -- an atom that is remembered belongs to the solver
  | some atom => exact after_pure.2 ⟨hg, hg.domains p _ (Domain.get?_eq_some_iff.1 hget)⟩
  | none =>
    refine after_bind.2 ((yields_enter p args n g hg).imp_done fun atom t ht => ?_)
    exact h atom n t ht.1 ht.2

/-- Every call keeps the grounding sound and gives an atom of the language. -/
theorem yields_callWithin (depth : Nat) (args : Arguments) (p : PredicateId) :
    Yields (callWithin (ρ := ρ) depth args p) := by
  induction depth generalizing p with
  | zero => exact yields_callWithin_of_related fun atom => yieldsFrom_pure atom
  | succ depth ih =>
    refine yields_callWithin_of_related fun atom => YieldsFrom.after (fun n => ?_) fun _ =>
      yieldsFrom_pure atom
    -- a call that fails is withdrawn, which keeps the grounding sound as well
    exact (preserves_relateCall (fun q => (ih q).preserves) p args atom).tryCatch
      fun e => preserves_withdraw p args e

/-- A call gives an atom of the language, or is refused. -/
theorem yields_call (p : PredicateId) (args : Arguments) : Yields (call (ρ := ρ) p args) :=
  Yields.after (fun _ => preserves_get) fun _ => yields_callWithin _ args p

/-! ### Existentials and phrases -/

/-- An existential may be remembered with an atom of the language. -/
theorem Sound.addExistential (hg : Sound count g) (p : PredicateId) {sort : SortId} {head : Atom}
    (hhead : head < g.solver.atoms.count) :
    Sound count { g with base := g.base.modifyPredicate p fun q =>
      { q with existentials := q.existentials ++ [(sort, head)] } } := by
  refine hg.modifyPredicate p (fun q hq => hq) fun q hq e he => ?_
  rcases List.mem_append.1 he with he | he
  · exact hq e he
  · rw [List.mem_singleton.1 he]
    exact hhead

/-- An existential that is opened has an atom of the language. -/
theorem yields_openExistential (p : PredicateId) (sort : SortId) :
    Yields (openExistential (ρ := ρ) p sort) := by
  refine Yields.after (fun _ => preserves_get) fun g₀ n g hg => after_bind.2 ?_
  refine (yields_proposition _ n g hg).imp_done fun head t ht => ?_
  refine YieldsFrom.after (a := head)
    (fun m => preserves_onSolver fun _ => Solver.preserves_addHead head) (fun _ => ?_) n t ht.1 ht.2
  exact fun m u hu hhead => ⟨hu.addExistential p hhead, hhead⟩

/-- An existential gives an atom of the language if what descends into its subsorts keeps groundings
sound. -/
theorem yields_existentialFrom {descend : Atom → EStateM Error (Grounding ρ) Unit}
    (h : ∀ n head, Preserves (Sound n) (descend head)) (p : PredicateId) (sort : SortId) :
    Yields (existentialFrom descend p sort) := by
  intro n g hg
  refine after_bind.2 (after_get.2 ?_)
  dsimp only
  split
  · exact hg
  · -- an existential that was asked for before is looked up, and remembered with an atom
    cases hlookup : (g.base.predicate p).existentials.lookup sort with
    | some head =>
      obtain ⟨before, rest, hsplit, -⟩ := List.lookup_eq_some_iff.1 hlookup
      refine after_pure.2 ⟨hg, hg.existentials p (sort, head) ?_⟩
      rw [hsplit]
      simp
    | none =>
      refine after_bind.2 ((yields_openExistential p sort n g hg).imp_done fun head t ht => ?_)
      refine YieldsFrom.after (a := head) (fun m => h m head) (fun _ => ?_) n t ht.1 ht.2
      refine YieldsFrom.after (fun _ => preserves_get) fun u => ?_
      exact YieldsFrom.after (fun _ => preserves_forM fun _ _ => preserves_assert _) fun _ =>
        yieldsFrom_pure head

/-- Every existential keeps the grounding sound and gives an atom of the language. -/
theorem yields_existentialWithin (depth : Nat) (p : PredicateId) (sort : SortId) :
    Yields (existentialWithin (ρ := ρ) depth p sort) := by
  induction depth generalizing sort with
  | zero => exact yields_existentialFrom (fun _ _ => preserves_pure _) p sort
  | succ depth ih =>
    refine yields_existentialFrom (fun n head => ?_) p sort
    refine preserves_get.bind fun t => preserves_forM fun subsort _ => ?_
    exact (ih subsort).preserves.bind fun _ => preserves_assert _

/-- An existential gives an atom of the language, or is refused. -/
theorem yields_existential (p : PredicateId) (sort : SortId) :
    Yields (existential (ρ := ρ) p sort) :=
  Yields.after (fun _ => preserves_get) fun _ => yields_existentialWithin _ p sort

/-- A word denotes an atom of the language, or is refused. -/
theorem yields_wordAtom (w : String) : Yields (wordAtom (ρ := ρ) w) := by
  refine Yields.after (fun _ => preserves_get) fun g => ?_
  dsimp only
  split
  · exact yields_proposition _
  · split
    · exact yields_call _ _
    · split
      · exact yields_existential _ _
      · exact yields_proposition _

/-- A predicate with one argument denotes an atom of the language, or is refused. -/
theorem yields_unaryAtom (p : PredicateId) (argument : String) :
    Yields (unaryAtom (ρ := ρ) p argument) := by
  refine Yields.after (fun _ => preserves_get) fun g => ?_
  dsimp only
  split
  · exact yields_existential _ _
  · exact yields_call _ _

/-- A phrase means a literal of the language. -/
theorem after_literalOf (phrase : Phrase) (hg : Sound count g) :
    After (literalOf phrase) g (fun l t => Sound count t ∧ l.atom < t.solver.atoms.count)
      (fun _ t => Sound count t) := by
  induction phrase with
  | word w => exact after_bind.2 (yields_wordAtom w count g hg)
  | negation phrase ih => exact after_bind.2 ih
  | unary p argument => exact after_bind.2 (yields_unaryAtom p argument count g hg)
  | binary p left right => exact after_bind.2 (yields_call p _ count g hg)

end Grounding

end Storyworld
