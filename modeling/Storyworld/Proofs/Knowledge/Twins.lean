import Storyworld.Phrase.Meaning
import Storyworld.Proofs.Solver.Twins

namespace Storyworld

/-!
# Groundings do not see what searches leave behind

Two groundings are twins when they have the same knowledge base and their solvers are twins.
Calls, existentials and phrases give the same answer in both and leave them twins.
-/

namespace Grounding

open Action

variable {ρ : Type} {α : Type} {config : Config} {g g' : Grounding ρ}

/-- The knowledge base is the same, and the solvers are twins. -/
structure Twin (config : Config) (g g' : Grounding ρ) : Prop where
  base : g.base = g'.base
  solver : Solver.Twin config g.solver g'.solver

/-- What is blind to the state of a search is so when it is done on the solver of a grounding. -/
theorem blind_onSolver {act : EStateM Error (Solver ρ) α} (h : Blind (Solver.Twin config) act) :
    Blind (Twin config) (onSolver act) := by
  intro g g' hg
  have hact := h _ _ hg.solver
  unfold Agree answer Action.stateAfter onSolver at *
  cases he : act g.solver <;> cases he' : act g'.solver <;> rw [he, he'] at hact <;>
    exact ⟨hact.1, hg.base, hact.2⟩

/-- A question to the knowledge base does not reach the solver. -/
theorem blind_onBase (act : EStateM Error KnowledgeBase α) :
    Blind (Twin config) (onBase (ρ := ρ) act) := by
  intro g g' hg
  unfold Agree answer Action.stateAfter onBase
  rw [hg.base]
  cases act g'.base <;> exact ⟨rfl, rfl, hg.solver⟩

theorem blind_modifyPredicate (p : PredicateId) (f : Predicate → Predicate) :
    Blind (Twin config) (modifyPredicate (ρ := ρ) p f) :=
  blind_modify fun _ _ hg => ⟨congrArg (KnowledgeBase.modifyPredicate · p f) hg.base, hg.solver⟩

theorem blind_proposition (p : Proposition) : Blind (Twin config) (proposition (ρ := ρ) p) :=
  blind_onSolver (blind_modifyGet fun _ _ hs => hs.proposition p)

theorem blind_assert (c : Constraint) : Blind (Twin config) (assert (ρ := ρ) c) :=
  blind_onSolver (Solver.blind_assert c)

/-- What is done with the grounding that was read depends on its knowledge base alone. -/
theorem blind_base {next : Grounding ρ → EStateM Error (Grounding ρ) α}
    (hbase : ∀ base solver solver', next ⟨base, solver⟩ = next ⟨base, solver'⟩)
    (h : ∀ g, Blind (Twin config) (next g)) : Blind (Twin config) (get >>= next) := by
  refine blind_get fun g g' hg => ?_
  have hnext : next g = next g' := by
    cases g with
    | mk base solver =>
      cases g' with
      | mk base' solver' =>
        obtain rfl : base = base' := hg.base
        exact hbase base solver solver'
  exact hnext ▸ h g g g' hg

/-! ### Calls -/

/-- A call has the same atom in twins, and is memoized alike. -/
theorem blind_enter (p : PredicateId) (args : Arguments) :
    Blind (Twin config) (enter (ρ := ρ) p args) :=
  blind_base (fun _ _ _ => rfl) fun _ => (blind_proposition _).bind fun _ =>
    (blind_modifyPredicate p _).bind fun _ => blind_pure _

/-- A call that fails is taken back alike, and fails with the same error. -/
theorem blind_withdraw (p : PredicateId) (args : Arguments) (e : Error) :
    Blind (Twin config) (withdraw (ρ := ρ) p args e) :=
  (blind_modifyPredicate p _).bind fun _ => blind_throw e

/-- What relates a call to others is done alike in twins, if the calls that it makes are. -/
theorem blind_relateCall {call : PredicateId → EStateM Error (Grounding ρ) Atom}
    (hcall : ∀ p, Blind (Twin config) (call p)) (p : PredicateId) (args : Arguments)
    (atom : Atom) : Blind (Twin config) (relateCall call p args atom) := by
  unfold relateCall
  dsimp only
  -- the calls that it implies, the heads that it supports with what else supports them, the calls
  -- that it excludes, and the existentials of its predicate
  refine blind_base (fun _ _ _ => rfl) fun g => (blind_forM fun q _ => ?_).bind fun _ => ?_
  · exact (hcall q).bind fun _ => blind_assert _
  refine blind_base (fun _ _ _ => rfl) fun g => (blind_forM fun q _ => ?_).bind fun _ => ?_
  · refine (hcall q).bind fun head => (blind_assert _).bind fun _ => ?_
    refine blind_base (fun _ _ _ => rfl) fun g => blind_forM fun r _ => ?_
    refine blind_base (fun _ _ _ => rfl) fun g => ?_
    split
    · exact (hcall r).bind fun _ => blind_pure _
    · exact blind_pure _
  refine blind_base (fun _ _ _ => rfl) fun g => (blind_forM fun q _ => ?_).bind fun _ => ?_
  · refine blind_base (fun _ _ _ => rfl) fun g => ?_
    split
    · exact (hcall q).bind fun _ => blind_onSolver (Solver.blind_assert _)
    · exact blind_pure _
  split
  · exact blind_pure _
  · refine blind_base (fun _ _ _ => rfl) fun g => blind_forM fun e _ => ?_
    refine blind_base (fun _ _ _ => rfl) fun g => ?_
    refine (blind_ofExcept _).bind fun b => ?_
    split
    · exact blind_assert _
    · exact blind_pure _

/-- A call is blind at every depth. The induction is on the depth, as the calls that a call makes
are less deep. -/
theorem blind_callWithin (depth : Nat) (args : Arguments) (p : PredicateId) :
    Blind (Twin config) (callWithin (ρ := ρ) depth args p) := by
  induction depth generalizing p with
  | zero =>
    unfold callWithin
    refine (blind_onBase _).bind fun _ => blind_base (fun _ _ _ => rfl) fun g => ?_
    split
    · exact blind_pure _
    · exact (blind_enter p args).bind fun _ => blind_pure _
  | succ depth ih =>
    unfold callWithin
    refine (blind_onBase _).bind fun _ => blind_base (fun _ _ _ => rfl) fun g => ?_
    split
    · exact blind_pure _
    · refine (blind_enter p args).bind fun atom => ?_
      -- the handler of a failure is as blind as what it handles
      exact ((blind_relateCall ih p args atom).tryCatch fun e => blind_withdraw p args e).bind
        fun _ => blind_pure _

/-- A call has the same answer in twins and leaves them twins, also where it fails. -/
theorem blind_call (p : PredicateId) (args : Arguments) :
    Blind (Twin config) (call (ρ := ρ) p args) :=
  blind_base (fun _ _ _ => rfl) fun g => blind_callWithin g.base.predicates.size args p

/-! ### Existentials -/

/-- Whether an existential is new is the same in twins. -/
theorem blind_openExistential (p : PredicateId) (sort : SortId) :
    Blind (Twin config) (openExistential (ρ := ρ) p sort) :=
  blind_base (fun _ _ _ => rfl) fun _ => (blind_proposition _).bind fun head =>
    (blind_onSolver (Solver.blind_addHead head)).bind fun _ =>
      (blind_modifyPredicate p _).bind fun _ => blind_pure _

/-- An existential is grounded alike if what descends into its subsorts is. -/
theorem blind_existentialFrom {descend : Atom → EStateM Error (Grounding ρ) Unit}
    (h : ∀ head, Blind (Twin config) (descend head)) (p : PredicateId) (sort : SortId) :
    Blind (Twin config) (existentialFrom descend p sort) := by
  unfold existentialFrom
  refine blind_base (fun _ _ _ => rfl) fun g => ?_
  dsimp only
  split
  · exact blind_throw _
  · split
    · exact blind_pure _
    · refine (blind_openExistential p sort).bind fun head => (h head).bind fun _ => ?_
      refine blind_base (fun _ _ _ => rfl) fun g => ?_
      exact (blind_forM fun e _ => blind_assert _).bind fun _ => blind_pure _

/-- An existential is blind at every depth. -/
theorem blind_existentialWithin (depth : Nat) (p : PredicateId) (sort : SortId) :
    Blind (Twin config) (existentialWithin (ρ := ρ) depth p sort) := by
  induction depth generalizing sort with
  | zero => exact blind_existentialFrom (fun _ => blind_pure _) p sort
  | succ depth ih =>
    refine blind_existentialFrom (fun head => ?_) p sort
    refine blind_base (fun _ _ _ => rfl) fun g => blind_forM fun subsort _ => ?_
    exact (ih subsort).bind fun _ => blind_assert _

theorem blind_existential (p : PredicateId) (sort : SortId) :
    Blind (Twin config) (existential (ρ := ρ) p sort) :=
  blind_base (fun _ _ _ => rfl) fun g => blind_existentialWithin g.base.taxonomy.size p sort

/-! ### Phrases -/

/-- A word denotes the same atom in twins. -/
theorem blind_wordAtom (w : String) : Blind (Twin config) (wordAtom (ρ := ρ) w) := by
  unfold wordAtom
  refine blind_base (fun _ _ _ => rfl) fun g => ?_
  dsimp only
  split
  · exact blind_proposition _
  · split
    · exact blind_call _ _
    · split
      · exact blind_existential _ _
      · exact blind_proposition _

/-- A predicate with one argument, an entity or a sort, denotes the same atom in twins. -/
theorem blind_unaryAtom (p : PredicateId) (argument : String) :
    Blind (Twin config) (unaryAtom (ρ := ρ) p argument) := by
  unfold unaryAtom
  refine blind_base (fun _ _ _ => rfl) fun g => ?_
  dsimp only
  split
  · exact blind_existential _ _
  · exact blind_call _ _

/-- A phrase has the same literal in twins and leaves them twins. -/
theorem blind_literalOf (phrase : Phrase) :
    Blind (Twin config) (literalOf (ρ := ρ) phrase) := by
  induction phrase with
  | word w => exact (blind_wordAtom w).bind fun _ => blind_pure _
  | negation phrase ih => exact ih.bind fun _ => blind_pure _
  | unary p argument => exact (blind_unaryAtom p argument).bind fun _ => blind_pure _
  | binary p left right => exact (blind_call p _).bind fun _ => blind_pure _

end Grounding

end Storyworld
