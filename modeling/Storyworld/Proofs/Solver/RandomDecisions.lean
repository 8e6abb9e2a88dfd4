import Storyworld.Proofs.Action
import Storyworld.Proofs.Random.Period
import Storyworld.Solver.Search

namespace Storyworld

/-!
# Random decisions end

A number below `n` is drawn by rejection: words are drawn until one is accepted, and `below` gives
up after as many words as a generator of 64 bits has states. Here are the same draws without that
bound: `belowUpTo`, `pickUpTo` and `Solver.openAtomUpTo` have nothing to show where a draw takes
more tries than it may, so a draw that would be caught among refused words has nothing to show for
any number of tries.

The crux is that no generator is caught so: its period is full, so from any state it comes to the
state zero, whose word is zero, and that word is accepted for any `n` (`Pcg.ends_belowUpTo`). Hence
every draw of a decision ends, with the result it has within the bound.
-/

namespace RandomSource

open Action

variable {ρ : Type} [RandomSource ρ] {α : Type}

/-! ### Draws without a bound -/

/-- A number below `n`, by words drawn until one is accepted, in up to so many tries. -/
def belowUpTo (n : Nat) : Nat → ρ → Option (Nat × ρ)
  | 0, _ => none
  | tries + 1, r =>
    let (word, r) := next r
    match accept? n word with
    | some k => some (k, r)
    | none => belowUpTo n tries r

/-- Goes on picking from a list, each draw taking up to so many tries. -/
def pickFromUpTo (tries count : Nat) (kept : Option α) : List α → ρ → Option (Option α × ρ)
  | [], r => some (kept, r)
  | x :: xs, r => do
    let (k, r) ← belowUpTo (count + 1) tries r
    pickFromUpTo tries (count + 1) (if k = 0 then some x else kept) xs r

/-- An item of a list, each draw for it taking up to so many tries. -/
def pickUpTo (tries : Nat) (xs : List α) (r : ρ) : Option (Option α × ρ) :=
  pickFromUpTo tries 0 none xs r

/-! ### Draws end where a word is accepted -/

variable {n i k : Nat} {r : ρ}

/-- Both draws stop at the first word that is accepted, with the same number. -/
theorem belowUpTo_eq_some {bound tries : Nat} (h : accept? n (next (after i r)).1 = some k)
    (hbound : i < bound) (htries : i < tries) :
    ∃ j r', belowWithin? n bound r = (some j, r') ∧ belowUpTo n tries r = some (j, r') := by
  induction i generalizing bound tries r with
  | zero =>
    obtain ⟨bound, rfl⟩ : ∃ m, bound = m + 1 := ⟨bound - 1, by omega⟩
    obtain ⟨tries, rfl⟩ : ∃ m, tries = m + 1 := ⟨tries - 1, by omega⟩
    have h : accept? n (next r).1 = some k := h
    refine ⟨k, (next r).2, ?_, ?_⟩
    · simp only [belowWithin?, h]
    · simp only [belowUpTo, h]
  | succ i ih =>
    obtain ⟨bound, rfl⟩ : ∃ m, bound = m + 1 := ⟨bound - 1, by omega⟩
    obtain ⟨tries, rfl⟩ : ∃ m, tries = m + 1 := ⟨tries - 1, by omega⟩
    rw [after_succ] at h
    cases hfirst : accept? n (next r).1 with
    | some j =>
      -- a word before it may be accepted already
      refine ⟨j, (next r).2, ?_, ?_⟩
      · simp only [belowWithin?, hfirst]
      · simp only [belowUpTo, hfirst]
    | none =>
      obtain ⟨j, r', hwithin, hupTo⟩ := ih h (Nat.lt_of_succ_lt_succ hbound)
        (Nat.lt_of_succ_lt_succ htries)
      refine ⟨j, r', ?_, ?_⟩
      · simp only [belowWithin?, hfirst, hwithin]
      · simp only [belowUpTo, hfirst, hupTo]

/-- A draw ends if some word within the bound is accepted. -/
theorem ends_belowUpTo (h : accept? n (next (after i r)).1 = some k) (hi : i < patience) :
    Ends (fun tries => belowUpTo n tries r) (below n r) := by
  refine ⟨i + 1, fun tries htries => ?_⟩
  obtain ⟨j, r', hwithin, hupTo⟩ := belowUpTo_eq_some h hi htries
  have hbelow : below n r = (j, r') := by
    unfold below
    rw [hwithin]
    rfl
  rw [hbelow]
  exact hupTo

theorem ends_pickFromUpTo
    (hbelow : ∀ n (r : ρ), Ends (fun tries => belowUpTo n tries r) (below n r)) (count : Nat)
    (kept : Option α) (xs : List α) (r : ρ) :
    Ends (fun tries => pickFromUpTo tries count kept xs r) (pickFrom count kept xs r) := by
  induction xs generalizing count kept r with
  | nil => exact ends_of_forall fun _ => rfl
  | cons x xs ih =>
    have hdraw := hbelow (count + 1) r
    unfold pickFromUpTo pickFrom
    -- the draw is not to be computed here
    cases hfirst : below (count + 1) r with
    | mk k r' =>
      rw [hfirst] at hdraw
      exact hdraw.bind (ih (count + 1) (if k = 0 then some x else kept) r')

/-- A word of zero is accepted, whatever the numbers are. -/
theorem accept?_zero (n : Nat) : accept? n 0 = some 0 := by
  have hzero : (0 : UInt32).toNat * n = 0 := Nat.zero_mul n
  unfold accept?
  simp only [hzero, Nat.zero_mod, Nat.zero_div, Nat.zero_le, if_true]

end RandomSource

/-! ### Draws of the generator -/

namespace Pcg

open Action RandomSource

theorem output_zero : output ⟨0⟩ = 0 := by decide

/-- From any state the generator comes to the state whose word is zero, so no draw goes on for
ever. -/
theorem ends_belowUpTo (n : Nat) (g : Pcg) :
    Ends (fun tries => belowUpTo n tries g) (below n g) := by
  obtain ⟨i, hi, hzero⟩ := exists_after_eq g ⟨0⟩
  have haccept : accept? n (next (after i g)).1 = some 0 := by
    rw [hzero]
    show accept? n (output ⟨0⟩) = some 0
    rw [output_zero]
    exact accept?_zero n
  exact RandomSource.ends_belowUpTo haccept hi

end Pcg

namespace Solver

open Action RandomSource

variable {ρ : Type} [RandomSource ρ]

/-- An atom to decide, each draw for it taking up to so many tries. -/
def openAtomUpTo (tries : Nat) (s : Solver ρ) : Option (Option Atom × Solver ρ) :=
  let (random, source) := coin s.config.randomDecisionBias.value s.source
  let candidates := s.work.valuation.openAtoms
  if random then do
    let (a, source) ← pickUpTo tries candidates source
    some (a, { s with source })
  else some (candidates.head?, { s with source })

/-- The atom to be decided is drawn, if numbers are. -/
theorem ends_openAtomUpTo
    (hbelow : ∀ n (r : ρ), Ends (fun tries => belowUpTo n tries r) (below n r)) (s : Solver ρ) :
    Ends (fun tries => s.openAtomUpTo tries) s.openAtom? := by
  unfold openAtomUpTo openAtom?
  dsimp only
  split
  · exact (ends_pickFromUpTo hbelow 0 none _ _).bind (ends_of_forall fun _ => rfl)
  · exact ends_of_forall fun _ => rfl

end Solver

namespace Pcg

open Action RandomSource

/-- **The generator has full period, and random decisions end.** From every seed the generator runs
through all `2 ^ 64` states before the first comes again, and two seeds lead to different states
after every number of words. Hence, in whatever state the generator is, every number below `n` is
drawn in a finite number of tries, and so is the open atom that a search decides, in whatever
solver. -/
theorem full_period :
    (∀ seed, (Function.Bijective fun n : Fin (2 ^ 64) => (after n (ofSeed seed)).state) ∧
      after (2 ^ 64) (ofSeed seed) = ofSeed seed) ∧
      (∀ n, Function.Injective fun seed => (after n (ofSeed seed)).state) ∧
      (∀ n (g : Pcg), Ends (fun tries => belowUpTo n tries g) (below n g)) ∧
      ∀ s : Solver Pcg, Ends (fun tries => s.openAtomUpTo tries) s.openAtom? := by
  refine ⟨fun seed => ⟨bijective_after (ofSeed seed), after_eq_self_iff.2 (dvd_refl _)⟩,
    fun n seed seed' h => ?_, ends_belowUpTo, Solver.ends_openAtomUpTo ends_belowUpTo⟩
  have hstate : after n (ofSeed seed) = after n (ofSeed seed') := congrArg Pcg.mk h
  exact ofSeed_injective (after_injective n hstate)

end Pcg

end Storyworld
