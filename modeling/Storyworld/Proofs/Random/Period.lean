import Mathlib.NumberTheory.Multiplicity
import Mathlib.Tactic.LinearCombination
import Storyworld.Random.Pcg

namespace Storyworld

/-!
# The period of the generator

The generator steps by multiplying and adding, modulo `2 ^ 64`. Its multiplier is one more than a
multiple of four and its increment is odd, and that alone gives it a full period: from any state it
runs through all the others before it comes back.

* `two_pow_dvd_iterate_affine_sub_iff` is the crux, about such steps on whole numbers: `n` of them
  move every number by as high a power of two as divides `n`.
* `Pcg.after_eq_self_iff` takes it to the states: the generator is back after `n` words exactly when
  `2 ^ 64` divides `n`.
* `Pcg.bijective_after` counts the states, so that none is missed, and `Pcg.exists_after_eq` says
  the same of any two states.
-/

/-! ### Sources after some draws -/

namespace RandomSource

variable {ρ : Type} [RandomSource ρ]

/-- The source once that many words have been drawn. -/
def after (n : Nat) (r : ρ) : ρ := (fun r => (next r).2)^[n] r

theorem after_succ (n : Nat) (r : ρ) : after (n + 1) r = after n (next r).2 := rfl

theorem after_succ' (n : Nat) (r : ρ) : after (n + 1) r = (next (after n r)).2 :=
  Function.iterate_succ_apply' (fun r => (next r).2) n r

theorem after_add (m n : Nat) (r : ρ) : after (m + n) r = after m (after n r) :=
  Function.iterate_add_apply (fun r => (next r).2) m n r

end RandomSource

/-! ### Multiplying and adding -/

/-- A step of a generator, before it is cut off at the width of a word. -/
def affine (a c x : ℤ) : ℤ := a * x + c

/-- What `n` steps come to. -/
theorem mul_iterate_affine (a c x : ℤ) (n : ℕ) :
    (a - 1) * (affine a c)^[n] x + c = a ^ n * ((a - 1) * x + c) := by
  induction n with
  | zero => simp
  | succ n ih =>
    rw [Function.iterate_succ_apply', affine, pow_succ]
    linear_combination a * ih

/-- With a multiplier that is one more than a multiple of four and an odd increment, `n` steps
move every number by as high a power of two as divides `n`. -/
theorem two_pow_dvd_iterate_affine_sub_iff {a c : ℤ} (ha : 4 ∣ a - 1) (hone : a ≠ 1)
    (hc : ¬ 2 ∣ c) (x : ℤ) (k n : ℕ) :
    2 ^ k ∣ (affine a c)^[n] x - x ↔ 2 ^ k ∣ n := by
  have hodd : ¬ (2 : ℤ) ∣ (a - 1) * x + c := by
    have heven : (2 : ℤ) ∣ (a - 1) * x := Dvd.dvd.mul_right (by omega) x
    omega
  have hmul : (a - 1) * ((affine a c)^[n] x - x) = (a ^ n - 1 ^ n) * ((a - 1) * x + c) := by
    linear_combination mul_iterate_affine a c x n
  -- both sides are divisible by two equally often, and `a ^ n - 1` as often as `(a - 1) * n`
  have hcount : emultiplicity 2 (a - 1) + emultiplicity 2 ((affine a c)^[n] x - x) =
      emultiplicity 2 (a - 1) + emultiplicity 2 (n : ℤ) := by
    rw [← emultiplicity_mul Int.prime_two, hmul, emultiplicity_mul Int.prime_two,
      Int.two_pow_sub_pow' n ha (by omega), emultiplicity_eq_zero.2 hodd, add_zero]
  have hfinite : emultiplicity 2 (a - 1) ≠ ⊤ :=
    finiteMultiplicity_iff_emultiplicity_ne_top.1
      (Int.finiteMultiplicity_iff.2 ⟨by decide, by omega⟩)
  have hsame := ENat.add_right_injective_of_ne_top hfinite hcount
  rw [emultiplicity_eq_emultiplicity_iff.1 hsame k]
  exact_mod_cast Iff.rfl

namespace Pcg

open RandomSource

/-! ### The states of the generator -/

@[simp] theorem next_snd (g : Pcg) : (next g).2 = g.step := rfl

/-- One step of the generator is the affine step, modulo `2 ^ 64`. -/
theorem modEq_step (g : Pcg) :
    (g.step.state.toNat : ℤ) ≡ affine multiplier.toNat increment.toNat g.state.toNat
      [ZMOD 2 ^ 64] := by
  have hstep : g.step.state.toNat =
      (g.state.toNat * multiplier.toNat % 2 ^ 64 + increment.toNat) % 2 ^ 64 := by
    show (g.state * multiplier + increment).toNat = _
    rw [UInt64.toNat_add, UInt64.toNat_mul]
  rw [hstep, affine, mul_comm]
  push_cast
  exact (Int.mod_modEq _ _).trans ((Int.mod_modEq _ _).add_right _)

/-- And `n` steps of the generator are `n` affine steps. -/
theorem modEq_after (n : Nat) (g : Pcg) :
    ((after n g).state.toNat : ℤ) ≡ (affine multiplier.toNat increment.toNat)^[n] g.state.toNat
      [ZMOD 2 ^ 64] := by
  induction n with
  | zero => rfl
  | succ n ih =>
    rw [after_succ', Function.iterate_succ_apply']
    exact (modEq_step (after n g)).trans ((ih.mul_left _).add_right _)

theorem ext_modEq {g g' : Pcg} (h : (g.state.toNat : ℤ) ≡ g'.state.toNat [ZMOD 2 ^ 64]) :
    g = g' := by
  have hlt := g.state.toNat_lt
  have hlt' := g'.state.toNat_lt
  have hnat : g.state.toNat = g'.state.toNat := by
    unfold Int.ModEq at h
    omega
  cases g
  cases g'
  exact congrArg Pcg.mk (UInt64.toNat_inj.1 hnat)

/-- The generator is back in a state after `n` words exactly when the number of all states divides
`n`. -/
theorem after_eq_self_iff {n : Nat} {g : Pcg} : after n g = g ↔ 2 ^ 64 ∣ n := by
  have hdvd := two_pow_dvd_iterate_affine_sub_iff (a := multiplier.toNat) (c := increment.toNat)
    (by decide) (by decide) (by decide) g.state.toNat 64 n
  have hafter := modEq_after n g
  rw [← hdvd, ← Int.modEq_iff_dvd]
  constructor
  · intro h
    rw [h] at hafter
    exact hafter
  · intro h
    exact ext_modEq (hafter.trans h.symm)

/-- No two states have the same next state, as it leads back to both of them. -/
theorem step_injective : Function.Injective step := by
  have hround {n : Nat} (hpos : 0 < n) (hn : ∀ g : Pcg, after n g = g) :
      Function.Injective step := by
    obtain ⟨m, rfl⟩ : ∃ m, n = m + 1 := ⟨n - 1, by omega⟩
    intro g g' h
    rw [← hn g, ← hn g', after_succ, after_succ, next_snd, next_snd, h]
  exact hround (Nat.two_pow_pos 64) fun g => after_eq_self_iff.2 (dvd_refl (2 ^ 64))

theorem after_injective (n : Nat) : Function.Injective (after (ρ := Pcg) n) :=
  step_injective.iterate n

/-- Two numbers of words lead to the same state exactly when they differ by rounds through all
states. -/
theorem after_eq_after_iff {m n : Nat} {g : Pcg} :
    after m g = after n g ↔ m ≡ n [MOD 2 ^ 64] := by
  have hback {m n : Nat} (hle : m ≤ n) : after m g = after n g ↔ m ≡ n [MOD 2 ^ 64] := by
    have hsplit : after n g = after m (after (n - m) g) := by
      rw [← after_add, Nat.add_sub_cancel' hle]
    rw [Nat.modEq_iff_dvd' hle, ← after_eq_self_iff (g := g), hsplit, (after_injective m).eq_iff,
      eq_comm]
  rcases Nat.le_total m n with hle | hle
  · exact hback hle
  · rw [eq_comm, hback hle]
    exact Nat.ModEq.comm

/-- **The period is full.** Before a state comes again, all the others have come. -/
theorem bijective_after (g : Pcg) :
    Function.Bijective fun n : Fin (2 ^ 64) => (after n g).state := by
  have hinj : Function.Injective fun n : Fin (2 ^ 64) => (after n g).state.toFin := by
    intro m n h
    have hstate : after m g = after n g := congrArg Pcg.mk (UInt64.toFin_inj.1 h)
    have hmod := after_eq_after_iff.1 hstate
    rw [Nat.ModEq, Nat.mod_eq_of_lt m.isLt, Nat.mod_eq_of_lt n.isLt] at hmod
    exact Fin.ext hmod
  -- there are as many numbers of words as there are states
  have hsurj := Finite.injective_iff_surjective.1 hinj
  refine ⟨fun m n h => hinj (congrArg UInt64.toFin h), fun w => ?_⟩
  obtain ⟨n, hn⟩ := hsurj w.toFin
  exact ⟨n, UInt64.toFin_inj.1 hn⟩

/-- Every state leads to every other, in fewer words than there are states. -/
theorem exists_after_eq (g g' : Pcg) : ∃ n < 2 ^ 64, after n g = g' := by
  obtain ⟨n, hn⟩ := (bijective_after g).2 g'.state
  exact ⟨n, n.isLt, congrArg Pcg.mk hn⟩

/-- Different seeds start in different states. -/
theorem ofSeed_injective : Function.Injective ofSeed := by
  intro seed seed' h
  have hsum := congrArg Pcg.state (step_injective h)
  exact (UInt64.add_right_inj _).1 hsum

end Pcg

end Storyworld
