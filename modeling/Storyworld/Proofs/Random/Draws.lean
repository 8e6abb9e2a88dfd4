import Storyworld.Random.Source

namespace Storyworld.RandomSource

/-!
# What random draws can be

Whatever the words of a source are, a number drawn below `n` is below `n`, and an item
picked from a list belongs to the list. A coin that never or always falls on one side does
so whatever the words are. So a search that decides by random draws may rely on them
without knowing the source.
-/

variable {ρ : Type} [RandomSource ρ]

theorem accept?_lt {n k : Nat} (hn : 0 < n) {word : UInt32} (h : accept? n word = some k) :
    k < n := by
  unfold accept? at h
  simp only [Option.ite_none_right_eq_some, Option.some.injEq] at h
  obtain ⟨-, rfl⟩ := h
  have hword : word.toNat < Nat.pow 2 32 := word.toNat_lt
  exact Nat.div_lt_of_lt_mul (Nat.mul_lt_mul_of_pos_right hword hn)

theorem belowWithin?_lt {n tries k : Nat} (hn : 0 < n) {r : ρ}
    (h : (belowWithin? n tries r).1 = some k) : k < n := by
  induction tries generalizing r with
  | zero => cases h
  | succ tries ih =>
    unfold belowWithin? at h
    dsimp only at h
    split at h
    · rename_i j hj
      cases h
      exact accept?_lt hn hj
    · -- the word was not accepted, and another is drawn
      exact ih h

/-- A number drawn below `n` is below `n`. -/
theorem below_lt {n : Nat} (hn : 0 < n) (r : ρ) : (below n r).1 < n := by
  unfold below
  dsimp only
  cases h : (belowWithin? n patience r).1 with
  | none => exact hn
  | some k => exact belowWithin?_lt hn h

theorem mem_of_pickFrom {α : Type} {xs : List α} {count : Nat} {kept : Option α} {r : ρ} {x : α}
    (h : (pickFrom count kept xs r).1 = some x) : kept = some x ∨ x ∈ xs := by
  induction xs generalizing count kept r with
  | nil => exact Or.inl h
  | cons y ys ih =>
    unfold pickFrom at h
    dsimp only at h
    rcases ih h with hk | hm
    · split at hk
      · cases hk
        exact Or.inr List.mem_cons_self
      · exact Or.inl hk
    · exact Or.inr (List.mem_cons_of_mem _ hm)

theorem pickFrom_some {α : Type} {xs : List α} {count : Nat} {y : α} {r : ρ} :
    ∃ x, (pickFrom count (some y) xs r).1 = some x := by
  induction xs generalizing count y r with
  | nil => exact ⟨y, rfl⟩
  | cons z zs ih =>
    unfold pickFrom
    dsimp only
    split
    · -- whether the item is taken instead or not, one is kept
      exact ih
    · exact ih

/-- An item that is picked from a list belongs to it. -/
theorem mem_of_pick {α : Type} {xs : List α} {r : ρ} {x : α} (h : (pick xs r).1 = some x) :
    x ∈ xs := by
  rcases mem_of_pickFrom h with hk | hm
  · cases hk
  · exact hm

/-- The first item is taken for sure, and from then on some item is kept. -/
theorem eq_nil_of_pick {α : Type} {xs : List α} {r : ρ} (h : (pick xs r).1 = none) : xs = [] := by
  cases xs with
  | nil => rfl
  | cons x xs =>
    exfalso
    unfold pick pickFrom at h
    dsimp only at h
    -- the first draw is below one
    have hzero : (below (0 + 1) r).1 = 0 := by
      have := below_lt (n := 0 + 1) (by omega) r
      omega
    rw [hzero, if_pos rfl] at h
    obtain ⟨y, hy⟩ : ∃ y, (pickFrom (0 + 1) (some x) xs (below (0 + 1) r).2).1 = some y :=
      pickFrom_some
    rw [hy] at h
    cases h

/-! ### Coins without a choice -/

/-- Zero has a sign, and there are no other numbers equal to it. -/
theorem unpack_of_eq_zero {p : Float} (h : (p == 0) = true) : ∃ sign, p.toModel.unpack = .zero sign := by
  have h : (p.toModel.unpack.compare (0 : Float).toModel.unpack == some .eq) = true := h
  have hzero : (0 : Float).toModel.unpack = .zero .positive := rfl
  rw [hzero] at h
  -- only zeros compare equal to zero
  cases hp : p.toModel.unpack with
  | zero sign => exact ⟨sign, rfl⟩
  | notANumber =>
    rw [hp] at h
    cases h
  | infinity sign =>
    rw [hp] at h
    cases sign <;> cases h
  | finite sign mantissa exponent hpos =>
    rw [hp] at h
    cases sign <;> cases h

theorem toUInt64_of_eq_zero {p : Float} (h : (p == 0) = true) : (p * wordSpan).toUInt64 = 0 := by
  obtain ⟨sign, hsign⟩ := unpack_of_eq_zero h
  have hmul : p * wordSpan =
      ⟨.pack (.mul .binary64 p.toModel.unpack wordSpan.toModel.unpack)⟩ := rfl
  rw [hmul, hsign]
  cases sign <;> decide +kernel

/-- A coin of probability zero never comes out true. -/
theorem coin_of_zero {p : Float} (h : (p == 0) = true) (r : ρ) : (coin p r).1 = false := by
  unfold coin
  split
  · rename_i hone
    -- what is equal to zero is not equal to one
    obtain ⟨sign, hsign⟩ := unpack_of_eq_zero h
    have hone : (p.toModel.unpack.compare (1 : Float).toModel.unpack == some .eq) = true := hone
    rw [hsign] at hone
    cases sign <;> exact absurd hone (by decide +kernel)
  · show decide ((next64 r).1 < (p * wordSpan).toUInt64) = false
    rw [toUInt64_of_eq_zero h]
    exact decide_eq_false (UInt64.not_lt_zero)

/-- A coin of probability one always comes out true. -/
theorem coin_of_one {p : Float} (h : (p == 1) = true) (r : ρ) : (coin p r).1 = true := by
  unfold coin
  rw [if_pos h]

end Storyworld.RandomSource
