import Storyworld.Logic.Clause

namespace Storyworld

/-!
# What clauses say

An interpretation gives a value to every atom. It is a model of some clauses if it
makes top true and a literal of each clause. The statements here tie the operations
on clauses to models:

* `isTrue_canonical` and `clashes_canonical_iff`: the canonical form says the same as
  the clause, and clashes exactly when the clause holds a literal and its negation;
* `standing_eq_falsified_iff` and `standing_eq_forces_iff`: what a valuation makes of a
  clause, said of its literals;
* `not_isTrue_of_falsified` and `satisfies_of_forces`: what that means for the models
  that agree with the valuation.
-/

/-- A value for every atom. -/
abbrev Interpretation := Nat → Bool

namespace Interpretation

/-- The literal is true. -/
def Satisfies (i : Interpretation) (l : Literal) : Prop := i l.atom = l.positive

/-- Some literal of the clause is true. -/
def IsTrue (i : Interpretation) (c : Clause) : Prop := ∃ l ∈ c, i.Satisfies l

/-- Top is true, and so is every clause. -/
def IsModel (i : Interpretation) (cs : List Clause) : Prop :=
  i Atom.top = true ∧ ∀ c ∈ cs, i.IsTrue c

/-- The atoms that have a value in the valuation have the same one in the interpretation. -/
def Extends (i : Interpretation) (v : Valuation) : Prop :=
  ∀ a b, v.value? a = some b → i a = b

instance (i : Interpretation) (l : Literal) : Decidable (i.Satisfies l) :=
  inferInstanceAs (Decidable (_ = _))

theorem satisfies_negate {i : Interpretation} {l : Literal} :
    i.Satisfies l.negate ↔ ¬ i.Satisfies l := by
  unfold Satisfies
  cases h : i l.atom <;> cases hl : l.positive <;> simp [h, hl]

/-- A clause that holds a literal and its negation is true in every interpretation. -/
theorem isTrue_of_clash {i : Interpretation} {c : Clause} {l : Literal}
    (hl : l ∈ c) (hn : l.negate ∈ c) : i.IsTrue c := by
  by_cases h : i.Satisfies l
  · exact ⟨l, hl, h⟩
  · exact ⟨l.negate, hn, satisfies_negate.2 h⟩

@[simp] theorem isTrue_canonical {i : Interpretation} {c : Clause} :
    i.IsTrue c.canonical ↔ i.IsTrue c := by
  simp [IsTrue]

end Interpretation

namespace Clause

/-! ### Clashing literals -/

/-- Two literals of one atom stand next to each other in an ordered clause: nothing fits
between their indices. -/
theorem clashes_of_mem {c : Clause} (h : c.Increasing) {l : Literal}
    (hl : l ∈ c) (hn : l.negate ∈ c) : c.clashes = true := by
  induction c with
  | nil => cases hl
  | cons x c ih =>
    have hx : ∀ m ∈ c, x.index < m.index := (List.pairwise_cons.1 h).1
    have hc : Increasing c := (List.pairwise_cons.1 h).2
    cases c with
    | nil =>
      rw [List.mem_singleton] at hl hn
      exact absurd (hn.trans hl.symm) (Literal.negate_ne l)
    | cons y c =>
      simp only [clashes, Bool.or_eq_true, beq_iff_eq]
      -- `x` is one of the two, and then `y` is the other; or both come later.
      have hy : ∀ m ∈ y :: c, y.index ≤ m.index := by
        intro m hm
        rcases List.mem_cons.1 hm with rfl | hm
        · exact Nat.le_refl _
        · exact Nat.le_of_lt ((List.pairwise_cons.1 hc).1 m hm)
      have hxy := hx y List.mem_cons_self
      have adjacent : ∀ m ∈ y :: c, m.atom = x.atom → x.atom = y.atom := by
        intro m hm hatom
        have hm' := hy m hm
        have hp := Bool.toNat_le m.positive
        simp only [Literal.index] at hxy hm'
        have := Bool.toNat_le x.positive
        have := Bool.toNat_le y.positive
        omega
      rcases List.mem_cons.1 hl with rfl | hl
      · rcases List.mem_cons.1 hn with hn | hn
        · exact absurd hn (Literal.negate_ne l)
        · exact Or.inl (adjacent _ hn rfl)
      · rcases List.mem_cons.1 hn with hn | hn
        · exact Or.inl (adjacent l hl (by simp [← hn]))
        · exact Or.inr (ih hc hl hn)

theorem exists_of_clashes {c : Clause} (h : c.Increasing) (hc : c.clashes = true) :
    ∃ l ∈ c, l.negate ∈ c := by
  induction c with
  | nil => simp [clashes] at hc
  | cons x c ih =>
    cases c with
    | nil => simp [clashes] at hc
    | cons y c =>
      simp only [clashes, Bool.or_eq_true, beq_iff_eq] at hc
      rcases hc with hatom | hc
      · have hne : x ≠ y := by
          rintro rfl
          exact Nat.lt_irrefl _ ((List.pairwise_cons.1 h).1 x List.mem_cons_self)
        rcases Literal.eq_or_eq_negate hatom with e | e
        · exact absurd e hne
        · exact ⟨y, by simp, by simp [← e]⟩
      · obtain ⟨l, hl, hn⟩ := ih (List.pairwise_cons.1 h).2 hc
        exact ⟨l, List.mem_cons_of_mem _ hl, List.mem_cons_of_mem _ hn⟩

/-- The canonical form clashes exactly when the clause holds a literal and its negation. -/
theorem clashes_canonical_iff {c : Clause} :
    c.canonical.clashes = true ↔ ∃ l ∈ c, l.negate ∈ c := by
  constructor
  · intro h
    obtain ⟨l, hl, hn⟩ := exists_of_clashes (increasing_canonical c) h
    exact ⟨l, mem_canonical.1 hl, mem_canonical.1 hn⟩
  · rintro ⟨l, hl, hn⟩
    exact clashes_of_mem (increasing_canonical c) (mem_canonical.2 hl) (mem_canonical.2 hn)

/-! ### The standing of a clause -/

/-- A valuation makes a literal true or false, or gives it no value. -/
theorem value?_cases (v : Valuation) (l : Literal) :
    v.value? l.atom = some l.positive ∨ v.value? l.atom = some (!l.positive) ∨
      v.value? l.atom = none := by
  cases h : v.value? l.atom with
  | none => simp
  | some b => cases b <;> cases l.positive <;> simp

@[simp] theorem standingFrom_none_nil (v : Valuation) : standingFrom v none [] = .falsified := rfl

@[simp] theorem standingFrom_some_nil (v : Valuation) (k : Literal) :
    standingFrom v (some k) [] = .forces k := rfl

theorem standingFrom_cons (v : Valuation) (k : Option Literal) (l : Literal) (c : Clause) :
    standingFrom v k (l :: c) =
      match v.value? l.atom, k with
      | some b, _ => if b = l.positive then .settled else standingFrom v k c
      | none, none => standingFrom v (some l) c
      | none, some _ => .settled := rfl

theorem standingFrom_cons_true {v : Valuation} {k : Option Literal} {l : Literal} {c : Clause}
    (h : v.value? l.atom = some l.positive) : standingFrom v k (l :: c) = .settled := by
  simp [standingFrom_cons, h]

theorem standingFrom_cons_false {v : Valuation} {k : Option Literal} {l : Literal} {c : Clause}
    (h : v.value? l.atom = some (!l.positive)) :
    standingFrom v k (l :: c) = standingFrom v k c := by
  cases hp : l.positive <;> simp [standingFrom_cons, h, hp]

theorem standingFrom_none_cons_open {v : Valuation} {l : Literal} {c : Clause}
    (h : v.value? l.atom = none) :
    standingFrom v none (l :: c) = standingFrom v (some l) c := by
  simp [standingFrom_cons, h]

theorem standingFrom_some_cons_open {v : Valuation} {k l : Literal} {c : Clause}
    (h : v.value? l.atom = none) : standingFrom v (some k) (l :: c) = .settled := by
  simp [standingFrom_cons, h]

/-- With a candidate in hand a clause is never falsified. -/
theorem standingFrom_some_ne_falsified {v : Valuation} {k : Literal} {c : Clause} :
    standingFrom v (some k) c ≠ .falsified := by
  induction c with
  | nil => simp
  | cons x c ih =>
    rcases value?_cases v x with h | h | h
    · simp [standingFrom_cons_true h]
    · rw [standingFrom_cons_false h]; exact ih
    · simp [standingFrom_some_cons_open h]

/-- With a candidate in hand a clause forces just that literal, and does so when the others
are false. -/
theorem standingFrom_some_eq_forces_iff {v : Valuation} {k l : Literal} {c : Clause} :
    standingFrom v (some k) c = .forces l ↔
      l = k ∧ ∀ m ∈ c, v.value? m.atom = some (!m.positive) := by
  induction c with
  | nil => simp [eq_comm]
  | cons x c ih =>
    rcases value?_cases v x with h | h | h
    · simp [standingFrom_cons_true h, h]
    · rw [standingFrom_cons_false h, ih]; simp [h]
    · simp [standingFrom_some_cons_open h, h]

/-- A clause is falsified when every literal is false. -/
theorem standing_eq_falsified_iff {v : Valuation} {c : Clause} :
    c.standing v = .falsified ↔ ∀ l ∈ c, v.value? l.atom = some (!l.positive) := by
  unfold standing
  induction c with
  | nil => simp
  | cons x c ih =>
    rcases value?_cases v x with h | h | h
    · simp [standingFrom_cons_true h, h]
    · rw [standingFrom_cons_false h, ih]; simp [h]
    · simp [standingFrom_none_cons_open h, standingFrom_some_ne_falsified, h]

/-- A clause forces a literal that has no value when the literals before and after it are
false. -/
theorem standing_eq_forces_iff {v : Valuation} {c : Clause} {l : Literal} :
    c.standing v = .forces l ↔
      ∃ before after, c = before ++ l :: after ∧ v.value? l.atom = none ∧
        ∀ m ∈ before ++ after, v.value? m.atom = some (!m.positive) := by
  unfold standing
  induction c with
  | nil => simp
  | cons x c ih =>
    rcases value?_cases v x with h | h | h
    · -- A true literal is neither the open one nor among the false ones.
      rw [standingFrom_cons_true h]
      refine ⟨nofun, ?_⟩
      rintro ⟨before, after, he, hl, hm⟩
      cases before with
      | nil => simp_all
      | cons y before =>
        simp only [List.cons_append, List.cons.injEq] at he
        have := hm x (by simp [he.1])
        simp [h] at this
    · rw [standingFrom_cons_false h, ih]
      constructor
      · rintro ⟨before, after, rfl, hl, hm⟩
        refine ⟨x :: before, after, rfl, hl, ?_⟩
        simp only [List.cons_append, List.mem_cons, forall_eq_or_imp]
        exact ⟨h, hm⟩
      · rintro ⟨before, after, he, hl, hm⟩
        cases before with
        | nil => simp_all
        | cons y before =>
          simp only [List.cons_append, List.cons.injEq] at he
          refine ⟨before, after, he.2, hl, fun m hmem => hm m ?_⟩
          simp only [List.cons_append, List.mem_cons]
          exact Or.inr hmem
    · rw [standingFrom_none_cons_open h, standingFrom_some_eq_forces_iff]
      constructor
      · rintro ⟨rfl, hm⟩
        exact ⟨[], c, rfl, h, hm⟩
      · rintro ⟨before, after, he, hl, hm⟩
        cases before with
        | nil =>
          simp only [List.nil_append, List.cons.injEq] at he
          obtain ⟨rfl, rfl⟩ := he
          exact ⟨rfl, hm⟩
        | cons y before =>
          simp only [List.cons_append, List.cons.injEq] at he
          have := hm x (by simp [he.1])
          rw [h] at this
          cases this

end Clause

namespace Interpretation

/-- A clause that a valuation falsifies is false in every interpretation that extends it. -/
theorem not_isTrue_of_falsified {i : Interpretation} {v : Valuation} {c : Clause}
    (hv : i.Extends v) (h : c.standing v = .falsified) : ¬ i.IsTrue c := by
  rintro ⟨l, hl, hs⟩
  have := hv _ _ (Clause.standing_eq_falsified_iff.1 h l hl)
  unfold Satisfies at hs
  rw [hs] at this
  cases hp : l.positive <;> simp [hp] at this

/-- A literal that a true clause forces is true in every interpretation that extends the
valuation. -/
theorem satisfies_of_forces {i : Interpretation} {v : Valuation} {c : Clause} {l : Literal}
    (hv : i.Extends v) (hc : i.IsTrue c) (h : c.standing v = .forces l) : i.Satisfies l := by
  obtain ⟨before, after, rfl, _, hm⟩ := Clause.standing_eq_forces_iff.1 h
  obtain ⟨m, hmem, hs⟩ := hc
  by_cases hml : m = l
  · exact hml ▸ hs
  · have hmem : m ∈ before ++ after := by
      simp only [List.mem_append, List.mem_cons] at hmem ⊢
      rcases hmem with h | h | h
      · exact Or.inl h
      · exact absurd h hml
      · exact Or.inr h
    have := hv _ _ (hm m hmem)
    unfold Satisfies at hs
    rw [hs] at this
    cases hp : m.positive <;> simp [hp] at this

end Interpretation

end Storyworld
