import Storyworld.Logic.Semantics

namespace Storyworld

/-!
# Valuations that grow by literals

A search only ever makes literals true whose atoms are open, and takes such literals
back. So a valuation is known from the valuation it grew from and the literals in
between:

* `assignAll` makes literals true in turn, and `release_assignAll` takes them back;
* `openCount_assignAll` counts what is left open;
* `extends_assignAll` says which interpretations agree with the result.
-/

namespace Valuation

/-- The atom belongs to the valuation and has no value yet. -/
def Open (v : Valuation) (a : Atom) : Prop := v[a]? = some none

instance (v : Valuation) (a : Atom) : Decidable (v.Open a) :=
  inferInstanceAs (Decidable (_ = _))

/-- Literals made true one after the other. -/
def assignAll (v : Valuation) (ls : List Literal) : Valuation := ls.foldl assign v

@[simp] theorem assignAll_nil (v : Valuation) : v.assignAll [] = v := rfl

@[simp] theorem assignAll_cons (v : Valuation) (l : Literal) (ls : List Literal) :
    v.assignAll (l :: ls) = (v.assign l).assignAll ls := rfl

/-- Literals that are made true in two lots are made true in one. -/
theorem assignAll_append (v : Valuation) (ls ms : List Literal) :
    v.assignAll (ls ++ ms) = (v.assignAll ls).assignAll ms := List.foldl_append ..

@[simp] theorem size_assignAll (v : Valuation) (ls : List Literal) :
    (v.assignAll ls).size = v.size := by
  induction ls generalizing v with
  | nil => rfl
  | cons l ls ih => rw [assignAll_cons, ih, size_assign]

/-! ### Open atoms -/

/-- An open atom is one that there is. -/
theorem Open.lt {v : Valuation} {a : Atom} (h : v.Open a) : a < v.size :=
  (Array.getElem?_eq_some_iff.1 h).1

/-- An open atom has no value. -/
theorem Open.value? {v : Valuation} {a : Atom} (h : v.Open a) : v.value? a = none := by
  unfold Open at h
  rw [Valuation.value?, h]
  rfl

theorem open_of_value? {v : Valuation} {a : Atom} (hlt : a < v.size) (h : v.value? a = none) :
    v.Open a := by
  unfold Valuation.value? at h
  unfold Open
  rw [Array.getElem?_eq_getElem hlt] at h ⊢
  exact congrArg some (by simpa using h)

/-- The atoms to decide are the open ones, without top. -/
theorem mem_openAtoms {v : Valuation} {a : Atom} :
    a ∈ v.openAtoms ↔ a ≠ Atom.top ∧ v.Open a := by
  simp only [openAtoms, List.mem_filter, List.mem_range, Bool.and_eq_true, bne_iff_ne,
    beq_iff_eq, ne_eq]
  exact ⟨fun h => h.2, fun h => ⟨Open.lt h.2, h⟩⟩

theorem getElem?_assign_of_ne (v : Valuation) {l : Literal} {a : Atom} (h : l.atom ≠ a) :
    (v.assign l)[a]? = v[a]? := Array.getElem?_setIfInBounds_ne h

/-- To make a literal true closes its atom and no other. -/
theorem open_assign_iff {v : Valuation} {l : Literal} {a : Atom} :
    (v.assign l).Open a ↔ a ≠ l.atom ∧ v.Open a := by
  unfold Open
  by_cases h : l.atom = a
  · subst h
    simp only [assign, Array.getElem?_setIfInBounds_self, ne_eq, not_true_eq_false, false_and,
      iff_false]
    split <;> simp
  · rw [getElem?_assign_of_ne v h]
    exact ⟨fun ho => ⟨fun e => h e.symm, ho⟩, fun ho => ho.2⟩

/-- A literal that is made true takes one from the open atoms. -/
theorem openCount_assign {v : Valuation} {l : Literal} (h : v.Open l.atom) :
    (v.assign l).openCount + 1 = v.openCount := by
  have hlt := h.lt
  have hnone : v[l.atom] = none := by
    have h' : v[l.atom]? = some none := h
    rw [Array.getElem?_eq_getElem hlt] at h'
    exact Option.some.inj h'
  have hpos : 0 < v.count none := Array.count_pos_iff.2 (hnone ▸ Array.getElem_mem hlt)
  -- the entry of the atom was the only one to change, and it was `none`
  unfold openCount assign
  rw [Array.setIfInBounds_def, dif_pos hlt, Array.count_set hlt, hnone]
  simp only [beq_self_eq_true, if_true, reduceCtorEq, beq_iff_eq, if_false]
  omega

/-! ### Literals that fit

Literals fit a valuation when their atoms are open in it and no two of them share an
atom. These are the literals a search may make true. -/

/-- The literals have open atoms, each its own. -/
structure Fits (v : Valuation) (ls : List Literal) : Prop where
  isOpen : ∀ l ∈ ls, v.Open l.atom
  distinct : (ls.map Literal.atom).Nodup

theorem fits_nil (v : Valuation) : v.Fits [] := ⟨by simp, by simp⟩

/-- Literals fit if the first has an open atom and the others fit once it is true. -/
theorem fits_cons {v : Valuation} {l : Literal} {ls : List Literal} :
    v.Fits (l :: ls) ↔ v.Open l.atom ∧ (v.assign l).Fits ls := by
  constructor
  · rintro ⟨ho, hd⟩
    have hd' := List.nodup_cons.1 hd
    refine ⟨ho l List.mem_cons_self, ⟨fun m hm => ?_, hd'.2⟩⟩
    rw [open_assign_iff]
    refine ⟨fun e => hd'.1 ?_, ho m (List.mem_cons_of_mem _ hm)⟩
    exact e ▸ List.mem_map_of_mem hm
  · rintro ⟨hl, ho, hd⟩
    -- an atom that is open after `l` was made true is not that of `l`
    have hne : ∀ m ∈ ls, m.atom ≠ l.atom := fun m hm => (open_assign_iff.1 (ho m hm)).1
    refine ⟨fun m hm => ?_, List.nodup_cons.2 ⟨fun hm => ?_, hd⟩⟩
    · rcases List.mem_cons.1 hm with rfl | hm
      · exact hl
      · exact (open_assign_iff.1 (ho m hm)).2
    · obtain ⟨m, hm, e⟩ := List.mem_map.1 hm
      exact hne m hm e

/-- Literals fit in two lots if the second fits once the first is true. -/
theorem fits_append {v : Valuation} {ls ms : List Literal} :
    v.Fits (ls ++ ms) ↔ v.Fits ls ∧ (v.assignAll ls).Fits ms := by
  induction ls generalizing v with
  | nil => simp [fits_nil]
  | cons l ls ih => rw [List.cons_append, fits_cons, ih, fits_cons, assignAll_cons, and_assoc]

theorem fits_singleton {v : Valuation} {l : Literal} : v.Fits [l] ↔ v.Open l.atom := by
  rw [fits_cons]
  exact and_iff_left (fits_nil _)

/-- Each literal that is made true takes one atom away from those that are open. -/
theorem openCount_assignAll {v : Valuation} {ls : List Literal} (h : v.Fits ls) :
    (v.assignAll ls).openCount + ls.length = v.openCount := by
  induction ls generalizing v with
  | nil => rfl
  | cons l ls ih =>
    have hl := openCount_assign (fits_cons.1 h).1
    have hls := ih (fits_cons.1 h).2
    rw [assignAll_cons, List.length_cons]
    omega

/-- What is not among the atoms stays as it was. -/
theorem getElem?_assignAll_of_notMem {v : Valuation} {ls : List Literal} {a : Atom}
    (h : a ∉ ls.map Literal.atom) : (v.assignAll ls)[a]? = v[a]? := by
  induction ls generalizing v with
  | nil => rfl
  | cons l ls ih =>
    rw [List.map_cons, List.mem_cons, not_or] at h
    rw [assignAll_cons, ih h.2, getElem?_assign_of_ne v (Ne.symm h.1)]

/-- An atom that none of the literals has keeps its value. -/
theorem value?_assignAll_of_notMem {v : Valuation} {ls : List Literal} {a : Atom}
    (h : a ∉ ls.map Literal.atom) : (v.assignAll ls).value? a = v.value? a := by
  rw [value?, getElem?_assignAll_of_notMem h, value?]

/-- Literals that fit are all true in the end, as none of them undoes another. -/
theorem value?_assignAll_of_mem {v : Valuation} {ls : List Literal} {l : Literal}
    (h : v.Fits ls) (hl : l ∈ ls) : (v.assignAll ls).value? l.atom = some l.positive := by
  induction ls generalizing v with
  | nil => cases hl
  | cons m ls ih =>
    rw [assignAll_cons]
    rcases List.mem_cons.1 hl with rfl | hl
    · rw [value?_assignAll_of_notMem (List.nodup_cons.1 h.distinct).1]
      exact value?_assign_self (fits_cons.1 h).1.lt
    · exact ih (fits_cons.1 h).2 hl

/-- A valuation that has grown by literals gives an atom the value it had before, or the
one that a literal says. -/
theorem value?_assignAll_cases {v : Valuation} {ls : List Literal} {a : Atom} {b : Bool}
    (h : (v.assignAll ls).value? a = some b) : v.value? a = some b ∨ (⟨a, b⟩ : Literal) ∈ ls := by
  induction ls generalizing v with
  | nil => exact Or.inl h
  | cons l ls ih =>
    rw [assignAll_cons] at h
    rcases ih h with hv | hm
    · by_cases hla : a = l.atom
      · subst hla
        -- a literal outside the valuation changes nothing, so `l` is not one
        have hlt : l.atom < v.size := by
          rcases Nat.lt_or_ge l.atom v.size with hlt | hge
          · exact hlt
          · have hnone : (v.assign l)[l.atom]? = none :=
              Array.getElem?_eq_none (by rw [size_assign]; exact hge)
            rw [value?, hnone] at hv
            cases hv
        rw [value?_assign_self hlt] at hv
        cases hv
        exact Or.inr List.mem_cons_self
      · exact Or.inl (by rwa [value?_assign_of_ne v hla] at hv)
    · exact Or.inr (List.mem_cons_of_mem _ hm)

/-! ### Taking literals back -/

/-- What was made true last can be taken back. Top cannot, as it never loses its value. -/
theorem release_assign {v : Valuation} {l : Literal} (h : v.Open l.atom)
    (htop : l.atom ≠ Atom.top) : (v.assign l).release l.atom = v := by
  apply Array.ext_getElem?
  intro a
  rw [release, if_neg htop]
  by_cases ha : l.atom = a
  · subst ha
    have h' : v[l.atom]? = some none := h
    rw [Array.getElem?_setIfInBounds_self, size_assign, if_pos h.lt, h']
  · rw [Array.getElem?_setIfInBounds_ne ha, getElem?_assign_of_ne v ha]

/-- To take an atom back does not touch another one. -/
theorem release_assign_comm {v : Valuation} {l : Literal} {a : Atom} (h : a ≠ l.atom) :
    (v.assign l).release a = (v.release a).assign l := by
  unfold release assign
  split
  · rfl
  · exact (Array.setIfInBounds_comm _ _ h.symm)

/-- To take an atom back does not touch literals with other atoms. -/
theorem release_assignAll_comm {v : Valuation} {ls : List Literal} {a : Atom}
    (h : a ∉ ls.map Literal.atom) : (v.assignAll ls).release a = (v.release a).assignAll ls := by
  induction ls generalizing v with
  | nil => rfl
  | cons l ls ih =>
    rw [List.map_cons, List.mem_cons, not_or] at h
    rw [assignAll_cons, ih h.2, release_assign_comm h.1, assignAll_cons]

/-- To take literals back that were made true gives the valuation from before. They may be
taken back in the order they were made true, since no two of them share an atom. -/
theorem release_assignAll {v : Valuation} {ls : List Literal} (h : v.Fits ls)
    (htop : ∀ l ∈ ls, l.atom ≠ Atom.top) :
    ls.foldl (fun w l => w.release l.atom) (v.assignAll ls) = v := by
  induction ls generalizing v with
  | nil => rfl
  | cons l ls ih =>
    have hl := (fits_cons.1 h).1
    have hd := (List.nodup_cons.1 h.distinct).1
    have hls : v.Fits ls :=
      ⟨fun m hm => h.isOpen m (List.mem_cons_of_mem _ hm), (List.nodup_cons.1 h.distinct).2⟩
    -- the first literal is taken back first, past those that were made true after it
    rw [assignAll_cons, List.foldl_cons, release_assignAll_comm hd,
      release_assign hl (htop l List.mem_cons_self)]
    exact ih hls fun m hm => htop m (List.mem_cons_of_mem _ hm)

end Valuation

/-! ### Interpretations of a valuation that has grown -/

namespace Interpretation

/-- All of the literals are true. -/
def SatisfiesAll (i : Interpretation) (ls : List Literal) : Prop := ∀ l ∈ ls, i.Satisfies l

instance (i : Interpretation) (ls : List Literal) : Decidable (i.SatisfiesAll ls) :=
  inferInstanceAs (Decidable (∀ l ∈ ls, _))

theorem satisfiesAll_cons {i : Interpretation} {l : Literal} {ls : List Literal} :
    i.SatisfiesAll (l :: ls) ↔ i.Satisfies l ∧ i.SatisfiesAll ls := List.forall_mem_cons

theorem satisfiesAll_singleton {i : Interpretation} {l : Literal} :
    i.SatisfiesAll [l] ↔ i.Satisfies l := List.forall_mem_singleton

/-- All literals of both lists are true exactly when all of each are. -/
theorem satisfiesAll_append {i : Interpretation} {ls ms : List Literal} :
    i.SatisfiesAll (ls ++ ms) ↔ i.SatisfiesAll ls ∧ i.SatisfiesAll ms := List.forall_mem_append

/-- An interpretation that agrees with a valuation and in which the literals are true agrees with
the valuation that they lead to. -/
theorem extends_assignAll {i : Interpretation} {v : Valuation} {ls : List Literal}
    (hv : i.Extends v) (hls : i.SatisfiesAll ls) : i.Extends (v.assignAll ls) := by
  intro a b h
  rcases Valuation.value?_assignAll_cases h with h | h
  · exact hv a b h
  · exact hls _ h

end Interpretation

/-! ### Clauses that become false -/

namespace Clause

/-- A clause becomes false only through a literal that denies one of its own. -/
theorem falsified_assign {v : Valuation} {c : Clause} {l : Literal} (hl : v.Open l.atom)
    (h : c.standing (v.assign l) = .falsified) :
    c.standing v = .falsified ∨ l.negate ∈ c := by
  rw [standing_eq_falsified_iff] at h
  by_cases hn : l.negate ∈ c
  · exact Or.inr hn
  · refine Or.inl (standing_eq_falsified_iff.2 fun m hm => ?_)
    have hm' := h m hm
    by_cases ha : m.atom = l.atom
    · -- of the two literals of this atom, `l` is true now and `l.negate` is not in the clause
      rcases Literal.eq_or_eq_negate ha with e | e
      · rw [ha, Valuation.value?_assign_self hl.lt, e] at hm'
        cases hp : l.positive <;> simp [hp] at hm'
      · exact absurd (e ▸ hm) hn
    · rwa [Valuation.value?_assign_of_ne v ha] at hm'

end Clause

end Storyworld
