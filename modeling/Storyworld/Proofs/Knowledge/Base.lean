import Storyworld.Knowledge.Base

namespace Storyworld

/-!
# Domains and predicates

The laws of domains, which are maps that remember the order of their entries, and of
changes to one predicate of a knowledge base.
-/

namespace Domain

variable {d : Domain} {a b : Arguments} {x y : Atom}

theorem getElem?_order (d : Domain) (i : Nat) : d.order[i]? = d.toList[i]? :=
  Array.getElem?_toList.symm

/-- Arguments have the position at which they stand in the list. -/
theorem positions_eq_some_iff {i : Nat} :
    d.positions[a]? = some i ↔ ∃ x, d.toList[i]? = some (a, x) := by
  rw [d.positions_iff, getElem?_order, Option.map_eq_some_iff]
  constructor
  · rintro ⟨⟨b, x⟩, he, rfl⟩
    exact ⟨x, he⟩
  · rintro ⟨x, he⟩
    exact ⟨(a, x), he, rfl⟩

/-- Arguments have the atom they stand with in the list. -/
theorem get?_eq_some_iff : d.get? a = some x ↔ (a, x) ∈ d.toList := by
  rw [get?, Option.bind_eq_some_iff, List.mem_iff_getElem?]
  constructor
  · rintro ⟨i, hi, hx⟩
    obtain ⟨y, hy⟩ := positions_eq_some_iff.1 hi
    rw [getElem?_order, hy] at hx
    obtain rfl := Option.some.inj hx
    exact ⟨i, hy⟩
  · rintro ⟨i, hi⟩
    refine ⟨i, positions_eq_some_iff.2 ⟨x, hi⟩, ?_⟩
    rw [getElem?_order, hi]
    rfl

/-- Arguments have no entry exactly when they have no position. -/
theorem get?_eq_none_iff : d.get? a = none ↔ d.positions[a]? = none := by
  constructor
  · intro h
    cases hi : d.positions[a]? with
    | none => rfl
    | some i =>
      -- a position in the index is a place in the order, so the lookup would succeed
      have hlt := positions_lt hi
      have hsome : d.get? a = some (d.order[i]).2 := by
        rw [get?, hi, Option.bind_some, Array.getElem?_eq_getElem hlt]
        rfl
      rw [h] at hsome
      cases hsome
  · intro h
    rw [get?, h]
    rfl

theorem get?_default : (default : Domain).get? a = none := by
  cases h : (default : Domain).get? a with
  | none => rfl
  | some x => cases get?_eq_some_iff.1 h

/-- Arguments that have an entry keep it. -/
theorem insert_of_get? (h : d.get? a = some y) (x : Atom) : (d.insert a x).2 = d := by
  rw [insert, dif_neg]
  intro hnone
  rw [get?_eq_none_iff.2 hnone] at h
  cases h

/-- A new entry is the last one. -/
theorem toList_insert (h : d.get? a = none) (x : Atom) :
    (d.insert a x).2.toList = d.toList ++ [(a, x)] := by
  rw [insert, dif_pos (get?_eq_none_iff.1 h)]
  exact Array.toList_push

/-- New arguments are found with what was put in for them. -/
theorem get?_insert_self (h : d.get? a = none) (x : Atom) : (d.insert a x).2.get? a = some x := by
  rw [get?_eq_some_iff, toList_insert h]
  simp

/-- To put something in for some arguments does not concern others. -/
theorem get?_insert_of_ne (hab : a ≠ b) (x : Atom) : (d.insert a x).2.get? b = d.get? b := by
  cases h : d.get? a with
  | some y => rw [insert_of_get? h]
  | none =>
    -- compared by what stands in the list, which has one more entry, of `a`
    refine Option.ext fun y => ?_
    rw [get?_eq_some_iff, get?_eq_some_iff, toList_insert h, List.mem_append, List.mem_singleton]
    exact or_iff_left fun e => hab (congrArg Prod.fst e).symm

/-- Every entry was there before, or is the one that was put in. -/
theorem mem_toList_insert {e : Arguments × Atom} (h : e ∈ (d.insert a x).2.toList) :
    e ∈ d.toList ∨ e = (a, x) := by
  cases hget : d.get? a with
  | some y => exact Or.inl (insert_of_get? hget x ▸ h)
  | none =>
    rw [toList_insert hget, List.mem_append, List.mem_singleton] at h
    exact h

/-- Arguments without an entry cannot be taken out. -/
theorem remove_of_get? (h : d.get? a = none) : d.remove a = (none, d) := by
  unfold remove
  split
  · rfl
  · rename_i i hi
    rw [get?_eq_none_iff.1 h] at hi
    cases hi

/-- What is taken out is what stands at the position that the index has. -/
theorem toList_remove {i : Nat} (h : d.positions[a]? = some i) :
    (d.remove a).2.toList = d.toList.eraseIdx i := by
  unfold remove
  split
  · rename_i hnone
    rw [h] at hnone
    cases hnone
  · rename_i j hj
    obtain rfl := Option.some.inj (h.symm.trans hj)
    exact Array.toList_eraseIdx

/-- What is taken out is what was found. -/
theorem remove_fst (d : Domain) (a : Arguments) : (d.remove a).1 = d.get? a := by
  unfold remove
  split
  · rename_i h
    exact (get?_eq_none_iff.2 h).symm
  · rfl

/-- To take something out adds no entry. -/
theorem mem_toList_remove {e : Arguments × Atom} (h : e ∈ (d.remove a).2.toList) :
    e ∈ d.toList := by
  cases hpos : d.positions[a]? with
  | none => rwa [remove_of_get? (get?_eq_none_iff.2 hpos)] at h
  | some i =>
    rw [toList_remove hpos] at h
    exact List.mem_of_mem_eraseIdx h

/-- Arguments that were taken out are not found any more. -/
theorem get?_remove_self (d : Domain) (a : Arguments) : (d.remove a).2.get? a = none := by
  rw [get?_eq_none_iff]
  unfold remove
  split
  · rename_i h
    exact h
  · show ((d.positions.erase a).map _)[a]? = none
    rw [Std.TreeMap.getElem?_map, Std.TreeMap.getElem?_erase, if_pos Std.ReflCmp.compare_self]
    rfl

/-- To take some arguments out does not concern others. -/
theorem get?_remove_of_ne (hab : a ≠ b) : (d.remove a).2.get? b = d.get? b := by
  refine Option.ext fun y => ?_
  rw [get?_eq_some_iff, get?_eq_some_iff]
  refine ⟨mem_toList_remove, fun h => ?_⟩
  -- where there is nothing to remove the domain is the same
  cases hpos : d.positions[a]? with
  | none => rwa [remove_of_get? (get?_eq_none_iff.2 hpos)]
  | some i =>
    rw [toList_remove hpos, List.mem_eraseIdx_iff_getElem?]
    obtain ⟨j, hj⟩ := List.mem_iff_getElem?.1 h
    -- one place is erased, and `b` stands at another
    refine ⟨j, ?_, hj⟩
    rintro rfl
    obtain ⟨x, hx⟩ := positions_eq_some_iff.1 hpos
    rw [hj] at hx
    exact hab (congrArg Prod.fst (Option.some.inj hx)).symm

/-- No arguments stand twice in a domain. -/
theorem nodup_toList (d : Domain) : (d.toList.map Prod.fst).Nodup := by
  refine List.pairwise_iff_getElem.2 fun i j hi hj hij heq => ?_
  have hpos : ∀ k (hk : k < (d.toList.map Prod.fst).length),
      d.positions[(d.toList.map Prod.fst)[k]]? = some k := fun k hk => by
    rw [d.positions_iff, ← Array.getElem?_toList, ← List.getElem?_map]
    exact List.getElem?_eq_getElem hk
  -- both are the position of the arguments
  have hsame := hpos i hi
  rw [heq, hpos j hj] at hsame
  exact Nat.ne_of_lt hij (Option.some.inj hsame).symm

/-- A domain is empty exactly when nothing is found in it. -/
theorem size_eq_zero_iff : d.size = 0 ↔ ∀ a, d.get? a = none := by
  constructor
  · intro h a
    cases hget : d.get? a with
    | none => rfl
    | some x =>
      have hmem := get?_eq_some_iff.1 hget
      rw [toList, Array.eq_empty_of_size_eq_zero h] at hmem
      cases hmem
  · intro h
    rcases Nat.eq_zero_or_pos d.size with hzero | hpos
    · exact hzero
    · have hmem : d.order[0] ∈ d.toList := Array.mem_toList_iff.2 (Array.getElem_mem hpos)
      have hsome := get?_eq_some_iff.2 (show (d.order[0].1, d.order[0].2) ∈ d.toList from hmem)
      rw [h] at hsome
      cases hsome

end Domain

namespace KnowledgeBase

variable {kb : KnowledgeBase} {p q : PredicateId}

theorem predicate_of_lt (h : p < kb.predicates.size) : kb.predicate p = kb.predicates[p] := by
  rw [predicate, Array.getElem?_eq_getElem h]
  rfl

/-- A number that no predicate has is read as an empty predicate. -/
theorem predicate_of_ge (h : kb.predicates.size ≤ p) : kb.predicate p = default := by
  rw [predicate, Array.getElem?_eq_none h]
  rfl

/-- A change to a predicate is seen when it is looked up. -/
theorem predicate_modify_self (f : Predicate → Predicate) (h : p < kb.predicates.size) :
    (kb.modifyPredicate p f).predicate p = f (kb.predicate p) := by
  show ((kb.predicates.modify p f)[p]?).getD default = _
  rw [Array.getElem?_modify, if_pos rfl, predicate, Array.getElem?_eq_getElem h]
  rfl

/-- A change to a predicate does not concern others. -/
theorem predicate_modify_of_ne (f : Predicate → Predicate) (h : p ≠ q) :
    (kb.modifyPredicate p f).predicate q = kb.predicate q := by
  show ((kb.predicates.modify p f)[q]?).getD default = _
  rw [Array.getElem?_modify, if_neg h]
  rfl

end KnowledgeBase

end Storyworld
