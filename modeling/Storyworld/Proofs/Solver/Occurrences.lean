import Storyworld.Proofs.Solver.Values
import Storyworld.Solver.Clauses

namespace Storyworld

/-!
# The index of occurrences

Propagation looks at the clauses of a literal only, which it finds by their keys. So it
misses nothing exactly when the keys kept for a literal are those of the clauses that
hold it: `Clauses.Indexed`. The index is made anew by `reindex`, and `indexed_reindex`
says that it is right afterwards. In which order the keys of a literal stand there is said
by `occurrencesOf_reindex`.
-/

namespace Clauses

/-! ### Keys and clauses -/

/-- A clause is got by its key. -/
theorem get_of_mem_keyed {s : Clauses} {key : ClauseKey} {c : Clause} (h : (key, c) ∈ s.keyed) :
    s.get key = c := by
  rw [keyed, List.mem_append, List.mem_map, List.mem_map] at h
  rcases h with ⟨⟨d, i⟩, hd, he⟩ | ⟨⟨d, i⟩, hd, he⟩
  · obtain ⟨rfl, rfl⟩ := Prod.mk.inj he
    rw [List.mem_zipIdx_iff_getElem?, Array.getElem?_toList] at hd
    rw [get, hd]
    rfl
  · obtain ⟨rfl, rfl⟩ := Prod.mk.inj he
    rw [List.mem_zipIdx_iff_getElem?, Array.getElem?_toList] at hd
    rw [get, hd]
    rfl

/-- Every clause has a key. -/
theorem mem_all_iff {s : Clauses} {c : Clause} : c ∈ s.all ↔ ∃ key, (key, c) ∈ s.keyed := by
  -- a clause is in a list exactly when it stands at some place there
  have hzip : ∀ cs : List Clause, c ∈ cs ↔ ∃ i, (c, i) ∈ cs.zipIdx := by
    intro cs
    simp only [List.mem_zipIdx_iff_getElem?]
    exact List.mem_iff_getElem?
  rw [all, List.mem_append, hzip, hzip]
  constructor
  · rintro (⟨i, hi⟩ | ⟨i, hi⟩)
    · exact ⟨.asserted i, List.mem_append_left _ (List.mem_map.2 ⟨(c, i), hi, rfl⟩)⟩
    · exact ⟨.completion i, List.mem_append_right _ (List.mem_map.2 ⟨(c, i), hi, rfl⟩)⟩
  · rintro ⟨key, h⟩
    rw [keyed, List.mem_append, List.mem_map, List.mem_map] at h
    rcases h with ⟨⟨d, i⟩, hd, he⟩ | ⟨⟨d, i⟩, hd, he⟩
    · obtain ⟨-, rfl⟩ := Prod.mk.inj he
      exact Or.inl ⟨i, hd⟩
    · obtain ⟨-, rfl⟩ := Prod.mk.inj he
      exact Or.inr ⟨i, hd⟩

/-! ### The index -/

/-- For each literal of the first `count` atoms the index has the keys of the clauses that
hold it, and for other literals none. -/
def Indexed (s : Clauses) (count : Nat) : Prop :=
  ∀ (l : Literal) (key : ClauseKey),
    key ∈ s.occurrencesOf l ↔ l.atom < count ∧ ∃ c, (key, c) ∈ s.keyed ∧ l ∈ c

/-- The index leads to clauses that there are. -/
theorem Indexed.mem_all {s : Clauses} {count : Nat} (h : s.Indexed count) {l : Literal}
    {key : ClauseKey} (hkey : key ∈ s.occurrencesOf l) : s.get key ∈ s.all := by
  obtain ⟨-, c, hc, -⟩ := (h l key).1 hkey
  rw [get_of_mem_keyed hc, mem_all_iff]
  exact ⟨key, hc⟩

/-- A clause is found through each of its literals. -/
theorem Indexed.exists_key {s : Clauses} {count : Nat} (h : s.Indexed count) {c : Clause}
    (hc : c ∈ s.all) {l : Literal} (hl : l ∈ c) (hlt : l.atom < count) :
    ∃ key ∈ s.occurrencesOf l, s.get key = c := by
  obtain ⟨key, hkey⟩ := mem_all_iff.1 hc
  exact ⟨key, (h l key).2 ⟨hlt, c, hkey, hl⟩, get_of_mem_keyed hkey⟩

/-- To enter a clause takes no place from the table. -/
theorem size_modify_fold (key : ClauseKey) (c : Clause) (table : Array (Array ClauseKey)) :
    (c.foldl (fun t (l : Literal) => t.modify l.index (·.push key)) table).size = table.size := by
  induction c generalizing table with
  | nil => rfl
  | cons l c ih => rw [List.foldl_cons, ih, Array.size_modify]

/-- Entering a key adds it to the keys of the literals of its clause, and to no others. -/
theorem mem_modify_fold {key k : ClauseKey} {c : Clause} {table : Array (Array ClauseKey)}
    {j : Nat} :
    k ∈ (c.foldl (fun t (l : Literal) => t.modify l.index (·.push key)) table)[j]?.getD #[] ↔
      k ∈ table[j]?.getD #[] ∨ j < table.size ∧ k = key ∧ ∃ l ∈ c, l.index = j := by
  induction c generalizing table with
  | nil => simp
  | cons l c ih =>
    rw [List.foldl_cons, ih, Array.size_modify, Array.getElem?_modify]
    by_cases hj : l.index = j
    · rw [if_pos hj]
      rcases Nat.lt_or_ge j table.size with hlt | hge
      · rw [Array.getElem?_eq_getElem hlt]
        simp only [Option.map_some, Option.getD_some, Array.mem_push, List.mem_cons, exists_eq_or_imp,
          hj, hlt, true_and, true_or, and_true]
        exact ⟨fun h => h.elim id fun h => Or.inr h.1, Or.inl⟩
      · -- outside the table nothing is entered
        rw [Array.getElem?_eq_none hge]
        simp only [Option.map_none, Option.getD_none, Nat.not_lt.2 hge, false_and, or_false]
    · rw [if_neg hj]
      simp only [List.mem_cons, exists_eq_or_imp, hj, false_or]

/-- A key is entered at the literals of its clause, and stays where it was before. -/
theorem mem_enter_fold {k : ClauseKey} {entries : List (ClauseKey × Clause)}
    {table : Array (Array ClauseKey)} {j : Nat} :
    k ∈ (entries.foldl enter table)[j]?.getD #[] ↔
      k ∈ table[j]?.getD #[] ∨
        j < table.size ∧ ∃ c, (k, c) ∈ entries ∧ ∃ l ∈ c, l.index = j := by
  induction entries generalizing table with
  | nil => simp
  | cons e entries ih =>
    obtain ⟨key, c⟩ := e
    rw [List.foldl_cons, ih, enter, size_modify_fold, mem_modify_fold]
    constructor
    · -- the key was there before, or is of this entry, or of a later one
      rintro ((h | ⟨hlt, rfl, hl⟩) | ⟨hlt, d, hd, hl⟩)
      · exact Or.inl h
      · exact Or.inr ⟨hlt, c, List.mem_cons_self, hl⟩
      · exact Or.inr ⟨hlt, d, List.mem_cons_of_mem _ hd, hl⟩
    · rintro (h | ⟨hlt, d, hd, hl⟩)
      · exact Or.inl (Or.inl h)
      · rcases List.mem_cons.1 hd with e | hd
        · obtain ⟨rfl, rfl⟩ := Prod.mk.inj e
          exact Or.inl (Or.inr ⟨hlt, rfl, hl⟩)
        · exact Or.inr ⟨hlt, d, hd, hl⟩

@[simp] theorem keyed_reindex (s : Clauses) (count : Nat) : (s.reindex count).keyed = s.keyed := rfl

@[simp] theorem all_reindex (s : Clauses) (count : Nat) : (s.reindex count).all = s.all := rfl

@[simp] theorem all_withCompletion (s : Clauses) (cs : List Clause) :
    (s.withCompletion cs).all = s.asserted.toList ++ cs := rfl

/-- A literal has a place in the table exactly when its atom is one of those. -/
theorem index_lt_iff {l : Literal} {count : Nat} : l.index < 2 * count ↔ l.atom < count := by
  have := Bool.toNat_le l.positive
  rw [Literal.index]
  omega

/-- An index that is made anew is right. -/
theorem indexed_reindex (s : Clauses) (count : Nat) : (s.reindex count).Indexed count := by
  intro l key
  rw [keyed_reindex, occurrencesOf, Array.mem_toList_iff]
  show key ∈ (s.keyed.foldl enter (Array.replicate (2 * count) #[]))[l.index]?.getD #[] ↔ _
  -- the table starts with no keys
  have hblank : key ∉ (Array.replicate (2 * count) (#[] : Array ClauseKey))[l.index]?.getD #[] := by
    rw [Array.getElem?_replicate]
    split <;> simp
  rw [mem_enter_fold, or_iff_right hblank, Array.size_replicate, index_lt_iff]
  refine and_congr_right fun _ => exists_congr fun c => and_congr_right fun _ => ?_
  constructor
  · rintro ⟨m, hm, e⟩
    exact Literal.index_injective e ▸ hm
  · intro h
    exact ⟨l, h, rfl⟩

/-! ### The order of the keys -/

/-- A clause is entered at a literal as often as it holds it, behind what was there. -/
theorem toList_modify_fold (key : ClauseKey) (c : Clause) (table : Array (Array ClauseKey))
    (l : Literal) :
    (c.foldl (fun t (m : Literal) => t.modify m.index (·.push key)) table)[l.index]?.map
        Array.toList =
      table[l.index]?.map fun keys => keys.toList ++ List.replicate (c.count l) key := by
  induction c generalizing table with
  | nil => simp
  | cons m c ih =>
    rw [List.foldl_cons, ih, Array.getElem?_modify]
    -- each occurrence of the literal writes the key once more
    by_cases hm : m = l
    · rw [if_pos (congrArg Literal.index hm), Option.map_map, hm, List.count_cons_self,
        List.replicate_succ]
      congr 1
      funext keys
      simp
    · rw [if_neg fun e => hm (Literal.index_injective e), List.count_cons_of_ne hm]

/-- Clauses are entered in their order, each as often as it holds the literal. -/
theorem toList_enter_fold (entries : List (ClauseKey × Clause)) (table : Array (Array ClauseKey))
    (l : Literal) :
    (entries.foldl enter table)[l.index]?.map Array.toList =
      table[l.index]?.map fun keys =>
        keys.toList ++ entries.flatMap fun e => List.replicate (e.2.count l) e.1 := by
  induction entries generalizing table with
  | nil => simp
  | cons e entries ih =>
    have hentered := toList_modify_fold e.1 e.2 table l
    rw [List.foldl_cons, ih, enter, List.flatMap_cons]
    generalize e.2.foldl (fun t (m : Literal) => t.modify m.index (·.push e.1)) table = entered
      at hentered ⊢
    -- past the end of the table nothing is written
    cases ht : table[l.index]? with
    | none =>
      rw [ht, Option.map_none, Option.map_eq_none_iff] at hentered
      rw [hentered, Option.map_none, Option.map_none]
    | some keys =>
      rw [ht, Option.map_some] at hentered
      obtain ⟨keys', hkeys', he⟩ := Option.map_eq_some_iff.1 hentered
      rw [hkeys', Option.map_some, Option.map_some, he, List.append_assoc]

/-- The keys of a literal stand in the order of the clauses, each as often as its clause holds the
literal. -/
theorem occurrencesOf_reindex (s : Clauses) (count : Nat) (l : Literal) :
    (s.reindex count).occurrencesOf l =
      if l.atom < count then s.keyed.flatMap fun e => List.replicate (e.2.count l) e.1 else [] := by
  have hentered := toList_enter_fold s.keyed (Array.replicate (2 * count) #[]) l
  show ((s.keyed.foldl enter (Array.replicate (2 * count) #[]))[l.index]?.getD #[]).toList = _
  rw [Array.getElem?_replicate] at hentered
  simp only [index_lt_iff] at hentered
  -- the table begins empty, with two places for each atom
  by_cases hlt : l.atom < count
  · rw [if_pos hlt, Option.map_some] at hentered
    obtain ⟨keys, hkeys, he⟩ := Option.map_eq_some_iff.1 hentered
    rw [if_pos hlt, hkeys, Option.getD_some, he]
    exact List.nil_append _
  · rw [if_neg hlt, Option.map_none, Option.map_eq_none_iff] at hentered
    rw [if_neg hlt, hentered, Option.getD_none]

end Clauses

end Storyworld
