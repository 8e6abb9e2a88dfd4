import Mathlib.Data.List.Pairwise
import Storyworld.Proofs.Solver.Counting
import Storyworld.Proofs.Solver.Repetition

namespace Storyworld

/-!
# Bounds that are asserted again

A bound on the number of true literals is a few clauses (`directClauses`) if it is zero or one, or
if there are not more literals than may be true. To assert it again is then to assert the same
clauses again, which changes nothing. A larger bound is not like that (`Reachable.addAtMost_again`):
each time it is asserted it makes registers of its own, so each time there are new clauses, just as
many as there were the first time (`counterSize`).

The count is exact because all the clauses of a counter are new, none is a tautology and no two are
the same (`Adds`). Nearly all of them hold a register that was made right before. The only ones that
do not are those that refuse a literal when the count is full. So the counter runs as long as no
clause speaks both of the registers before a literal and of a literal to come (`Ahead`).
-/

namespace Clause

variable {c d : Clause} {l : Literal}

/-- A literal that only one of two clauses holds tells their canonical forms apart. -/
theorem canonical_ne (hc : l ∈ c) (hd : l ∉ d) : c.canonical ≠ d.canonical := by
  intro h
  apply hd
  rw [← mem_canonical, ← h]
  exact mem_canonical.2 hc

/-- A clause about different atoms is no tautology. -/
theorem clashes_eq_false (h : c.Pairwise fun l m => l.atom ≠ m.atom) :
    c.canonical.clashes = false := by
  rw [← Bool.not_eq_true, clashes_canonical_iff]
  rintro ⟨l, hl, hn⟩
  have hsymm : Std.Symm fun l m : Literal => l.atom ≠ m.atom := ⟨fun _ _ hne => hne.symm⟩
  exact h.forall hl hn (Literal.negate_ne l).symm rfl

/-- Two literals of different atoms are no tautology. -/
theorem clashes_pair {m : Literal} (h : l.atom ≠ m.atom) :
    (canonical [l, m]).clashes = false := clashes_eq_false (by simpa using h)

end Clause

namespace Solver

open Action

variable {ρ : Type} {s t u : Solver ρ} {ls : List Literal} {bound : Nat}

/-! ### Clauses that are there already -/

/-- The clauses of a bound that needs no registers. -/
def directClauses (bound : Nat) (ls : List Literal) : List Clause :=
  if ls.length ≤ bound then []
  else if bound = 0 then ls.map fun l => [l.negate]
  else pairwise ls

/-- A bound that needs no registers is the assertion of its clauses. -/
theorem addAtMost_direct (h : bound ≤ 1 ∨ (Clause.canonical ls).length ≤ bound) :
    addAtMost (ρ := ρ) bound ls = addClauses (directClauses bound (Clause.canonical ls)) := by
  unfold addAtMost directClauses
  dsimp only
  split
  · rfl
  · rename_i hmany
    have hbound : bound ≤ 1 := h.resolve_right hmany
    match bound, hbound with
    | 0, _ => rfl
    | 1, _ => rfl

/-- Clauses that went through are remembered, all of them. -/
theorem after_addClauses_holds (cs : List Clause) (s : Solver ρ) :
    After (addClauses cs) s (fun _ t => ∀ c ∈ cs, t.Holds (.clause c)) fun _ _ => True := by
  unfold addClauses
  refine after_forM (I := fun ds (t : Solver ρ) => ∀ d ∈ ds, t.Holds (.clause d)) ?_ ?_
  · intro ds c es _ t hds
    apply after_bind.2
    have hkeeps := preserves_grows_addClause (s := t) c t (Grows.refl t)
    apply ((after_addClause_holds c t).and hkeeps).mono _ fun _ _ _ => trivial
    intro stored u h
    apply after_pure.2
    rw [List.forall_mem_append, List.forall_mem_singleton]
    exact ⟨fun d hd => h.2.holds (hds d hd), h.1⟩
  · simp

/-- Clauses that are remembered may be asserted again, and the solver stays as it is. -/
theorem addClauses_eq {cs : List Clause} (h : ∀ c ∈ cs, s.Holds (.clause c)) :
    addClauses cs s = .ok () s := by
  have hrun : After (addClauses cs) s (fun _ t => t = s) fun _ _ => False := by
    unfold addClauses
    refine after_forM (I := fun _ t => t = s) ?_ rfl
    rintro ds c es hcs t rfl
    apply after_bind.2
    apply (h c (by simp [hcs])).after_addClause.imp_done
    intro stored u hu
    exact after_pure.2 hu
  obtain ⟨_, t, ht, rfl⟩ := hrun.exists_ok
  exact ht

/-! ### Clauses that are all new -/

/-- To store the clauses is to store every one of them. -/
structure Adds (cs : List Clause) (s : Solver ρ) : Prop where
  plain : ∀ c ∈ cs, c.canonical.clashes = false
  unknown : ∀ c ∈ cs, c.canonical ∉ s.clauses.asserted
  apart : cs.Pairwise fun c d => c.canonical ≠ d.canonical

/-- Where every clause is new there are so many more. -/
theorem Adds.size_storeAll {cs : List Clause} (h : Adds cs s) :
    (storeAll cs s).clauses.asserted.size = s.clauses.asserted.size + cs.length := by
  induction cs generalizing s with
  | nil => rfl
  | cons c cs ih =>
    obtain ⟨hplain, hplains⟩ := List.forall_mem_cons.1 h.plain
    obtain ⟨hunknown, hunknowns⟩ := List.forall_mem_cons.1 h.unknown
    obtain ⟨hapart, haparts⟩ := List.pairwise_cons.1 h.apart
    rcases store_cases c s with ⟨hclash, -⟩ | ⟨hmem, -⟩ | ⟨key, clauses, -, hpush, hst⟩
    · simp [hplain] at hclash
    · exact absurd hmem hunknown
    · have hasserted : (s.store c).2.clauses.asserted =
          s.clauses.asserted.push c.canonical := by rw [hst]; exact hpush
      -- the others are new still, since they differ from the one that was just stored
      have hrest : Adds cs (s.store c).2 := by
        refine ⟨hplains, fun d hd hmem => ?_, haparts⟩
        rw [hasserted, Array.mem_push] at hmem
        rcases hmem with hmem | e
        · exact hunknowns d hd hmem
        · exact hapart d hd e.symm
      show (storeAll cs (s.store c).2).clauses.asserted.size = _
      rw [ih hrest, hasserted, Array.size_push, List.length_cons]
      omega

/-! ### The clauses of a counter -/

section Counter

variable {x p : Literal} {count : Nat} {before now : List Literal}
  {pairs : List (Literal × Literal)} {c : Clause}

/-- To carry a count takes two clauses for each register but the first. -/
theorem length_carry (x p : Literal) (pairs : List (Literal × Literal)) :
    (carry x p pairs).length = 2 * pairs.length := by
  induction pairs generalizing p with
  | nil => rfl
  | cons q pairs ih =>
    simp only [carry, List.length_cons, ih]
    omega

/-- The first literal takes one clause for each register. -/
theorem length_firstCount (hnow : now ≠ []) : (firstCount x now).length = now.length := by
  cases now with
  | nil => exact absurd rfl hnow
  | cons r now =>
    simp [firstCount]

/-- A later literal takes two clauses for each register, and one to be refused when the count is
full. -/
theorem length_nextCount (hlen : before.length = now.length) (hnow : now ≠ []) :
    (nextCount x before now).length = 2 * now.length + 1 := by
  cases now with
  | nil => exact absurd rfl hnow
  | cons r now =>
    cases before with
    | nil => simp at hlen
    | cons p before =>
      simp only [List.length_cons, Nat.add_right_cancel_iff] at hlen
      simp [nextCount, length_carry, hlen]
      omega

/-- A clause that carries the count on holds the register that it raises. Its other literals are the
negations of the literal that is counted and of registers before it. -/
theorem of_mem_carry (hc : c ∈ carry x p pairs) :
    (∃ q ∈ pairs, q.2 ∈ c) ∧
      ∀ l ∈ c, l = x.negate ∨ l = p.negate ∨ ∃ q ∈ pairs, l = q.1.negate ∨ l = q.2 := by
  induction pairs generalizing p with
  | nil => simp [carry] at hc
  | cons q pairs ih =>
    simp only [carry, List.mem_cons] at hc
    -- two clauses for the first pair, and the others go on from there
    rcases hc with rfl | rfl | hc
    · simp
    · simp
    · obtain ⟨⟨r, hr, hrc⟩, hlits⟩ := ih hc
      refine ⟨⟨r, by simp [hr], hrc⟩, fun l hl => ?_⟩
      rcases hlits l hl with rfl | rfl | ⟨r, hr, hl⟩
      · simp
      · simp
      · exact Or.inr (Or.inr ⟨r, by simp [hr], hl⟩)

/-- The registers after a literal are new, and those before it are about other atoms. -/
structure Paired (x : Literal) (count : Nat) (pairs : List (Literal × Literal)) : Prop where
  old : x.atom < count
  before : ∀ q ∈ pairs, q.1.atom < count ∧ x.atom ≠ q.1.atom
  now : ∀ q ∈ pairs, count ≤ q.2.atom
  apart : pairs.Pairwise fun q r => q.2 ≠ r.2

/-- What holds of the registers holds of those further up. -/
theorem Paired.of_cons {q : Literal × Literal} (h : Paired x count (q :: pairs)) :
    Paired x count pairs where
  old := h.old
  before r hr := h.before r (by simp [hr])
  now r hr := h.now r (by simp [hr])
  apart := (List.pairwise_cons.1 h.apart).2

/-- The first of the registers made now is in no clause that raises a later one. -/
theorem Paired.not_mem {q : Literal × Literal} (h : Paired x count (q :: pairs))
    (hp : p.atom < count) (hc : c ∈ carry x p pairs) : q.2 ∉ c := by
  intro hq
  have hnew : count ≤ q.2.atom := h.now q (by simp)
  have hold := h.old
  -- the register is newer than all that the clause speaks of, but for the registers of later pairs
  rcases (of_mem_carry hc).2 q.2 hq with e | e | ⟨r, hr, e | e⟩
  · simp only [e, Literal.atom_negate] at hnew
    omega
  · simp only [e, Literal.atom_negate] at hnew
    omega
  · have hbefore := (h.before r (by simp [hr])).1
    simp only [e, Literal.atom_negate] at hnew
    omega
  · exact (List.pairwise_cons.1 h.apart).1 r hr e

/-- A clause that carries a count is no tautology, as its literals have different atoms. -/
theorem Paired.plain (h : Paired x count pairs) (hp : p.atom < count) (hne : x.atom ≠ p.atom)
    (hc : c ∈ carry x p pairs) : c.canonical.clashes = false := by
  induction pairs generalizing p with
  | nil => simp [carry] at hc
  | cons q pairs ih =>
    obtain ⟨hq, hxq⟩ := h.before q (by simp)
    have hnew : count ≤ q.2.atom := h.now q (by simp)
    have hold := h.old
    simp only [carry, List.mem_cons] at hc
    -- the literals of such a clause are of different atoms
    rcases hc with rfl | rfl | hc
    · exact Clause.clashes_pair (show q.1.atom ≠ q.2.atom by omega)
    · apply Clause.clashes_eq_false
      simp
      omega
    · exact ih h.of_cons hq hxq hc

/-- No two clauses that carry a count are the same, as each pair has a new register of its own. -/
theorem Paired.pairwise (h : Paired x count pairs) (hp : p.atom < count) :
    (carry x p pairs).Pairwise fun c d => c.canonical ≠ d.canonical := by
  induction pairs generalizing p with
  | nil => simp [carry]
  | cons q pairs ih =>
    obtain ⟨hq, hxq⟩ := h.before q (by simp)
    have hnew : count ≤ q.2.atom := h.now q (by simp)
    have hold := h.old
    refine List.pairwise_cons.2 ⟨?_, List.pairwise_cons.2 ⟨?_, ih h.of_cons hq⟩⟩
    · intro d hd
      rcases List.mem_cons.1 hd with rfl | hd
      · -- only the second clause speaks of the literal that is counted
        apply Ne.symm
        apply Clause.canonical_ne (l := x.negate) (by simp)
        rw [List.mem_pair]
        rintro (e | e)
        · have e := congrArg Literal.atom e
          exact hxq e
        · have e := congrArg Literal.atom e
          simp only [Literal.atom_negate] at e
          omega
      · exact Clause.canonical_ne (l := q.2) (by simp) (h.not_mem hq hd)
    · intro d hd
      exact Clause.canonical_ne (l := q.2) (by simp) (h.not_mem hq hd)

/-- The clauses at the first literal are all new. -/
theorem adds_firstCount (hbelow : ∀ c ∈ s.clauses.asserted, ∀ l ∈ c, l.atom < count)
    (hx : x.atom < count) (hnow : ∀ r ∈ now, count ≤ r.atom) (hnodup : now.Nodup) :
    Adds (firstCount x now) s := by
  have hmem : ∀ c ∈ firstCount x now, ∃ r ∈ now, c = [x.negate, r] ∨ c = [r.negate] := by
    intro c hc
    simp only [firstCount, List.mem_append, List.mem_map] at hc
    rcases hc with ⟨r, hr, rfl⟩ | ⟨r, hr, rfl⟩
    · exact ⟨r, List.mem_of_mem_take hr, Or.inl rfl⟩
    · exact ⟨r, List.mem_of_mem_drop hr, Or.inr rfl⟩
  refine ⟨fun c hc => ?_, fun c hc hstored => ?_, ?_⟩
  · obtain ⟨r, hr, rfl | rfl⟩ := hmem c hc
    · have hnew := hnow r hr
      exact Clause.clashes_pair (show x.atom ≠ r.atom by omega)
    · apply Clause.clashes_eq_false
      simp
  · obtain ⟨r, hr, e⟩ := hmem c hc
    have hnew := hnow r hr
    -- a clause that was stored before does not speak of a new register
    have hold : r.atom < count := by
      rcases e with rfl | rfl
      · exact hbelow _ hstored r (by simp)
      · exact hbelow _ hstored r.negate (by simp)
    omega
  · cases now with
    | nil => simp [firstCount]
    | cons r now =>
      show ([x.negate, r] :: now.map fun r => [r.negate]).Pairwise _
      refine List.pairwise_cons.2 ⟨?_, ?_⟩
      · intro d hd
        obtain ⟨q, hq, rfl⟩ := List.mem_map.1 hd
        apply Clause.canonical_ne (l := x.negate) (by simp)
        have hnew := hnow q (by simp [hq])
        rw [List.mem_singleton]
        intro e
        have e := congrArg Literal.atom e
        simp only [Literal.atom_negate] at e
        omega
      · rw [List.pairwise_map]
        apply (List.nodup_cons.1 hnodup).2.imp
        intro q r hne
        apply Clause.canonical_ne (l := q.negate) (by simp)
        rw [List.mem_singleton]
        intro e
        exact hne (by rw [← Literal.negate_negate q, e, Literal.negate_negate])

/-- A clause with a new atom was not stored before. -/
theorem canonical_not_mem_asserted (hbelow : ∀ c ∈ s.clauses.asserted, ∀ l ∈ c, l.atom < count)
    (hc : ∃ l ∈ c, count ≤ l.atom) : c.canonical ∉ s.clauses.asserted := by
  intro hstored
  obtain ⟨l, hl, hle⟩ := hc
  have hlt := hbelow _ hstored l (Clause.mem_canonical.2 hl)
  omega

/-- Every clause that carries a count holds a register that was just made. -/
theorem Paired.exists_new (h : Paired x count pairs) (hc : c ∈ carry x p pairs) :
    ∃ l ∈ c, count ≤ l.atom := by
  obtain ⟨⟨q, hq, hqc⟩, -⟩ := of_mem_carry hc
  exact ⟨q.2, hqc, h.now q hq⟩

section Step

variable {r full : Literal}

/-- The clauses at a literal after the first: the first register is raised or kept, the count is
carried on, and the literal is refused when the count is full. -/
theorem nextCount_eq (hzip : before.zip now = (p, r) :: pairs) (hne : before ≠ []) :
    nextCount x before now =
      [x.negate, r] :: [p.negate, r] :: (carry x p pairs ++
        [[x.negate, (before.getLast hne).negate]]) := by
  unfold nextCount
  rw [hzip, List.drop_length_sub_one hne]
  rfl

/-- No clause of a step is a tautology, also the one that refuses the literal. -/
theorem Paired.plain_step (h : Paired x count ((p, r) :: pairs)) (hxf : x.atom ≠ full.atom)
    (hc : c ∈ [x.negate, r] :: [p.negate, r] :: (carry x p pairs ++ [[x.negate, full.negate]])) :
    c.canonical.clashes = false := by
  obtain ⟨hp, hxp⟩ : p.atom < count ∧ x.atom ≠ p.atom := h.before (p, r) (by simp)
  have hold := h.old
  have hnew : count ≤ r.atom := h.now (p, r) (by simp)
  simp only [List.mem_cons, List.mem_append, List.not_mem_nil, or_false] at hc
  rcases hc with rfl | rfl | hc | rfl
  · exact Clause.clashes_pair (show x.atom ≠ r.atom by omega)
  · exact Clause.clashes_pair (show p.atom ≠ r.atom by omega)
  · exact h.of_cons.plain hp hxp hc
  · exact Clause.clashes_pair hxf

/-- A clause that raises or keeps the first register is unlike those after it. -/
theorem Paired.canonical_ne (h : Paired x count ((p, r) :: pairs)) (hf : full.atom < count)
    (q : Literal) (hc : c ∈ carry x p pairs ++ [[x.negate, full.negate]]) :
    Clause.canonical [q, r] ≠ c.canonical := by
  have hold := h.old
  have hp : p.atom < count := (h.before (p, r) (by simp)).1
  have hnew : count ≤ r.atom := h.now (p, r) (by simp)
  apply Clause.canonical_ne (l := r) (by simp)
  rcases List.mem_append.1 hc with hc | hc
  · exact h.not_mem hp hc
  · rw [List.mem_singleton.1 hc, List.mem_pair]
    rintro (rfl | rfl)
    · exact Nat.not_le_of_lt hold hnew
    · exact Nat.not_le_of_lt hf hnew

/-- No two clauses of a step are the same. -/
theorem Paired.pairwise_step (h : Paired x count ((p, r) :: pairs)) (hf : full.atom < count) :
    ([x.negate, r] :: [p.negate, r] :: (carry x p pairs ++ [[x.negate, full.negate]])).Pairwise
      fun c d : Clause => c.canonical ≠ d.canonical := by
  obtain ⟨hp, hxp⟩ : p.atom < count ∧ x.atom ≠ p.atom := h.before (p, r) (by simp)
  have hold := h.old
  have hnew : count ≤ r.atom := h.now (p, r) (by simp)
  refine List.pairwise_cons.2 ⟨fun d hd => ?_, List.pairwise_cons.2
    ⟨fun d hd => h.canonical_ne hf _ hd, List.pairwise_append.2 ⟨h.of_cons.pairwise hp,
      List.pairwise_singleton .., fun c hc d hd => ?_⟩⟩⟩
  · rcases List.mem_cons.1 hd with rfl | hd
    · -- only the first clause speaks of the literal that is counted
      apply Clause.canonical_ne (l := x.negate) (by simp)
      rw [List.mem_pair]
      rintro (e | rfl)
      · have e := congrArg Literal.atom e
        exact hxp e
      · exact Nat.not_le_of_lt hold hnew
    · exact h.canonical_ne hf _ hd
  · obtain ⟨l, hl, hle⟩ := h.of_cons.exists_new hc
    apply Clause.canonical_ne hl
    rw [List.mem_singleton.1 hd, List.mem_pair]
    rintro (rfl | rfl)
    · exact Nat.not_le_of_lt hold hle
    · exact Nat.not_le_of_lt hf hle

end Step

/-- The clauses at a later literal are all new, if no clause yet speaks of it and of the registers
before it. -/
theorem adds_nextCount (hbelow : ∀ c ∈ s.clauses.asserted, ∀ l ∈ c, l.atom < count)
    (hpairs : Paired x count (before.zip now)) (hlen : before.length = now.length)
    (hahead : ∀ c ∈ s.clauses.asserted, ∀ r ∈ before, r.negate ∈ c → x.negate ∉ c) :
    Adds (nextCount x before now) s := by
  have hbefore : ∀ r ∈ before, r.atom < count ∧ x.atom ≠ r.atom := by
    intro r hr
    rw [← List.map_fst_zip (Nat.le_of_eq hlen)] at hr
    obtain ⟨q, hq, rfl⟩ := List.mem_map.1 hr
    exact hpairs.before q hq
  cases hzip : before.zip now with
  | nil =>
    have hnone : nextCount x before now = [] := by
      unfold nextCount
      rw [hzip]
    rw [hnone]
    exact ⟨by simp, by simp, List.Pairwise.nil⟩
  | cons q pairs =>
    obtain ⟨p, r⟩ := q
    rw [hzip] at hpairs
    have hnew : count ≤ r.atom := hpairs.now (p, r) (by simp)
    have hne : before ≠ [] := by
      rintro rfl
      simp at hzip
    have hfull := List.getLast_mem hne
    obtain ⟨hf, hxf⟩ := hbefore _ hfull
    -- all clauses but the last hold a new register, and the last one is ahead of what was counted
    rw [nextCount_eq hzip hne]
    refine ⟨fun c hc => hpairs.plain_step hxf hc, fun c hc => ?_, hpairs.pairwise_step hf⟩
    simp only [List.mem_cons, List.mem_append, List.not_mem_nil, or_false] at hc
    rcases hc with rfl | rfl | hc | rfl
    · exact canonical_not_mem_asserted hbelow ⟨r, by simp, hnew⟩
    · exact canonical_not_mem_asserted hbelow ⟨r, by simp, hnew⟩
    · exact canonical_not_mem_asserted hbelow (hpairs.of_cons.exists_new hc)
    · intro hstored
      exact hahead _ hstored _ hfull (by simp) (by simp)

/-- The clauses of a counter speak of the literal that is counted and of registers. -/
theorem of_mem_countClauses {registers : Option (List Literal)}
    (hc : c ∈ countClauses x registers now) {l : Literal} (hl : l ∈ c) :
    l = x.negate ∨ ∃ r ∈ registers.getD [] ++ now, l.atom = r.atom := by
  cases registers with
  | none =>
    simp only [countClauses, firstCount, List.mem_append, List.mem_map] at hc
    rcases hc with ⟨r, hr, rfl⟩ | ⟨r, hr, rfl⟩
    · have hr := List.mem_of_mem_take hr
      rcases List.mem_pair.1 hl with rfl | rfl
      · exact Or.inl rfl
      · exact Or.inr ⟨l, by simp [hr], rfl⟩
    · have hr := List.mem_of_mem_drop hr
      rw [List.mem_singleton.1 hl]
      exact Or.inr ⟨r, by simp [hr], rfl⟩
  | some before =>
    have hzip : ∀ q ∈ before.zip now, q.1 ∈ before ∧ q.2 ∈ now := fun q hq => List.of_mem_zip hq
    simp only [countClauses, nextCount] at hc
    split at hc
    · simp at hc
    · rename_i p r rest hrest
      rw [hrest] at hzip
      obtain ⟨hp, hr⟩ := hzip (p, r) (by simp)
      simp only [List.cons_append, List.mem_cons, List.mem_append, List.mem_map] at hc
      -- raised by the literal, kept from before, carried, or refused as the count is full
      rcases hc with rfl | rfl | hc | ⟨f, hf, rfl⟩
      · rcases List.mem_pair.1 hl with rfl | rfl
        · exact Or.inl rfl
        · exact Or.inr ⟨l, by simp [hr], rfl⟩
      · rcases List.mem_pair.1 hl with rfl | rfl
        · exact Or.inr ⟨p, by simp [hp], rfl⟩
        · exact Or.inr ⟨l, by simp [hr], rfl⟩
      · rcases (of_mem_carry hc).2 l hl with rfl | rfl | ⟨q, hq, rfl | rfl⟩
        · exact Or.inl rfl
        · exact Or.inr ⟨p, by simp [hp], rfl⟩
        · exact Or.inr ⟨q.1, by simp [(hzip q (by simp [hq])).1], rfl⟩
        · exact Or.inr ⟨q.2, by simp [(hzip q (by simp [hq])).2], rfl⟩
      · have hf := List.mem_of_mem_drop hf
        rcases List.mem_pair.1 hl with rfl | rfl
        · exact Or.inl rfl
        · exact Or.inr ⟨f, by simp [hf], rfl⟩

end Counter

/-! ### What a counter adds -/

/-- There are so many more atoms and asserted clauses, and the rules are the same. -/
structure Added (atoms clauses : Nat) (s t : Solver ρ) : Prop where
  rules : t.rules = s.rules
  atoms : t.atoms.count = s.atoms.count + atoms
  clauses : t.clauses.asserted.size = s.clauses.asserted.size + clauses

/-- What is added in two steps adds up. -/
theorem Added.trans {a b c d : Nat} (h : Added a c s t) (h' : Added b d t u) :
    Added (a + b) (c + d) s u where
  rules := h'.rules.trans h.rules
  atoms := by rw [h'.atoms, h.atoms, Nat.add_assoc]
  clauses := by rw [h'.clauses, h.clauses, Nat.add_assoc]

/-- No clause speaks both of one of the registers and of a literal that is still to be counted. -/
def Ahead (registers ls : List Literal) (s : Solver ρ) : Prop :=
  ∀ c ∈ s.clauses.asserted, ∀ r ∈ registers, r.negate ∈ c → ∀ x ∈ ls, x.negate ∉ c

/-- Clauses that are all new are added, without an atom. -/
theorem Adds.added {cs : List Clause} (h : Adds cs s) : Added 0 cs.length s (storeAll cs s) := by
  have hsize := h.size_storeAll
  obtain ⟨clauses, status, hframe, -⟩ := storeAll_frame cs s
  rw [hframe] at hsize ⊢
  exact ⟨rfl, rfl, hsize⟩

/-- Registers are atoms that are added, without a clause. -/
theorem after_registers_added (hs : s.WellFormed) (n : Nat) :
    After (registers n) s
      (fun rs t => rs = freshLiterals s.atoms.count n ∧ t.WellFormed ∧ t.clauses = s.clauses ∧
        Added n 0 s t) fun _ _ => False := by
  have hkeeps : Preserves (fun t => t.clauses = s.clauses ∧ t.rules = s.rules)
      (registers (ρ := ρ) n) := preserves_registers_of (fun t ht => ht) n
  apply ((after_registers hs n).and (hkeeps s ⟨rfl, rfl⟩)).mono
  · rintro rs t ⟨⟨hrs, ht, hcount, -⟩, hclauses, hrules⟩
    exact ⟨hrs, ht, hclauses, hrules, hcount, by rw [hclauses]; rfl⟩
  · intro e t h
    exact h.1

section Run

variable {x y : Literal} {first : Nat} {registers : Option (List Literal)}

/-- The registers that were made at a literal are in no clause with a literal after it: in the new
clauses the only literal counted is the one they were made at. -/
theorem ahead_storeAll_countClauses {n : Nat} {now : List Literal}
    (hbelow : ∀ c ∈ s.clauses.asserted, ∀ l ∈ c, l.atom < n) (hnow : ∀ r ∈ now, n ≤ r.atom)
    (hle : first ≤ n) (hbefore : ∀ rs, registers = some rs → ∀ r ∈ rs, first ≤ r.atom)
    (hls : ∀ l ∈ x :: ls, l.atom < first) (hnodup : (x :: ls).Nodup) :
    Ahead now ls (storeAll (countClauses x registers now) s) := by
  intro c hc r hr hrc z hz hzc
  have hnew := hnow r hr
  rcases mem_asserted_storeAll_cases hc with hc | ⟨d, hd, rfl⟩
  · -- what was stored before is older than the registers
    have hold := hbelow c hc r.negate hrc
    simp only [Literal.atom_negate] at hold
    omega
  · rw [Clause.mem_canonical] at hzc
    have hlt := hls z (by simp [hz])
    rcases of_mem_countClauses hd hzc with e | ⟨q, hq, e⟩
    · -- each literal is counted once
      rw [← Literal.negate_negate z, e, Literal.negate_negate] at hz
      exact (List.nodup_cons.1 hnodup).1 hz
    · have hge : first ≤ q.atom := by
        rcases List.mem_append.1 hq with hq | hq
        · cases registers with
          | none => simp at hq
          | some rs => exact hbefore rs rfl q hq
        · have hq := hnow q hq
          omega
      simp only [Literal.atom_negate] at e
      omega

/-- One step of the counter: registers are made for a literal, the clauses that they and the
registers before them need are all new, and the counter runs on. -/
theorem after_countAlong_cons {size atoms clauses : Nat} (hs : s.WellFormed)
    (hle : first ≤ s.atoms.count) (hls : ∀ l ∈ x :: y :: ls, l.atom < first)
    (hnodup : (x :: y :: ls).Nodup)
    (hbefore : ∀ rs, registers = some rs → ∀ r ∈ rs, first ≤ r.atom ∧ r.atom < s.atoms.count)
    (hadds : Adds (countClauses x registers (freshLiterals s.atoms.count bound)) s)
    (hsize : (countClauses x registers (freshLiterals s.atoms.count bound)).length = size)
    (hrest : ∀ t : Solver ρ, t.WellFormed → t.atoms.count = s.atoms.count + bound →
      Ahead (freshLiterals s.atoms.count bound) (y :: ls) t →
      After (countAlong bound (some (freshLiterals s.atoms.count bound)) (y :: ls)) t
        (fun _ u => Added atoms clauses t u) fun _ _ => False) :
    After (countAlong bound registers (x :: y :: ls)) s
      (fun _ u => Added (bound + atoms) (size + clauses) s u) fun _ _ => False := by
  apply after_bind.2
  apply (after_registers_added hs bound).imp
  rintro now t ⟨rfl, ht, hclauses, hmade⟩
  have hcount := hmade.atoms
  have hnow : ∀ r ∈ freshLiterals s.atoms.count bound,
      s.atoms.count ≤ r.atom ∧ r.atom < t.atoms.count := by
    intro r hr
    have hr := atom_of_mem_freshLiterals hr
    omega
  have hbelow : Clause.Below t.atoms.count
      (countClauses x registers (freshLiterals s.atoms.count bound)) := by
    have hx := hls x (by simp)
    apply below_countClauses (by omega)
    · intro rs hrs r hr
      have hr := (hbefore rs hrs r hr).2
      omega
    · exact fun r hr => (hnow r hr).2
  -- to make the registers has stored nothing, so the clauses are still all new
  have hadds : Adds (countClauses x registers (freshLiterals s.atoms.count bound)) t := by
    refine ⟨hadds.plain, ?_, hadds.apart⟩
    rw [hclauses]
    exact hadds.unknown
  apply after_bind.2
  apply (after_addClauses hbelow).imp
  rintro _ u rfl
  have hstored := hadds.added
  rw [hsize] at hstored
  have hahead : Ahead (freshLiterals s.atoms.count bound) (y :: ls)
      (storeAll (countClauses x registers (freshLiterals s.atoms.count bound)) t) := by
    apply ahead_storeAll_countClauses _ (fun r hr => (hnow r hr).1) hle _ hls hnodup
    · rw [hclauses]
      exact fun c hc => (hs.clauses c hc).2
    · exact fun rs hrs r hr => (hbefore rs hrs r hr).1
  have hatoms := hstored.atoms
  apply (hrest _ (ht.storeAll hbelow) (by omega) hahead).imp
  intro _ w hw
  have hall := (hmade.trans hstored).trans hw
  simpa using hall

/-- No two fresh literals are the same. -/
theorem nodup_freshLiterals (first n : Nat) : (freshLiterals first n).Nodup := by
  apply List.Nodup.map _ List.nodup_range'
  intro a b h
  exact congrArg Literal.atom h

/-- The registers that are made at a literal after those of the literal before it. -/
theorem paired_freshLiterals {n : Nat} (hx : x.atom < first) (hle : first + bound ≤ n) :
    Paired x n ((freshLiterals first bound).zip (freshLiterals n bound)) := by
  refine ⟨by omega, fun q hq => ?_, fun q hq => ?_, ?_⟩
  · have hq := atom_of_mem_freshLiterals (List.of_mem_zip hq).1
    omega
  · exact (atom_of_mem_freshLiterals (List.of_mem_zip hq).2).1
  · have hzip : ((freshLiterals first bound).zip (freshLiterals n bound)).map Prod.snd =
        freshLiterals n bound := by
      apply List.map_snd_zip
      rw [length_freshLiterals, length_freshLiterals]
    have hnow := nodup_freshLiterals n bound
    rw [← hzip] at hnow
    exact List.pairwise_map.1 hnow

/-- The last literal is refused when the count before it is full. -/
theorem after_refuse_added {full : Literal} (hx : x.atom < s.atoms.count)
    (hfull : full.atom < s.atoms.count) (hne : x.atom ≠ full.atom)
    (hahead : ∀ c ∈ s.clauses.asserted, full.negate ∈ c → x.negate ∉ c) :
    After (addClauses [[x.negate, full.negate]]) s (fun _ t => Added 0 1 s t)
      fun _ _ => False := by
  have hadds : Adds [[x.negate, full.negate]] s := by
    refine ⟨?_, ?_, List.pairwise_singleton ..⟩
    · simpa using Clause.clashes_pair (show x.negate.atom ≠ full.negate.atom from hne)
    · rw [List.forall_mem_singleton]
      intro hstored
      -- no clause speaks both of the full count and of this literal
      exact hahead _ hstored (by simp) (by simp)
  have hbelow : Clause.Below s.atoms.count [[x.negate, full.negate]] := by
    simp [Clause.Below]
    omega
  apply (after_addClauses hbelow).imp
  rintro _ t rfl
  exact hadds.added

/-- From the second literal on, each literal but the last adds registers and clauses. -/
theorem after_countAlong_added (hpos : 0 < bound) (hs : s.WellFormed)
    (hle : first + bound ≤ s.atoms.count) (hls : ∀ l ∈ x :: ls, l.atom < first)
    (hnodup : (x :: ls).Nodup) (hahead : Ahead (freshLiterals first bound) (x :: ls) s) :
    After (countAlong bound (some (freshLiterals first bound)) (x :: ls)) s
      (fun _ t => Added (bound * ls.length) ((2 * bound + 1) * ls.length + 1) s t)
      fun _ _ => False := by
  have hlen : ∀ n, (freshLiterals n bound).length = bound := fun n => length_freshLiterals n bound
  have hne : ∀ n, freshLiterals n bound ≠ [] := fun n =>
    List.ne_nil_of_length_pos (by rw [hlen]; exact hpos)
  have hold : ∀ r ∈ freshLiterals first bound, first ≤ r.atom ∧ r.atom < s.atoms.count := by
    intro r hr
    have hr := atom_of_mem_freshLiterals hr
    omega
  have hx := hls x (by simp)
  induction ls generalizing x first s with
  | nil =>
    -- the last literal is refused when the count before it is full
    have hfull := List.getLast_mem (hne first)
    have hlast := hold _ hfull
    show After (addClauses (((freshLiterals first bound).drop
      ((freshLiterals first bound).length - 1)).map fun full => [x.negate, full.negate])) s _ _
    rw [List.drop_length_sub_one (hne first), List.map_singleton]
    refine after_refuse_added (by omega) hlast.2 (by omega) fun c hc hfc => ?_
    exact hahead c hc _ hfull hfc x (by simp)
  | cons y ls ih =>
    have hadds : Adds (countClauses x (some (freshLiterals first bound))
        (freshLiterals s.atoms.count bound)) s := by
      apply adds_nextCount (fun c hc => (hs.clauses c hc).2) (paired_freshLiterals hx hle)
        (by rw [hlen, hlen])
      exact fun c hc r hr hrc => hahead c hc r hr hrc x (by simp)
    have hsize := length_nextCount (x := x) ((hlen first).trans (hlen s.atoms.count).symm)
      (hne s.atoms.count)
    rw [hlen] at hsize
    have hlt : ∀ l ∈ y :: ls, l.atom < s.atoms.count := by
      intro l hl
      have hl := hls l (by simp [hl])
      omega
    have hrest : ∀ t : Solver ρ, t.WellFormed → t.atoms.count = s.atoms.count + bound →
        Ahead (freshLiterals s.atoms.count bound) (y :: ls) t →
        After (countAlong bound (some (freshLiterals s.atoms.count bound)) (y :: ls)) t
          (fun _ u => Added (bound * ls.length) ((2 * bound + 1) * ls.length + 1) t u)
          fun _ _ => False := by
      intro t ht hcount hahead
      apply ih ht (by omega) hlt (List.nodup_cons.1 hnodup).2 hahead
      · intro r hr
        have hr := atom_of_mem_freshLiterals hr
        omega
      · exact hlt y (by simp)
    have hrun := after_countAlong_cons hs (by omega) hls hnodup (by rintro _ ⟨⟩; exact hold) hadds
      hsize hrest
    have hatoms : bound * (y :: ls).length = bound + bound * ls.length := by
      simp [Nat.mul_succ, Nat.add_comm]
    have hclauses : (2 * bound + 1) * (y :: ls).length + 1 =
        2 * bound + 1 + ((2 * bound + 1) * ls.length + 1) := by
      simp [Nat.mul_succ]
      omega
    rw [hatoms, hclauses]
    exact hrun

end Run

/-! ### Bounds -/

/-- How many clauses a counter has that runs along so many literals. -/
def counterSize (bound n : Nat) : Nat := bound + (2 * bound + 1) * (n - 2) + 1

/-- A bound that needs registers makes them, and all the clauses of its counter are stored. -/
theorem after_addAtMost_added (hs : s.WellFormed) (hls : ∀ l ∈ ls, l.atom < s.atoms.count)
    (hbound : 1 < bound) (hmany : bound < (Clause.canonical ls).length) :
    After (addAtMost bound ls) s
      (fun _ t => Added (bound * ((Clause.canonical ls).length - 1))
        (counterSize bound (Clause.canonical ls).length) s t) fun _ _ => False := by
  have hcount : addAtMost (ρ := ρ) bound ls = countAlong bound none (Clause.canonical ls) := by
    obtain ⟨k, rfl⟩ : ∃ k, bound = k + 2 := ⟨bound - 2, by omega⟩
    unfold addAtMost
    dsimp only
    rw [if_neg (by omega)]
    rfl
  have hknown : ∀ l ∈ Clause.canonical ls, l.atom < s.atoms.count := by simpa using hls
  have hnodup := (Clause.increasing_canonical ls).nodup
  rw [hcount]
  -- from here on it only matters that the literals are different and known
  generalize Clause.canonical ls = xs at hmany hknown hnodup ⊢
  match xs, hmany with
  | [], hmany => simp at hmany
  | [x], hmany =>
    simp only [List.length_singleton] at hmany
    omega
  | x :: y :: ys, hmany =>
    have hlen := length_freshLiterals s.atoms.count bound
    have hne : freshLiterals s.atoms.count bound ≠ [] :=
      List.ne_nil_of_length_pos (by rw [hlen]; omega)
    have hadds : Adds (countClauses x none (freshLiterals s.atoms.count bound)) s := by
      apply adds_firstCount (fun c hc => (hs.clauses c hc).2) (hknown x (by simp))
      · exact fun r hr => (atom_of_mem_freshLiterals hr).1
      · exact nodup_freshLiterals _ _
    have hsize := length_firstCount (x := x) hne
    rw [hlen] at hsize
    have hrest : ∀ t : Solver ρ, t.WellFormed → t.atoms.count = s.atoms.count + bound →
        Ahead (freshLiterals s.atoms.count bound) (y :: ys) t →
        After (countAlong bound (some (freshLiterals s.atoms.count bound)) (y :: ys)) t
          (fun _ u => Added (bound * ys.length) ((2 * bound + 1) * ys.length + 1) t u)
          fun _ _ => False := by
      intro t ht hcount hahead
      apply after_countAlong_added (by omega) ht (by omega) _ (List.nodup_cons.1 hnodup).2 hahead
      exact fun l hl => hknown l (List.mem_cons_of_mem _ hl)
    have hrun := after_countAlong_cons hs (Nat.le_refl _) hknown hnodup (by simp) hadds hsize hrest
    have hatoms : bound * ((x :: y :: ys).length - 1) = bound + bound * ys.length := by
      simp [Nat.mul_succ, Nat.add_comm]
    have hclauses : counterSize bound (x :: y :: ys).length =
        bound + ((2 * bound + 1) * ys.length + 1) := by
      simp [counterSize, Nat.add_assoc]
    rw [hatoms, hclauses]
    exact hrun

/-- The canonical form of a list is as long as there are different literals in it. -/
theorem length_canonical (ls : List Literal) : (Clause.canonical ls).length = ls.toFinset.card := by
  have hsame : (Clause.canonical ls).toFinset = ls.toFinset := by
    ext l
    simp
  rw [← hsame, List.toFinset_card_of_nodup (Clause.increasing_canonical ls).nodup]

/-- Clauses that are added are counted. -/
theorem Added.constraintCount {atoms clauses : Nat} (h : Added atoms clauses s t) :
    t.constraintCount = s.constraintCount + clauses := by
  simp only [Solver.constraintCount, h.rules, h.clauses]
  omega

/-- **A bound that needs registers is stored anew each time it is asserted.** For every solver that
can be reached, all literals over its atoms and every bound: the bound is accepted, and after any
moves it is accepted again, with the literals in any order and repeated in any way. If it is zero or
one, or there are not more different literals than it allows, then that changes nothing at all. In
every other case it makes as many atoms and adds as many constraints as the bound did the first
time, and there is always one. -/
theorem Reachable.addAtMost_again [RandomSource ρ] (hs : s.Reachable)
    (hls : ∀ l ∈ ls, l.atom < s.atoms.count) {ls' : List Literal} (hsame : ∀ l, l ∈ ls ↔ l ∈ ls')
    (bound : Nat) :
    let n := ls.toFinset.card
    ∃ t, addAtMost bound ls s = .ok () t ∧
      (1 < bound → bound < n → t.constraintCount = s.constraintCount + counterSize bound n) ∧
      ∀ ms : List Move, let u := ms.foldl (fun s m => m.perform s) t
        ∃ v, addAtMost bound ls' u = .ok () v ∧
          (bound ≤ 1 ∨ n ≤ bound → v = u) ∧
          (1 < bound → bound < n →
            v.atoms.count = u.atoms.count + bound * (n - 1) ∧
            v.constraintCount = u.constraintCount + counterSize bound n ∧
            u.constraintCount < v.constraintCount) := by
  intro n
  have hn : (Clause.canonical ls).length = n := length_canonical ls
  have hcanonical : Clause.canonical ls' = Clause.canonical ls := (Clause.canonical_congr hsame).symm
  obtain ⟨_, t, ht, -⟩ := (after_addAtMost hs.wellFormed hls bound).exists_ok
  refine ⟨t, ht, ?_, ?_⟩
  · intro hbound hmany
    have hadded := (after_addAtMost_added hs.wellFormed hls hbound (by rwa [hn])).of_ok ht
    rw [hn] at hadded
    exact hadded.constraintCount
  intro ms u
  have hgrows : Grows t u := grows_moves ms t
  by_cases hdirect : bound ≤ 1 ∨ n ≤ bound
  · -- the clauses of a direct bound are there already
    have hrun : addClauses (directClauses bound (Clause.canonical ls)) s = .ok () t := by
      rwa [← addAtMost_direct (by rwa [hn])]
    have hheld := (after_addClauses_holds _ s).of_ok hrun
    refine ⟨u, ?_, fun _ => rfl, ?_⟩
    · rw [addAtMost_direct (by rwa [hcanonical, hn]), hcanonical]
      exact addClauses_eq fun c hc => hgrows.holds (hheld c hc)
    · intro hbound hmany
      omega
  · -- a counter is made anew, with registers that were not there before
    have ht' : t.Reachable := by
      have hmove := hs.move (.addAtMost bound ls)
      rwa [show Move.perform (.addAtMost bound ls) s = t from stateAfter_of_ok ht] at hmove
    have hu : u.Reachable := ht'.moves ms
    have hcount : s.atoms.count ≤ u.atoms.count :=
      Nat.le_trans ((preserves_grows_addAtMost bound ls s (Grows.refl s)).of_ok ht).count
        hgrows.count
    have hls' : ∀ l ∈ ls', l.atom < u.atoms.count := fun l hl =>
      Nat.lt_of_lt_of_le (hls l ((hsame l).2 hl)) hcount
    have hmany : 1 < bound ∧ bound < n := by omega
    obtain ⟨_, v, hv, hadded⟩ := (after_addAtMost_added hu.wellFormed hls' hmany.1
      (by rw [hcanonical, hn]; exact hmany.2)).exists_ok
    rw [hcanonical, hn] at hadded
    refine ⟨v, hv, fun h => absurd h hdirect, fun _ _ => ⟨hadded.atoms, hadded.constraintCount, ?_⟩⟩
    rw [hadded.constraintCount, counterSize]
    omega

/-- At most two of three literals, said again after a search in another order and with one of them
twice: four more atoms and eight more constraints. At most one of them, said again, is nothing
new. -/
theorem addAtMost_again_two :
    let s : Solver Pcg := [Move.freshAtom none, .freshAtom none, .freshAtom none].foldl
      (fun s m => m.perform s) (ofConfig {} (Pcg.ofSeed 0))
    let ls := [Literal.pos 1, Literal.neg 2, Literal.pos 3]
    let ls' := [Literal.pos 3, Literal.pos 1, Literal.neg 2, Literal.pos 1]
    s.Reachable ∧ (∀ l ∈ ls, l.atom < s.atoms.count) ∧ (∀ l, l ∈ ls ↔ l ∈ ls') ∧
      (∃ t, addAtMost 2 ls s = .ok () t ∧ t.constraintCount = s.constraintCount + 8 ∧
        ∃ v, addAtMost 2 ls' ((Move.solve true).perform t) = .ok () v ∧
          v.atoms.count = ((Move.solve true).perform t).atoms.count + 4 ∧
          v.constraintCount = ((Move.solve true).perform t).constraintCount + 8) ∧
      ∃ t, addAtMost 1 ls s = .ok () t ∧
        addAtMost 1 ls' ((Move.solve true).perform t) = .ok () ((Move.solve true).perform t) := by
  intro s ls ls'
  have hs : s.Reachable := (Reachable.start {} (Pcg.ofSeed 0)).moves _
  have hls : ∀ l ∈ ls, l.atom < s.atoms.count := by decide +kernel
  have hcovers : (∀ l ∈ ls, l ∈ ls') ∧ ∀ l ∈ ls', l ∈ ls := by decide
  have hsame : ∀ l, l ∈ ls ↔ l ∈ ls' := fun l => ⟨hcovers.1 l, hcovers.2 l⟩
  have hcard : ls.toFinset.card = 3 := by decide
  obtain ⟨t, ht, hfirst, hagain⟩ := hs.addAtMost_again hls hsame 2
  obtain ⟨v, hv, -, hmore⟩ := hagain [.solve true]
  obtain ⟨hatoms, hcount, -⟩ := hmore (by decide) (by decide)
  rw [hcard] at hfirst hatoms hcount
  -- a bound of one takes no registers, so there it is the same clauses
  obtain ⟨u, hu, -, hagain'⟩ := hs.addAtMost_again hls hsame 1
  obtain ⟨w, hw, hdirect, -⟩ := hagain' [.solve true]
  rw [hdirect (by decide)] at hw
  exact ⟨hs, hls, hsame, ⟨t, ht, hfirst (by decide) (by decide), v, hv, hatoms, hcount⟩, u, hu, hw⟩

/-- At most two of three atoms, said twice in the same words: the first time there are eight
constraints, the second time sixteen. -/
theorem two_of_three_counted_twice :
    let s : Solver Pcg := [Move.freshAtom none, .freshAtom none, .freshAtom none].foldl
      (fun s m => m.perform s) (ofConfig {} (Pcg.ofSeed 0))
    let act := addAtMost 2 [Literal.pos 1, Literal.pos 2, Literal.pos 3]
    let t := stateAfter act s
    let u := stateAfter act t
    act s = .ok () t ∧ act t = .ok () u ∧ t.constraintCount = 8 ∧ u.constraintCount = 16 ∧
      t.atoms.count = 8 ∧ u.atoms.count = 12 := by
  intro s act t u
  have hvalues : value? act s = some () ∧ value? act t = some () := by decide +kernel
  have hcounts : t.constraintCount = 8 ∧ u.constraintCount = 16 ∧ t.atoms.count = 8 ∧
      u.atoms.count = 12 := by decide +kernel
  exact ⟨eq_ok_of_value? hvalues.1, eq_ok_of_value? hvalues.2, hcounts⟩

end Solver

end Storyworld
