import Mathlib.Data.Finset.Card
import Storyworld.Proofs.Solver.Account
import Storyworld.Random.Pcg

namespace Storyworld

/-!
# Bounds on the number of true literals are exact

To assert that at most so many of some literals are true is to store clauses, most of them about
registers that are made for the purpose. `Solver.Allows` forgets the registers again: an
interpretation of the atoms that were there before is allowed if the registers can be given
values. It is allowed exactly when the literals that are true are not too many
(`Reachable.cardinality_exact`).

The crux is what registers mean. They need not be true as soon as they could be; it is only
that they cannot lag behind: when they show the count of the literals before one, then after it
they show the count with it (`reads_of_isTrue`). For the other direction they are given the
values that show the count and nothing more (`isTrue_of_reads`).
-/

/-! ### Counting true literals -/

namespace Interpretation

variable {i j : Interpretation} {l m x : Literal} {ls : List Literal}

/-- How many of the literals are true. -/
def trueCount (i : Interpretation) (ls : List Literal) : Nat :=
  ls.countP fun l => decide (i.Satisfies l)

/-- The literals are counted one after the other. -/
theorem trueCount_cons : i.trueCount (l :: ls) = i.trueCount [l] + i.trueCount ls := by
  rw [trueCount, trueCount, trueCount, List.countP_cons, List.countP_singleton, Nat.add_comm]

theorem trueCount_singleton_of_satisfies (h : i.Satisfies l) : i.trueCount [l] = 1 := by
  rw [trueCount, List.countP_singleton, if_pos (decide_eq_true h)]

theorem trueCount_singleton_of_not (h : ¬ i.Satisfies l) : i.trueCount [l] = 0 := by
  rw [trueCount, List.countP_singleton, if_neg (by rwa [decide_eq_true_iff])]

/-- None is counted exactly when none is true. -/
theorem trueCount_eq_zero_iff : i.trueCount ls = 0 ↔ ∀ l ∈ ls, ¬ i.Satisfies l := by
  rw [trueCount, List.countP_eq_zero]
  exact forall_congr' fun l => imp_congr_right fun _ => not_congr decide_eq_true_iff

/-- The count depends on the atoms of the literals only. -/
theorem trueCount_congr (h : ∀ l ∈ ls, i l.atom = j l.atom) : i.trueCount ls = j.trueCount ls := by
  refine List.countP_congr fun l hl => ?_
  rw [decide_eq_true_iff, decide_eq_true_iff, Satisfies, Satisfies, h l hl]

/-- In canonical form each literal is counted once. -/
theorem trueCount_canonical : i.trueCount (Clause.canonical ls) =
    (ls.toFinset.filter fun l => i.Satisfies l).card := by
  have hnodup : (Clause.canonical ls).Nodup := by
    refine List.Pairwise.imp (fun {l m} hlt => ?_) (Clause.increasing_canonical ls)
    rintro rfl
    exact Nat.lt_irrefl _ hlt
  have hsame : ((Clause.canonical ls).filter fun l => decide (i.Satisfies l)).toFinset =
      ls.toFinset.filter fun l => i.Satisfies l := by
    ext l
    simp only [List.mem_toFinset, List.mem_filter, Finset.mem_filter, Clause.mem_canonical,
      decide_eq_true_iff]
  rw [trueCount, List.countP_eq_length_filter, ← hsame,
    List.toFinset_card_of_nodup (hnodup.filter _)]

/-- One of the literals is true and not more than one is, if just one is. -/
theorem isTrue_and_card_le_one :
    i.IsTrue ls ∧ (ls.toFinset.filter fun l => i.Satisfies l).card ≤ 1 ↔
      (ls.toFinset.filter fun l => i.Satisfies l).card = 1 := by
  have hpos : i.IsTrue ls ↔ 0 < (ls.toFinset.filter fun l => i.Satisfies l).card := by
    rw [Finset.card_pos]
    refine exists_congr fun l => ?_
    rw [Finset.mem_filter, List.mem_toFinset]
  rw [hpos]
  omega

/-! ### Registers -/

/-- The registers show a count of at least that many. -/
def Shows (i : Interpretation) (registers : List Literal) : Nat → Prop
  | 0 => True
  | n + 1 => ∃ r, registers[n]? = some r ∧ i.Satisfies r

/-- What the registers before a literal show; before the first literal the count is zero. -/
def Reads (i : Interpretation) : Option (List Literal) → Nat → Prop
  | none, n => n = 0
  | some registers, n => i.Shows registers n

variable {r : Literal} {rs : List Literal} {n : Nat}

@[simp] theorem shows_zero : i.Shows rs 0 := trivial

@[simp] theorem not_shows_nil : ¬ i.Shows [] (n + 1) := by
  rintro ⟨r, hr, -⟩
  cases hr

@[simp] theorem shows_cons_one : i.Shows (r :: rs) 1 ↔ i.Satisfies r := by
  constructor
  · rintro ⟨q, hq, hsat⟩
    cases hq
    exact hsat
  · exact fun h => ⟨r, rfl, h⟩

@[simp] theorem shows_cons_add_two : i.Shows (r :: rs) (n + 2) ↔ i.Shows rs (n + 1) := Iff.rfl

/-- Registers show as many as they are exactly when the last of them is true. -/
theorem shows_length (hne : rs ≠ []) : i.Shows rs rs.length ↔ i.Satisfies (rs.getLast hne) := by
  have hpos := List.length_pos_iff.2 hne
  obtain ⟨n, hn⟩ : ∃ n, rs.length = n + 1 := ⟨rs.length - 1, by omega⟩
  have hlast : rs[n]? = some (rs.getLast hne) := by
    rw [← List.getLast?_eq_some_getLast hne, List.getLast?_eq_getElem?, hn, Nat.add_sub_cancel]
  rw [hn, Shows, hlast]
  simp

/-- What registers show depends on their atoms only. -/
theorem shows_congr (h : ∀ r ∈ rs, i r.atom = j r.atom) : i.Shows rs n ↔ j.Shows rs n := by
  cases n with
  | zero => exact Iff.rfl
  | succ n =>
    refine exists_congr fun r => and_congr_right fun hr => ?_
    rw [Satisfies, Satisfies, h r (List.mem_of_getElem? hr)]

/-- What is read off the registers before a literal depends on their atoms only. -/
theorem reads_congr {registers : Option (List Literal)}
    (h : ∀ rs, registers = some rs → ∀ r ∈ rs, i r.atom = j r.atom) :
    i.Reads registers n ↔ j.Reads registers n := by
  cases registers with
  | none => exact Iff.rfl
  | some rs => exact shows_congr (h rs rfl)

/-- Atoms from some atom on show a count, the others keep their values. -/
def showing (i : Interpretation) (first count : Nat) : Interpretation :=
  fun a => if a < first then i a else decide (a - first < count)

/-- The atoms that were there before keep their values. -/
theorem showing_of_lt {first count : Nat} {a : Atom} (h : a < first) :
    i.showing first count a = i a := if_pos h

end Interpretation

namespace Solver

open Action Interpretation

variable {ρ : Type} {s : Solver ρ} {i j : Interpretation} {x p : Literal}
  {ls before now : List Literal}

/-! ### What the clauses say -/

/-- A literal is refused together with any of the registers that are full. -/
theorem isTrue_refusals (full : List Literal) :
    (∀ c ∈ full.map fun r => [x.negate, r.negate], i.IsTrue c) ↔
      (i.Satisfies x → ∀ r ∈ full, ¬ i.Satisfies r) := by
  rw [List.forall_mem_map]
  constructor
  · intro h hx r hr
    exact satisfies_negate.1 (isTrue_negate_pair.1 (h r hr) hx)
  · intro h r hr
    exact isTrue_negate_pair.2 fun hx => satisfies_negate.2 (h hx r hr)

/-- All of some literals are denied exactly when none is counted. -/
theorem isTrue_negated : (∀ c ∈ ls.map fun l => [l.negate], i.IsTrue c) ↔ i.trueCount ls = 0 := by
  rw [List.forall_mem_map, trueCount_eq_zero_iff]
  refine forall_congr' fun l => imp_congr_right fun _ => ?_
  rw [← satisfies_negate]
  simp [IsTrue]

/-- No two literals at different places are true together exactly when at most one is counted. -/
theorem isTrue_pairwise : (∀ c ∈ pairwise ls, i.IsTrue c) ↔ i.trueCount ls ≤ 1 := by
  induction ls with
  | nil => exact iff_of_true (fun c hc => by cases hc) (Nat.zero_le 1)
  | cons l ls ih =>
    rw [pairwise, List.forall_mem_append, isTrue_refusals, ih, trueCount_cons,
      ← trueCount_eq_zero_iff]
    -- a first literal that is true leaves no room for the others
    by_cases hl : i.Satisfies l
    · rw [trueCount_singleton_of_satisfies hl]
      constructor
      · rintro ⟨hnone, -⟩
        rw [hnone hl]
      · intro h
        exact ⟨fun _ => by omega, by omega⟩
    · rw [trueCount_singleton_of_not hl, Nat.zero_add]
      exact and_iff_right fun h => absurd h hl

/-- The clauses of the counter at a literal that is not the last one. -/
def countClauses (x : Literal) (before : Option (List Literal)) (now : List Literal) :
    List Clause :=
  match before with
  | none => firstCount x now
  | some before => nextCount x before now

/-- At the first literal the registers are raised to one by it, and are never higher. -/
theorem isTrue_firstCount (hnow : now ≠ []) :
    (∀ c ∈ firstCount x now, i.IsTrue c) ↔
      (i.Satisfies x → i.Shows now 1) ∧ ∀ n, ¬ i.Shows now (n + 2) := by
  cases now with
  | nil => exact absurd rfl hnow
  | cons r rs =>
    have hrest : (∀ c ∈ rs.map fun r => [r.negate], i.IsTrue c) ↔ ∀ n, ¬ i.Shows rs (n + 1) := by
      rw [isTrue_negated, trueCount_eq_zero_iff]
      constructor
      · rintro h n ⟨q, hq, hsat⟩
        exact h q (List.mem_of_getElem? hq) hsat
      · intro h q hq hsat
        obtain ⟨n, hn⟩ := List.getElem?_of_mem hq
        exact h n ⟨q, hn, hsat⟩
    -- the first register may be raised, and all the others are denied
    show (∀ c ∈ [x.negate, r] :: rs.map fun r => [r.negate], i.IsTrue c) ↔ _
    rw [List.forall_mem_cons, hrest, isTrue_negate_pair]
    simp only [shows_cons_one, shows_cons_add_two]

/-- A clause that denies two literals says that together they imply the third. -/
theorem isTrue_negate_triple {l m r : Literal} : i.IsTrue [l.negate, m.negate, r] ↔
    (i.Satisfies l → i.Satisfies m → i.Satisfies r) := by
  rw [← isTrue_negate_pair, IsTrue, IsTrue, List.exists_mem_cons_iff, satisfies_negate]
  exact Decidable.imp_iff_not_or.symm

/-- The registers after the first are kept, and each is raised by the one before it. -/
theorem isTrue_carry {before now : List Literal} (hlen : before.length = now.length) :
    (∀ c ∈ carry x p (before.zip now), i.IsTrue c) ↔
      (∀ n, i.Shows before n → i.Shows now n) ∧
        (i.Satisfies x → ∀ n < now.length, i.Shows (p :: before) (n + 1) →
          i.Shows now (n + 1)) := by
  induction before generalizing p now with
  | nil =>
    obtain rfl := List.length_eq_zero_iff.1 hlen.symm
    exact iff_of_true (fun c hc => by cases hc)
      ⟨fun _ h => h, fun _ n hn => absurd hn (Nat.not_lt_zero n)⟩
  | cons q before ih =>
    cases now with
    | nil => cases hlen
    | cons r now =>
      -- the induction goes up the registers, each with the one below it
      have ih := ih (p := q) (Nat.succ.inj hlen)
      show (∀ c ∈ [q.negate, r] :: [x.negate, p.negate, r] :: carry x q (before.zip now),
        i.IsTrue c) ↔ _
      rw [List.forall_mem_cons, List.forall_mem_cons, ih, isTrue_negate_pair, isTrue_negate_triple]
      constructor
      · rintro ⟨hkeep, hraise, hkeeps, hraises⟩
        refine ⟨fun n hn => ?_, fun hx n hlt hn => ?_⟩
        · match n with
          | 0 => exact trivial
          | 1 => exact shows_cons_one.2 (hkeep (shows_cons_one.1 hn))
          | n + 2 => exact hkeeps (n + 1) hn
        · match n with
          | 0 => exact shows_cons_one.2 (hraise hx (shows_cons_one.1 hn))
          | n + 1 => exact hraises hx n (Nat.lt_of_succ_lt_succ hlt) hn
      · rintro ⟨hkeeps, hraises⟩
        refine ⟨fun hq => ?_, fun hx hp => ?_, fun n hn => ?_, fun hx n hlt hn => ?_⟩
        · exact shows_cons_one.1 (hkeeps 1 (shows_cons_one.2 hq))
        · exact shows_cons_one.1 (hraises hx 0 (Nat.succ_pos _) (shows_cons_one.2 hp))
        · cases n with
          | zero => exact trivial
          | succ n => exact hkeeps (n + 2) hn
        · exact hraises hx (n + 1) (Nat.succ_lt_succ hlt) hn

/-- A literal is refused when the last register is true. -/
theorem isTrue_full (hne : before ≠ []) :
    (∀ c ∈ (before.drop (before.length - 1)).map fun full => [x.negate, full.negate],
      i.IsTrue c) ↔ (i.Satisfies x → ¬ i.Shows before before.length) := by
  rw [isTrue_refusals, List.drop_length_sub_one hne, List.forall_mem_singleton, shows_length hne]

/-- At a later literal the registers keep what they showed, are raised by it, and refuse it when
they are full. -/
theorem isTrue_nextCount (hne : now ≠ []) (hlen : before.length = now.length) :
    (∀ c ∈ nextCount x before now, i.IsTrue c) ↔
      (∀ n, i.Shows before n → i.Shows now n) ∧
        (i.Satisfies x → ∀ n < now.length, i.Shows before n → i.Shows now (n + 1)) ∧
        (i.Satisfies x → ¬ i.Shows before before.length) := by
  cases now with
  | nil => exact absurd rfl hne
  | cons r now =>
    cases before with
    | nil => cases hlen
    | cons p before =>
      have hfull := isTrue_full (i := i) (x := x) (List.cons_ne_nil p before)
      have hcarry := isTrue_carry (i := i) (x := x) (p := p) (Nat.succ.inj hlen)
      -- the first register is apart from the others, as there is none before it to carry from
      show (∀ c ∈ [x.negate, r] :: [p.negate, r] :: (carry x p (before.zip now) ++ _),
        i.IsTrue c) ↔ _
      rw [List.forall_mem_cons, List.forall_mem_cons, List.forall_mem_append, hfull, hcarry,
        isTrue_negate_pair, isTrue_negate_pair]
      constructor
      · rintro ⟨hraise, hkeep, ⟨hkeeps, hraises⟩, hfull⟩
        refine ⟨fun n hn => ?_, fun hx n hlt hn => ?_, hfull⟩
        · -- zero is always shown, one by the first register, and more by the rest
          match n with
          | 0 => exact trivial
          | 1 => exact shows_cons_one.2 (hkeep (shows_cons_one.1 hn))
          | n + 2 => exact hkeeps (n + 1) hn
        · match n with
          | 0 => exact shows_cons_one.2 (hraise hx)
          | n + 1 => exact hraises hx n (Nat.lt_of_succ_lt_succ hlt) hn
      · rintro ⟨hkeeps, hraises, hfull⟩
        refine ⟨fun hx => ?_, fun hp => ?_, ⟨fun n hn => ?_, fun hx n hlt hn => ?_⟩, hfull⟩
        · exact shows_cons_one.1 (hraises hx 0 (Nat.succ_pos _) trivial)
        · exact shows_cons_one.1 (hkeeps 1 (shows_cons_one.2 hp))
        · cases n with
          | zero => exact trivial
          | succ n => exact hkeeps (n + 2) hn
        · exact hraises hx (n + 1) (Nat.succ_lt_succ hlt) hn

/-! ### What the clauses are about -/

section Below

variable {count : Nat}

theorem below_refusals (hx : x.atom < count) {full : List Literal}
    (hfull : ∀ r ∈ full, r.atom < count) :
    Clause.Below count (full.map fun r => [x.negate, r.negate]) :=
  List.forall_mem_map.2 fun r hr =>
    List.forall_mem_cons.2 ⟨hx, List.forall_mem_singleton.2 (hfull r hr)⟩

theorem below_negated (hls : ∀ l ∈ ls, l.atom < count) :
    Clause.Below count (ls.map fun l => [l.negate]) :=
  List.forall_mem_map.2 fun l hl => List.forall_mem_singleton.2 (hls l hl)

/-- The clauses of a pairwise bound mention no atom but those of its literals. -/
theorem below_pairwise (hls : ∀ l ∈ ls, l.atom < count) : Clause.Below count (pairwise ls) := by
  induction ls with
  | nil => nofun
  | cons l ls ih =>
    obtain ⟨hl, hls⟩ := List.forall_mem_cons.1 hls
    exact List.forall_mem_append.2 ⟨below_refusals hl hls, ih hls⟩

/-- The clauses that carry a count mention no atom but those of the literal and the registers. -/
theorem below_carry (hx : x.atom < count) (hp : p.atom < count) {pairs : List (Literal × Literal)}
    (hpairs : ∀ q ∈ pairs, q.1.atom < count ∧ q.2.atom < count) :
    Clause.Below count (carry x p pairs) := by
  induction pairs generalizing p with
  | nil => nofun
  | cons q pairs ih =>
    obtain ⟨hq, hpairs⟩ := List.forall_mem_cons.1 hpairs
    refine List.forall_mem_cons.2 ⟨?_, List.forall_mem_cons.2 ⟨?_, ih hq.1 hpairs⟩⟩
    · exact List.forall_mem_cons.2 ⟨hq.1, List.forall_mem_singleton.2 hq.2⟩
    · exact List.forall_mem_cons.2
        ⟨hx, List.forall_mem_cons.2 ⟨hp, List.forall_mem_singleton.2 hq.2⟩⟩

/-- The clauses of the counter mention no atom but those of the literal and the registers, before
and after it. -/
theorem below_countClauses (hx : x.atom < count) {registers : Option (List Literal)}
    (hbefore : ∀ rs, registers = some rs → ∀ r ∈ rs, r.atom < count)
    (hnow : ∀ r ∈ now, r.atom < count) : Clause.Below count (countClauses x registers now) := by
  cases registers with
  | none =>
    refine List.forall_mem_append.2 ⟨List.forall_mem_map.2 fun r hr => ?_, ?_⟩
    · exact List.forall_mem_cons.2
        ⟨hx, List.forall_mem_singleton.2 (hnow r (List.mem_of_mem_take hr))⟩
    · exact below_negated fun r hr => hnow r (List.mem_of_mem_drop hr)
  | some before =>
    have hbefore := hbefore before rfl
    -- registers stand in pairs, those before the literal and those after it
    have hzip : ∀ q ∈ before.zip now, q.1.atom < count ∧ q.2.atom < count := fun q hq =>
      ⟨hbefore _ (List.of_mem_zip hq).1, hnow _ (List.of_mem_zip hq).2⟩
    show Clause.Below count (nextCount x before now)
    unfold nextCount
    split
    · nofun
    · rename_i p r rest hrest
      rw [hrest] at hzip
      obtain ⟨hpr, hzip⟩ := List.forall_mem_cons.1 hzip
      refine List.forall_mem_cons.2 ⟨?_, List.forall_mem_cons.2 ⟨?_, List.forall_mem_append.2
        ⟨below_carry hx hpr.1 hzip, below_refusals hx fun r hr =>
          hbefore r (List.mem_of_mem_drop hr)⟩⟩⟩
      · exact List.forall_mem_cons.2 ⟨hx, List.forall_mem_singleton.2 hpr.2⟩
      · exact List.forall_mem_cons.2 ⟨hpr.1, List.forall_mem_singleton.2 hpr.2⟩

end Below

/-! ### One literal -/

section Step

variable {bound : Nat} {registers : Option (List Literal)}

/-- What the clauses of the counter say: the registers keep the count and a true literal raises it,
which it may not do when the count is the bound. At the first literal they say too that the
count is not more than one. -/
theorem isTrue_countClauses (hpos : 0 < bound) (hnow : now.length = bound)
    (hbefore : ∀ before, registers = some before → before.length = bound) :
    (∀ c ∈ countClauses x registers now, i.IsTrue c) ↔
      (∀ n, i.Reads registers n → i.Shows now n) ∧
        (i.Satisfies x → ∀ n < bound, i.Reads registers n → i.Shows now (n + 1)) ∧
        (i.Satisfies x → ¬ i.Reads registers bound) ∧
        (registers = none → ∀ n, ¬ i.Shows now (n + 2)) := by
  have hne : now ≠ [] := by
    rintro rfl
    exact absurd hnow (Nat.ne_of_lt hpos)
  cases registers with
  -- before the first literal the count is zero, and can only be raised to one
  | none =>
    rw [countClauses, isTrue_firstCount hne]
    constructor
    · rintro ⟨hraise, hnone⟩
      refine ⟨?_, fun hx => ?_, fun _ hzero => ?_, fun _ => hnone⟩
      · rintro n rfl
        exact trivial
      · rintro n - rfl
        exact hraise hx
      · exact absurd hzero (Nat.ne_of_gt hpos)
    · rintro ⟨-, hraise, -, hnone⟩
      exact ⟨fun hx => hraise hx 0 hpos rfl, hnone rfl⟩
  | some before =>
    have hlen := hbefore before rfl
    rw [countClauses, isTrue_nextCount hne (hlen.trans hnow.symm), hnow, hlen]
    exact and_congr_right fun _ => and_congr_right fun _ => (and_iff_left nofun).symm

/-- The registers cannot lag behind: if they show a count before a literal, then they show the count
with the literal after it, and that one is within the bound. -/
theorem reads_of_isTrue (hpos : 0 < bound) (hnow : now.length = bound)
    (hbefore : ∀ before, registers = some before → before.length = bound)
    (hcs : ∀ c ∈ countClauses x registers now, i.IsTrue c) {count : Nat} (hle : count ≤ bound)
    (hcount : i.Reads registers count) :
    count + i.trueCount [x] ≤ bound ∧ i.Shows now (count + i.trueCount [x]) := by
  obtain ⟨hkeep, hraise, hfull, -⟩ := (isTrue_countClauses hpos hnow hbefore).1 hcs
  -- a literal that is true raises the count, and must find it below the bound
  by_cases hx : i.Satisfies x
  · rw [trueCount_singleton_of_satisfies hx]
    have hlt : count < bound := by
      refine Nat.lt_of_le_of_ne hle ?_
      rintro rfl
      exact hfull hx hcount
    exact ⟨hlt, hraise hx count hlt hcount⟩
  · rw [trueCount_singleton_of_not hx]
    exact ⟨hle, hkeep count hcount⟩

/-- Registers that show the count and no more make the clauses true, as long as it is within the
bound. -/
theorem isTrue_of_reads (hpos : 0 < bound) (hnow : now.length = bound)
    (hbefore : ∀ before, registers = some before → before.length = bound) {count : Nat}
    (hcount : ∀ n, i.Reads registers n ↔ n ≤ count)
    (hshows : ∀ n, i.Shows now n ↔ n ≤ count + i.trueCount [x])
    (hle : count + i.trueCount [x] ≤ bound) : ∀ c ∈ countClauses x registers now, i.IsTrue c := by
  refine (isTrue_countClauses hpos hnow hbefore).2 ⟨fun n hn => ?_, fun hx n _ hn => ?_,
    fun hx hfull => ?_, fun hnone n hn => ?_⟩
  · have := (hcount n).1 hn
    exact (hshows n).2 (by omega)
  · have := (hcount n).1 hn
    exact (hshows (n + 1)).2 (by rw [trueCount_singleton_of_satisfies hx]; omega)
  · have := (hcount bound).1 hfull
    rw [trueCount_singleton_of_satisfies hx] at hle
    omega
  · subst hnone
    -- before the first literal the count is zero
    have hzero : count = 0 := (hcount count).2 (Nat.le_refl count)
    have hone : i.trueCount [x] ≤ 1 := List.countP_le_length
    have := (hshows (n + 2)).1 hn
    omega

/-- The clauses at the last literal say that it is not true when the count before it is the
bound. -/
theorem isTrue_lastCount (hpos : 0 < bound)
    (hbefore : ∀ before, registers = some before → before.length = bound) :
    (∀ c ∈ ((registers.getD []).drop ((registers.getD []).length - 1)).map
      fun full => [x.negate, full.negate], i.IsTrue c) ↔
        (i.Satisfies x → ¬ i.Reads registers bound) := by
  cases registers with
  | none => exact iff_of_true (fun c hc => by cases hc) fun _ hzero => Nat.ne_of_gt hpos hzero
  | some before =>
    have hlen := hbefore before rfl
    have hne : before ≠ [] := List.length_pos_iff.1 (hlen ▸ hpos)
    rw [Option.getD_some, isTrue_full hne, hlen]
    rfl

end Step

/-! ### Storing clauses and making registers -/

/-- Whether the asserted clauses are true depends on the atoms there are. -/
theorem WellFormed.trueIn_congr (hs : s.WellFormed) (h : ∀ a < s.atoms.count, i a = j a) :
    s.TrueIn i ↔ s.TrueIn j :=
  forall_congr' fun c => imp_congr_right fun hc =>
    isTrue_congr fun l hl => h l.atom ((hs.clauses c hc).2 l hl)

/-- Clauses over the language are not refused. -/
theorem after_addClauses {cs : List Clause} (hcs : Clause.Below s.atoms.count cs) :
    After (addClauses cs) s (fun _ t => t = storeAll cs s) fun _ _ => False := by
  induction cs generalizing s with
  | nil => exact after_pure.2 rfl
  | cons c cs ih =>
    show After ((addClause c >>= fun _ => pure ()) >>= fun _ => addClauses cs) s _ _
    refine after_bind.2 (after_bind.2 ((after_addClause c s).mono (fun stored t h => ?_)
      fun e t h => ?_))
    · obtain rfl : t = (s.store c).2 := congrArg Prod.snd h.2
      -- storing a clause makes no atom, so the other clauses are known still
      obtain ⟨clauses, status, hframe, -⟩ := store_frame c s
      have hatoms : (s.store c).2.atoms = s.atoms := by rw [hframe]
      exact ih (hatoms ▸ fun d hd => hcs d (List.mem_cons_of_mem _ hd))
    · obtain ⟨l, hl, hge, -⟩ := h.2
      exact Nat.not_le_of_lt (hcs c List.mem_cons_self l hl) hge

/-- The positive literals of so many atoms from one on. -/
def freshLiterals (first n : Nat) : List Literal := (List.range' first n).map Literal.pos

theorem length_freshLiterals (first n : Nat) : (freshLiterals first n).length = n := by
  rw [freshLiterals, List.length_map, List.length_range']

/-- The atoms of fresh literals lie in the range that was made. -/
theorem atom_of_mem_freshLiterals {first n : Nat} {l : Literal} (h : l ∈ freshLiterals first n) :
    first ≤ l.atom ∧ l.atom < first + n := by
  obtain ⟨a, ha, rfl⟩ := List.mem_map.1 h
  exact List.mem_range'_1.1 ha

/-- Registers are new atoms, and nothing is said of them yet. -/
theorem after_registers (hs : s.WellFormed) (n : Nat) :
    After (registers n) s
      (fun rs t => rs = freshLiterals s.atoms.count n ∧ t.WellFormed ∧
        t.atoms.count = s.atoms.count + n ∧ ∀ i, t.TrueIn i ↔ s.TrueIn i)
      fun _ _ => False := by
  induction n generalizing s with
  | zero => exact after_pure.2 ⟨rfl, hs, rfl, fun _ => Iff.rfl⟩
  | succ n ih =>
    refine after_bind.2 (after_modifyGet.2 ?_)
    have hcount : s.auxiliary.2.atoms.count = s.atoms.count + 1 := Atoms.count_fresh ..
    refine after_bind.2 ((ih (hs.makeAtom none)).mono (fun rs t h => ?_) fun _ _ h => h)
    obtain ⟨hrs, hwf, hgrown, htrue⟩ := h
    have hgrown : t.atoms.count = s.auxiliary.2.atoms.count + n := hgrown
    have hrs : rs = freshLiterals s.auxiliary.2.atoms.count n := hrs
    -- registers are made one after the other, so they are the atoms from the count on
    have hnew : Literal.pos s.atoms.count :: rs = freshLiterals s.atoms.count (n + 1) := by
      rw [hrs, hcount]
      rfl
    show After (pure (Literal.pos s.atoms.count :: rs)) t _ _
    exact after_pure.2 ⟨hnew, hwf, by omega, htrue⟩

/-! ### Running the counter -/

/-- An interpretation of the first atoms is one of some in which every asserted clause is true. -/
def Allows (s : Solver ρ) (count : Nat) (i : Interpretation) : Prop :=
  ∃ j : Interpretation, (∀ a < count, j a = i a) ∧ s.TrueIn j

/-- Fresh registers that are made to show a count show exactly that. -/
theorem shows_showing {first n count : Nat} (hle : count ≤ n) (m : Nat) :
    (i.showing first count).Shows (freshLiterals first n) m ↔ m ≤ count := by
  cases m with
  | zero => exact iff_of_true trivial (Nat.zero_le _)
  | succ m =>
    have hnot : ¬ first + m < first := Nat.not_lt.2 (Nat.le_add_right first m)
    -- a register is true as long as its place is below the count
    have hvalue : (i.showing first count).Satisfies (Literal.pos (first + m)) ↔ m < count := by
      show (if first + m < first then _ else decide (first + m - first < count)) = true ↔ _
      rw [if_neg hnot, decide_eq_true_iff, Nat.add_sub_cancel_left]
    constructor
    · rintro ⟨r, hr, hsat⟩
      rw [freshLiterals, List.getElem?_map] at hr
      obtain ⟨a, ha, rfl⟩ := Option.map_eq_some_iff.1 hr
      obtain ⟨hlt, rfl⟩ := List.getElem?_eq_some_iff.1 ha
      rw [List.getElem_range', Nat.one_mul] at hsat
      exact hvalue.1 hsat
    · intro hlt
      refine ⟨Literal.pos (first + m), ?_, hvalue.2 hlt⟩
      rw [freshLiterals, List.getElem?_map, List.getElem?_range' (by omega), Nat.one_mul]
      rfl

/-- What the counter has done from some registers along some literals. -/
structure Counted (bound : Nat) (before : Option (List Literal)) (ls : List Literal)
    (s t : Solver ρ) : Prop where
  sound : ∀ i, t.TrueIn i → s.TrueIn i ∧
    ∀ count ≤ bound, i.Reads before count → count + i.trueCount ls ≤ bound
  complete : ∀ i count, s.TrueIn i → (∀ n, i.Reads before n ↔ n ≤ count) →
    count + i.trueCount ls ≤ bound → t.Allows s.atoms.count i

/-- The last literal raises no registers: it is refused when those before it are full. -/
theorem Counted.last {bound : Nat} (hpos : 0 < bound) {before : Option (List Literal)}
    (hbefore : ∀ rs, before = some rs → rs.length = bound) :
    Counted bound before [x] s (storeAll (((before.getD []).drop ((before.getD []).length - 1)).map
      fun full => [x.negate, full.negate]) s) where
  sound := by
    intro i hi
    obtain ⟨hi, hcs⟩ := (trueIn_storeAll _).1 hi
    refine ⟨hi, fun count hle hcount => ?_⟩
    by_cases hsat : i.Satisfies x
    · -- the count before the literal is not the bound yet
      have hne : count ≠ bound := by
        rintro rfl
        exact (isTrue_lastCount hpos hbefore).1 hcs hsat hcount
      rw [trueCount_singleton_of_satisfies hsat]
      omega
    · rwa [trueCount_singleton_of_not hsat]
  complete := by
    intro i count hi hcount hle
    refine ⟨i, fun _ _ => rfl, (trueIn_storeAll _).2 ⟨hi, ?_⟩⟩
    refine (isTrue_lastCount hpos hbefore).2 fun hsat hfull => ?_
    have := (hcount bound).1 hfull
    rw [trueCount_singleton_of_satisfies hsat] at hle
    omega

/-- What is counted along the other literals, from registers made for the first one, is counted
along all of them. -/
theorem Counted.cons {bound : Nat} (hpos : 0 < bound) {before : Option (List Literal)}
    (hs : s.WellFormed) (hls : ∀ l ∈ x :: ls, l.atom < s.atoms.count)
    (hbefore : ∀ rs, before = some rs → rs.length = bound ∧ ∀ r ∈ rs, r.atom < s.atoms.count)
    {t u : Solver ρ} (hle : s.atoms.count ≤ t.atoms.count)
    (ht : ∀ i, t.TrueIn i ↔ s.TrueIn i ∧
      ∀ c ∈ countClauses x before (freshLiterals s.atoms.count bound), i.IsTrue c)
    (h : Counted bound (some (freshLiterals s.atoms.count bound)) ls t u) :
    Counted bound before (x :: ls) s u := by
  have hlen : (freshLiterals s.atoms.count bound).length = bound := length_freshLiterals ..
  have hbefore' : ∀ rs, before = some rs → rs.length = bound := fun rs hrs => (hbefore rs hrs).1
  obtain ⟨hx, hls⟩ := List.forall_mem_cons.1 hls
  refine ⟨fun i hi => ?_, fun i count hi hcount hbound => ?_⟩
  · obtain ⟨hi, hrest⟩ := h.sound i hi
    obtain ⟨hi, hcs⟩ := (ht i).1 hi
    refine ⟨hi, fun count hbound hcount => ?_⟩
    obtain ⟨hbound, hshows⟩ := reads_of_isTrue hpos hlen hbefore' hcs hbound hcount
    rw [trueCount_cons, ← Nat.add_assoc]
    exact hrest _ hbound hshows
  · rw [trueCount_cons, ← Nat.add_assoc] at hbound
    -- the registers are given the values that show the count
    let shown := i.showing s.atoms.count (count + i.trueCount [x])
    have hagree : ∀ a < s.atoms.count, shown a = i a := fun a ha => showing_of_lt ha
    have hone : shown.trueCount [x] = i.trueCount [x] :=
      trueCount_congr (List.forall_mem_singleton.2 (hagree _ hx))
    have hall : shown.trueCount ls = i.trueCount ls :=
      trueCount_congr fun l hl => hagree _ (hls l hl)
    have hreads : ∀ n, shown.Reads before n ↔ n ≤ count := fun n =>
      (reads_congr fun rs hrs r hr => hagree _ ((hbefore rs hrs).2 r hr)).trans (hcount n)
    have hshows : ∀ n, shown.Shows (freshLiterals s.atoms.count bound) n ↔
        n ≤ count + i.trueCount [x] := shows_showing (by omega)
    have hcs := isTrue_of_reads hpos hlen hbefore' hreads (hone ▸ hshows) (by omega)
    have hshown : s.TrueIn shown := (hs.trueIn_congr hagree).2 hi
    obtain ⟨j, hj, hu⟩ := h.complete shown _ ((ht shown).2 ⟨hshown, hcs⟩) hshows (by omega)
    exact ⟨j, fun a ha => (hj a (Nat.lt_of_lt_of_le ha hle)).trans (hagree a ha), hu⟩

/-- The counter runs along the literals and does what `Counted` says. It is never refused, as all
its literals are known. -/
theorem after_countAlong {bound : Nat} (hpos : 0 < bound) {before : Option (List Literal)}
    (hs : s.WellFormed) (hls : ∀ l ∈ ls, l.atom < s.atoms.count)
    (hbefore : ∀ rs, before = some rs → rs.length = bound ∧ ∀ r ∈ rs, r.atom < s.atoms.count) :
    After (countAlong bound before ls) s (fun _ t => Counted bound before ls s t)
      fun _ _ => False := by
  induction ls generalizing before s with
  | nil =>
    exact after_pure.2 ⟨fun i hi => ⟨hi, fun count hle _ => hle⟩,
      fun i count hi _ _ => ⟨i, fun _ _ => rfl, hi⟩⟩
  | cons x xs ih =>
    obtain ⟨hx, hxs⟩ := List.forall_mem_cons.1 hls
    cases xs with
    | nil =>
      have hfull : ∀ r ∈ before.getD [], r.atom < s.atoms.count := by
        cases before with
        | none => nofun
        | some rs => exact (hbefore rs rfl).2
      refine (after_addClauses (below_refusals hx fun r hr =>
        hfull r (List.mem_of_mem_drop hr))).imp fun _ t ht => ?_
      subst ht
      exact Counted.last hpos fun rs hrs => (hbefore rs hrs).1
    | cons y ys =>
      refine after_bind.2 ((after_registers hs bound).imp fun now t h => ?_)
      obtain ⟨rfl, ht, hgrown, htrue⟩ := h
      have hold : ∀ a < s.atoms.count, a < t.atoms.count := fun a ha => by omega
      have hnew : ∀ r ∈ freshLiterals s.atoms.count bound, r.atom < t.atoms.count :=
        fun r hr => hgrown ▸ (atom_of_mem_freshLiterals hr).2
      have hbelow := below_countClauses (hold _ hx)
        (fun rs hrs r hr => hold _ ((hbefore rs hrs).2 r hr)) hnew
      refine after_bind.2 ((after_addClauses hbelow).imp fun _ u hu => ?_)
      have hatoms : u.atoms = t.atoms := hu ▸ atoms_storeAll _ t
      have hwf : u.WellFormed := hu ▸ ht.storeAll hbelow
      have hu : ∀ i, u.TrueIn i ↔ s.TrueIn i ∧
          ∀ c ∈ countClauses x before (freshLiterals s.atoms.count bound), i.IsTrue c := by
        intro i
        rw [hu, trueIn_storeAll, htrue]
      -- the rest of the literals is counted from the registers made now
      have hregisters : ∀ rs, some (freshLiterals s.atoms.count bound) = some rs →
          rs.length = bound ∧ ∀ r ∈ rs, r.atom < u.atoms.count := by
        rintro rs ⟨⟩
        exact ⟨length_freshLiterals .., hatoms ▸ hnew⟩
      refine (ih hwf (hatoms ▸ fun l hl => hold _ (hxs l hl)) hregisters).imp fun _ w h => ?_
      exact h.cons hpos hs hls hbefore (by rw [hatoms]; omega) hu

/-! ### Exact bounds -/

/-- Clauses over the atoms there are allow what makes them true. -/
theorem allows_storeAll (hs : s.WellFormed) {cs : List Clause}
    (hcs : Clause.Below s.atoms.count cs) :
    (storeAll cs s).Allows s.atoms.count i ↔ s.TrueIn i ∧ ∀ c ∈ cs, i.IsTrue c := by
  have hwf := hs.storeAll hcs
  have hatoms := atoms_storeAll cs s
  rw [← trueIn_storeAll]
  constructor
  · rintro ⟨j, hj, htrue⟩
    exact (hwf.trueIn_congr fun a ha => hj a (hatoms ▸ ha)).1 htrue
  · exact fun h => ⟨i, fun _ _ => rfl, h⟩

/-- A counter that ran from the start allows what was allowed before, as long as the bound is
kept. -/
theorem Counted.allows_iff {bound : Nat} {t : Solver ρ} (h : Counted bound none ls s t)
    (hs : s.WellFormed) (hls : ∀ l ∈ ls, l.atom < s.atoms.count) :
    t.Allows s.atoms.count i ↔ s.TrueIn i ∧ i.trueCount ls ≤ bound := by
  constructor
  · rintro ⟨j, hj, htrue⟩
    obtain ⟨htrue, hcount⟩ := h.sound j htrue
    have hbound := hcount 0 (Nat.zero_le _) rfl
    rw [Nat.zero_add, trueCount_congr fun l hl => hj _ (hls l hl)] at hbound
    exact ⟨(hs.trueIn_congr hj).1 htrue, hbound⟩
  · rintro ⟨htrue, hbound⟩
    exact h.complete i 0 htrue (fun n => Nat.le_zero.symm) (by rwa [Nat.zero_add])

/-- A bound on literals over the language is not refused, and it allows what keeps to it. -/
theorem after_addAtMost (hs : s.WellFormed) (hls : ∀ l ∈ ls, l.atom < s.atoms.count)
    (bound : Nat) :
    After (addAtMost bound ls) s (fun _ t => ∀ i, t.Allows s.atoms.count i ↔
      s.TrueIn i ∧ (ls.toFinset.filter fun l => i.Satisfies l).card ≤ bound) fun _ _ => False := by
  have hcanonical : ∀ l ∈ Clause.canonical ls, l.atom < s.atoms.count :=
    fun l hl => hls l (Clause.mem_canonical.1 hl)
  simp only [← trueCount_canonical]
  unfold addAtMost
  dsimp only
  split
  · rename_i hfew
    -- there are not more literals than may be true
    refine after_pure.2 fun i => ?_
    have hbound : i.trueCount (Clause.canonical ls) ≤ bound :=
      Nat.le_trans List.countP_le_length hfew
    have hnone : Clause.Below s.atoms.count [] := List.forall_mem_nil _
    refine (allows_storeAll hs hnone).trans (and_congr_right fun _ => ?_)
    exact iff_of_true (List.forall_mem_nil _) hbound
  · split
    · refine (after_addClauses (below_negated hcanonical)).imp fun _ t ht i => ?_
      rw [ht, allows_storeAll hs (below_negated hcanonical), isTrue_negated, Nat.le_zero]
    · refine (after_addClauses (below_pairwise hcanonical)).imp fun _ t ht i => ?_
      rw [ht, allows_storeAll hs (below_pairwise hcanonical), isTrue_pairwise]
    · rename_i hmany hne hne'
      have hpos : 0 < bound := Nat.pos_of_ne_zero hne
      have hstart : ∀ rs : List Literal, none = some rs →
          rs.length = bound ∧ ∀ r ∈ rs, r.atom < s.atoms.count := by
        intro rs hrs
        cases hrs
      refine (after_countAlong hpos hs hcanonical hstart).imp fun _ t h i => ?_
      exact h.allows_iff hs hcanonical

/-- To assert that exactly one of some literals is true allows the interpretations in which one of
them is, however often it is listed. -/
theorem after_unique (hs : s.WellFormed) (hls : ∀ l ∈ ls, l.atom < s.atoms.count) :
    After (unique ls) s (fun _ t => ∀ i, t.Allows s.atoms.count i ↔
      s.TrueIn i ∧ (ls.toFinset.filter fun l => i.Satisfies l).card = 1) fun _ _ => False := by
  refine after_bind.2 (after_bind.2 ((after_addClause ls s).mono (fun stored t h => ?_)
    fun e t h => ?_))
  · obtain rfl : t = (s.store ls).2 := congrArg Prod.snd h.2
    obtain ⟨clauses, status, hframe, -⟩ := store_frame ls s
    have hatoms : (s.store ls).2.atoms = s.atoms := by rw [hframe]
    have hrest := after_addAtMost (hs.store hls) (hatoms ▸ hls) 1
    rw [hatoms] at hrest
    refine hrest.imp fun _ t h i => ?_
    -- at least one by the clause, and at most one by the bound
    rw [h, trueIn_store, and_assoc, isTrue_and_card_le_one]
  · obtain ⟨l, hl, hge, -⟩ := h.2
    exact Nat.not_le_of_lt (hls l hl) hge

/-- **Bounds on the number of true literals are exact.** For every solver that can be reached and
all literals over its atoms: a bound is asserted without refusal, and then the values of the
atoms there were before can be completed to make every asserted clause true exactly when they
made those before true and at most so many of the literals are true, equal ones counted once;
and the same holds of the assertion that exactly one of them is true, which nothing satisfies
when there are no literals. -/
theorem Reachable.cardinality_exact [RandomSource ρ] (hs : s.Reachable)
    (hls : ∀ l ∈ ls, l.atom < s.atoms.count) (bound : Nat) :
    (∃ t, addAtMost bound ls s = .ok () t ∧ ∀ i, t.Allows s.atoms.count i ↔
        s.TrueIn i ∧ (ls.toFinset.filter fun l => i.Satisfies l).card ≤ bound) ∧
      ∃ t, unique ls s = .ok () t ∧
        (∀ i, t.Allows s.atoms.count i ↔
          s.TrueIn i ∧ (ls.toFinset.filter fun l => i.Satisfies l).card = 1) ∧
        (ls = [] → ∀ i, ¬ t.Allows s.atoms.count i) := by
  obtain ⟨_, t, ht, hallows⟩ := (after_addAtMost hs.wellFormed hls bound).exists_ok
  obtain ⟨_, u, hu, hunique⟩ := (after_unique hs.wellFormed hls).exists_ok
  refine ⟨⟨t, ht, hallows⟩, u, hu, hunique, ?_⟩
  -- of no literals exactly one would have to be true
  rintro rfl i hi
  have hone := ((hunique i).1 hi).2
  cases hone

/-- At most two of six literals, among them top, a literal twice and one with its negation. Top and
one of the latter are true in any case, so no other may be. -/
theorem cardinality_exact_top :
    let s : Solver Pcg := [Move.freshAtom none, .freshAtom none, .freshAtom none].foldl
      (fun s m => m.perform s) (ofConfig {} (Pcg.ofSeed 0))
    let ls := [Literal.pos 1, Literal.pos 2, Literal.neg 1, Literal.pos 3, Literal.pos Atom.top,
      Literal.pos 1]
    s.Reachable ∧ (∀ l ∈ ls, l.atom < s.atoms.count) ∧
      (∃ t, addAtMost 2 ls s = .ok () t ∧ t.Allows s.atoms.count (fun a => a == Atom.top) ∧
        ¬ t.Allows s.atoms.count fun a => a != 1) ∧
      ∃ t, unique ls s = .ok () t ∧ ¬ t.Allows s.atoms.count fun a => a == Atom.top := by
  intro s ls
  have hs : s.Reachable := (Reachable.start {} (Pcg.ofSeed 0)).moves _
  have hls : ∀ l ∈ ls, l.atom < s.atoms.count := by decide +kernel
  have htrue : s.TrueIn fun a => a == Atom.top := by
    intro c hc
    exact absurd hc (Array.not_mem_empty c)
  obtain ⟨⟨t, ht, hallows⟩, u, hu, hunique, -⟩ := hs.cardinality_exact hls 2
  refine ⟨hs, hls, ⟨t, ht, (hallows _).2 ⟨htrue, by decide⟩, fun h => ?_⟩, u, hu, fun h => ?_⟩
  · exact absurd ((hallows _).1 h).2 (by decide)
  · exact absurd ((hunique _).1 h).2 (by decide)

end Solver

end Storyworld
