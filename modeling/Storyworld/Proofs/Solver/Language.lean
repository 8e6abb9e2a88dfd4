import Storyworld.Proofs.Solver.Propagation
import Storyworld.Solver.Assert

namespace Storyworld

/-!
# What a solver stores

The atoms, the clauses and the rules of a solver, each with what always holds of them, and
with what the operations that add to them do. The names of atoms are right
(`Atoms.Sound`), the clauses are ordered and over the atoms (`Clauses.Over`), and so are the
literals that the rules keep (`Rules.Over`).
-/

/-! ### Atoms -/

namespace Atoms

/-- Top has no name, and an atom that a name leads to has that name. -/
structure Sound (s : Atoms) : Prop where
  count_pos : 0 < s.count
  top : s.name? Atom.top = none
  named : ∀ p a, s.named? p = some a → s.name? a = some p

/-- At first no name leads to an atom. -/
theorem named?_start (p : Proposition) : ({} : Atoms).named? p = none :=
  Std.TreeMap.getElem?_emptyc

theorem sound_start : Sound {} where
  count_pos := Nat.one_pos
  top := rfl
  named := by
    intro p a h
    rw [named?_start] at h
    cases h

/-- An atom that there is not has no name. -/
theorem name?_eq_none {s : Atoms} {a : Atom} (h : s.count ≤ a) : s.name? a = none := by
  rw [name?, Array.getElem?_eq_none h]
  rfl

/-- Only an atom that there is has a name. -/
theorem lt_count {s : Atoms} {a : Atom} {p : Proposition} (h : s.name? a = some p) :
    a < s.count := by
  rcases Nat.lt_or_ge a s.count with hlt | hge
  · exact hlt
  · rw [name?_eq_none hge] at h
    cases h

/-- A name leads to an atom that there is. -/
theorem Sound.lt {s : Atoms} (hs : s.Sound) {p : Proposition} {a : Atom}
    (h : s.named? p = some a) : a < s.count := lt_count (hs.named p a h)

@[simp] theorem fst_fresh (s : Atoms) (name : Option Proposition) :
    (s.fresh name).1 = s.count := rfl

/-- A new atom has the name that it is given, and the others keep theirs. -/
theorem name?_fresh (s : Atoms) (name : Option Proposition) (a : Atom) :
    (s.fresh name).2.name? a = if a = s.count then name else s.name? a := by
  show (s.names.push name)[a]?.join = if a = s.names.size then name else s.names[a]?.join
  rw [Array.getElem?_push]
  split <;> rfl

/-- The atoms that there are keep their names. -/
theorem name?_fresh_of_lt {s : Atoms} {a : Atom} (h : a < s.count) (name : Option Proposition) :
    (s.fresh name).2.name? a = s.name? a := by
  rw [name?_fresh, if_neg (Nat.ne_of_lt h)]

/-- A name that is given to a new atom leads to it from then on. -/
theorem named?_fresh_some (s : Atoms) (p q : Proposition) :
    (s.fresh (some p)).2.named? q = if p = q then some s.count else s.named? q := by
  show (s.index.insert p s.names.size)[q]? = _
  rw [Std.TreeMap.getElem?_insert]
  by_cases h : p = q
  · subst h
    rw [if_pos Std.ReflCmp.compare_self, if_pos rfl]
    rfl
  · rw [if_neg (fun e => h (Std.LawfulEqOrd.eq_of_compare e)), if_neg h]
    rfl

/-- Names stay right when an atom is made, also where its name had been given before. -/
theorem Sound.fresh {s : Atoms} (hs : s.Sound) (name : Option Proposition) :
    (s.fresh name).2.Sound where
  count_pos := by
    rw [count_fresh]
    exact Nat.succ_pos _
  top := (name?_fresh_of_lt hs.count_pos name).trans hs.top
  named := by
    intro q a h
    cases name with
    | none =>
      -- an atom without a name leaves the index as it is
      rw [name?_fresh_of_lt (hs.lt h)]
      exact hs.named q a h
    | some p =>
      rw [named?_fresh_some] at h
      split at h
      · rename_i hpq
        cases h
        rw [name?_fresh, if_pos rfl, hpq]
      · rw [name?_fresh_of_lt (hs.lt h)]
        exact hs.named q a h

/-- The same names lead to the same atoms, and new names to new atoms. -/
theorem Sound.injective {s : Atoms} (hs : s.Sound) {p q : Proposition} {a : Atom}
    (hp : s.named? p = some a) (hq : s.named? q = some a) : p = q := by
  have hname := hs.named p a hp
  rw [hs.named q a hq] at hname
  exact (Option.some.inj hname).symm

end Atoms

/-! ### Clauses -/

namespace Clauses

/-- The asserted clauses are in order and over the first `count` atoms. -/
def Over (count : Nat) (s : Clauses) : Prop :=
  ∀ c ∈ s.asserted, c.Increasing ∧ ∀ l ∈ c, l.atom < count

theorem Over.mono {m n : Nat} {s : Clauses} (h : s.Over m) (hmn : m ≤ n) : s.Over n :=
  fun c hc => ⟨(h c hc).1, fun l hl => Nat.lt_of_lt_of_le ((h c hc).2 l hl) hmn⟩

end Clauses

/-! ### Rules -/

namespace Rules

/-- Heads, supports and the atoms of bodies are among the first `count` atoms, and a head that
has a support has a rule. -/
structure Over (count : Nat) (r : Rules) : Prop where
  heads : ∀ h ∈ r.supports, h < count
  supports : ∀ h, ∀ l ∈ r.supportsOf h, l.atom < count
  definitions : ∀ d ∈ r.definitions, d.2 < count
  recorded : ∀ h, r.supportsOf h ≠ [] → ∃ body, (h, body) ∈ r.recorded

/-- Without rules there is nothing to go wrong. -/
theorem over_start (count : Nat) : Over count {} := by
  -- no head has supports at the start
  have hempty : ∀ h, supportsOf {} h = [] := by
    intro h
    show ((∅ : Std.TreeMap Nat (List Literal))[h]?).getD [] = []
    rw [Std.TreeMap.getElem?_emptyc]
    rfl
  constructor
  · intro h hh
    exact absurd hh Std.TreeMap.not_mem_emptyc
  · intro h l hl
    rw [hempty] at hl
    cases hl
  · intro d hd
    cases hd
  · intro h hh
    exact absurd (hempty h) hh

theorem Over.mono {m n : Nat} {r : Rules} (h : r.Over m) (hmn : m ≤ n) : r.Over n where
  heads k hk := Nat.lt_of_lt_of_le (h.heads k hk) hmn
  supports k l hl := Nat.lt_of_lt_of_le (h.supports k l hl) hmn
  definitions d hd := Nat.lt_of_lt_of_le (h.definitions d hd) hmn
  recorded := h.recorded

/-- The supports that are put down for a head are those that it has. -/
theorem supportsOf_insert (r : Rules) (h k : Atom) (ls : List Literal) :
    ({ r with supports := r.supports.insert h ls } : Rules).supportsOf k =
      if h = k then ls else r.supportsOf k := by
  show ((r.supports.insert h ls)[k]?).getD [] = _
  rw [Std.TreeMap.getElem?_insert]
  by_cases hk : h = k
  · rw [if_pos hk, if_pos (Std.LawfulEqOrd.compare_eq_iff_eq.2 hk)]
    rfl
  · rw [if_neg hk, if_neg fun e => hk (Std.LawfulEqOrd.compare_eq_iff_eq.1 e)]
    rfl

/-- A head for which supports are put down is a head, also without any. -/
theorem mem_supports_insert {r : Rules} {h k : Atom} {ls : List Literal} :
    k ∈ r.supports.insert h ls ↔ k = h ∨ k ∈ r.supports := by
  rw [Std.TreeMap.mem_insert, Std.LawfulEqOrd.compare_eq_iff_eq]
  exact or_congr_left eq_comm

@[simp] theorem supportsOf_declareHead (r : Rules) (h k : Atom) :
    (r.declareHead h).supportsOf k = r.supportsOf k := by
  rw [declareHead, supportsOf_insert]
  split
  · rename_i hk
    rw [hk]
  · rfl

/-- To declare a head makes it one. -/
theorem mem_supports_declareHead {r : Rules} {h k : Atom} :
    k ∈ (r.declareHead h).supports ↔ k = h ∨ k ∈ r.supports := mem_supports_insert

/-- A rule that is recorded adds its support to those of its head, unless it is there already. -/
theorem supportsOf_record (r : Rules) (h k : Atom) (body : Clause) (support : Literal) :
    (r.record h body support).supportsOf k =
      if h = k then
        if support ∈ r.supportsOf h then r.supportsOf h else r.supportsOf h ++ [support]
      else r.supportsOf k := supportsOf_insert r h k _

/-- The head of a rule that is recorded is a head. -/
theorem mem_supports_record {r : Rules} {h k : Atom} {body : Clause} {support : Literal} :
    k ∈ (r.record h body support).supports ↔ k = h ∨ k ∈ r.supports := mem_supports_insert

/-- The supports of a head after a rule are those before and, if it is the head of the rule, the new
one. -/
theorem mem_supportsOf_record {r : Rules} {h k : Atom} {body : Clause} {support l : Literal} :
    l ∈ (r.record h body support).supportsOf k ↔
      l ∈ r.supportsOf k ∨ h = k ∧ l = support := by
  rw [supportsOf_record]
  by_cases hk : h = k
  · subst hk
    rw [if_pos rfl]
    split
    · rename_i hmem
      -- the support is one of this head already
      exact ⟨Or.inl, fun hl => hl.elim id fun e => e.2 ▸ hmem⟩
    · rw [List.mem_append, List.mem_singleton]
      exact or_congr_right (and_iff_right rfl).symm
  · rw [if_neg hk]
    exact (or_iff_left fun e => hk e.1).symm

/-- A rule that is recorded is there beside the others. -/
theorem mem_recorded_record {r : Rules} {h : Atom} {body : Clause} {support : Literal}
    {e : Nat × Clause} :
    e ∈ (r.record h body support).recorded ↔ e = (h, body) ∨ e ∈ r.recorded := by
  show e ∈ (if r.contains h body then r.recorded else (h, body) :: r.recorded) ↔ _
  split
  · rename_i hmem
    have hmem : (h, body) ∈ r.recorded := of_decide_eq_true hmem
    exact ⟨Or.inr, fun he => he.elim (fun e => e ▸ hmem) id⟩
  · exact List.mem_cons

/-- A head that is one of the atoms may be declared. -/
theorem Over.declareHead {count : Nat} {r : Rules} (hr : r.Over count) {h : Atom}
    (hh : h < count) : (r.declareHead h).Over count where
  heads k hk := (mem_supports_declareHead.1 hk).elim (fun e => e ▸ hh) (hr.heads k)
  supports k l hl := hr.supports k l (supportsOf_declareHead r h k ▸ hl)
  definitions := hr.definitions
  recorded k hk := hr.recorded k (supportsOf_declareHead r h k ▸ hk)

/-- A rule may be recorded whose head and support are among the atoms. -/
theorem Over.record {count : Nat} {r : Rules} (hr : r.Over count) {h : Atom} (hh : h < count)
    (body : Clause) {support : Literal} (hsupport : support.atom < count) :
    (r.record h body support).Over count where
  heads k hk := (mem_supports_record.1 hk).elim (fun e => e ▸ hh) (hr.heads k)
  supports k l hl := by
    rcases mem_supportsOf_record.1 hl with hl | ⟨-, rfl⟩
    · exact hr.supports k l hl
    · exact hsupport
  definitions := hr.definitions
  recorded k hk := by
    by_cases hkh : h = k
    · -- the head of the rule that is recorded now
      exact ⟨body, mem_recorded_record.2 (Or.inl (by rw [hkh]))⟩
    · rw [supportsOf_record, if_neg hkh] at hk
      obtain ⟨b, hb⟩ := hr.recorded k hk
      exact ⟨b, mem_recorded_record.2 (Or.inr hb)⟩

/-- A body may be given an atom that there is. -/
theorem Over.define {count : Nat} {r : Rules} (hr : r.Over count) (body : Clause) {a : Atom}
    (ha : a < count) : (r.define body a).Over count where
  heads := hr.heads
  supports := hr.supports
  definitions d hd := by
    rcases List.mem_cons.1 hd with rfl | hd
    · exact ha
    · exact hr.definitions d hd
  recorded := hr.recorded

/-- The completion clause of a head says that it is false or one of its supports is true. -/
theorem mem_completion {r : Rules} {c : Clause} :
    c ∈ r.completion ↔ ∃ h ∈ r.supports, c = Literal.neg h :: r.supportsOf h := by
  rw [completion, List.mem_map]
  constructor
  · -- the table has one entry for each head, with its supports
    rintro ⟨⟨h, ls⟩, hmem, rfl⟩
    have hget := Std.TreeMap.mem_toList_iff_getElem?_eq_some.1 hmem
    refine ⟨h, Std.TreeMap.mem_iff_isSome_getElem?.2 (by rw [hget]; rfl), ?_⟩
    rw [supportsOf, hget]
    rfl
  · rintro ⟨h, hmem, rfl⟩
    obtain ⟨ls, hget⟩ := Option.isSome_iff_exists.1 (Std.TreeMap.mem_iff_isSome_getElem?.1 hmem)
    refine ⟨(h, ls), Std.TreeMap.mem_toList_iff_getElem?_eq_some.2 hget, ?_⟩
    rw [supportsOf, hget]
    rfl

/-- The completion clauses mention the atoms of heads and supports only. -/
theorem Over.below {count : Nat} {r : Rules} (hr : r.Over count) :
    Clause.Below count r.completion := by
  intro c hc l hl
  obtain ⟨h, hh, rfl⟩ := mem_completion.1 hc
  rcases List.mem_cons.1 hl with rfl | hl
  · exact hr.heads h hh
  · exact hr.supports h l hl

end Rules

end Storyworld
