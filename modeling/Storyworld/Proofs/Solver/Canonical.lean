import Storyworld.Proofs.Solver.Attained
import Storyworld.Proofs.Solver.Checked
import Storyworld.Proofs.Solver.Repetition

namespace Storyworld

/-!
# The clauses of a solver are canonical and distinct

A clause is told to be a tautology by a look at neighbours in its canonical form, and to be stored
already by a look for an equal list. Both say what they are to say of the set of its literals, as all
that is stored is in canonical form.

* `Clauses.Distinct`: of the asserted clauses none is a tautology, and no two are equal. It endures,
  since only `Clauses.store` adds to them, and with what is well formed it makes two clauses with the
  same literals one clause (`Attained.pairwise_asserted`).
* `Filed`: what an assertion answers, said of the literals of the clause (`Attained.after_filed`).
* `Clauses.Indexed` is what the last refresh has made of the index, for the asserted clauses as for
  the completion clauses, which are not in canonical form (`WellFormed.mem_occurrencesOf_iff`).
-/

namespace Literal

/-- By atom, and the negative literal of an atom before the positive one. -/
def Precedes (l m : Literal) : Prop :=
  l.atom < m.atom ∨ l.atom = m.atom ∧ l.positive = false ∧ m.positive = true

theorem index_lt_index_iff {l m : Literal} : l.index < m.index ↔ l.Precedes m := by
  unfold index Precedes
  cases l.positive <;> cases m.positive <;> simp <;> omega

end Literal

namespace Clause

theorem Increasing.pairwise_precedes {c : Clause} (h : c.Increasing) :
    c.Pairwise Literal.Precedes := h.imp Literal.index_lt_index_iff.1

/-- Neighbours are enough to look at: without a clash no atom stands in a clause twice. -/
theorem Increasing.nodup_atoms {c : Clause} (h : c.Increasing) (hplain : c.clashes = false) :
    (c.map Literal.atom).Nodup := by
  rw [List.nodup_iff_pairwise_ne, List.pairwise_map]
  refine h.imp_of_mem fun {l m} hl hm hlt hatom => ?_
  rcases Literal.eq_or_eq_negate hatom with rfl | rfl
  · omega
  · -- a literal and its negation clash, wherever they stand
    rw [clashes_of_mem h hm hl] at hplain
    cases hplain

end Clause

/-! ### Distinct clauses -/

namespace Clauses

/-- None of the asserted clauses is a tautology, and no two of them are equal. -/
structure Distinct (s : Clauses) : Prop where
  plain : ∀ c ∈ s.asserted, c.clashes = false
  nodup : s.asserted.toList.Nodup

theorem Distinct.of_eq {s t : Clauses} (h : s.Distinct) (hsame : t.asserted = s.asserted) :
    t.Distinct := by
  constructor
  · rw [hsame]
    exact h.plain
  · rw [hsame]
    exact h.nodup

/-- A clause is stored unless it is known, so it is another one. -/
theorem Distinct.store {s : Clauses} (h : s.Distinct) {c : Clause} (hplain : c.clashes = false) :
    (s.store c).2.Distinct := by
  unfold Clauses.store
  split
  · exact h
  · rename_i hknown
    constructor
    · intro d hd
      have hd : d ∈ s.asserted.push c := hd
      rcases Array.mem_push.1 hd with hd | rfl
      · exact h.plain d hd
      · exact hplain
    · show (s.asserted.push c).toList.Nodup
      rw [Array.toList_push, List.nodup_append]
      refine ⟨h.nodup, List.nodup_singleton c, fun d hd e he => ?_⟩
      rw [List.mem_singleton.1 he]
      rintro rfl
      -- the set of known clauses has just the asserted ones, so the new clause is none of them
      exact hknown ((s.known_iff _).2 (Array.mem_toList_iff.1 hd))

/-- The key that is given for a clause names it. -/
theorem get?_store {s t : Clauses} {c : Clause} {key : ClauseKey}
    (h : s.store c = (.added key, t)) : t.get? key = some c := by
  unfold Clauses.store at h
  split at h
  · cases h
  · cases h
    exact Array.getElem?_push_size

end Clauses

namespace Solver

open Action

variable {ρ : Type} {s t : Solver ρ} {c : Clause}

theorem distinct_store (h : s.clauses.Distinct) (c : Clause) : (s.store c).2.clauses.Distinct := by
  unfold store
  split
  · exact h
  · rename_i hclash
    have hstored := h.store (c := c.canonical) (by simpa using hclash)
    split
    · rename_i key clauses hstore
      rwa [hstore] at hstored
    · rename_i stored clauses _ hstore
      rwa [hstore] at hstored

/-- The key that is answered leads to the canonical form of the clause. -/
theorem get?_of_store {key : ClauseKey} (h : s.store c = (.added key, t)) :
    t.clauses.get? key = some c.canonical := by
  unfold store at h
  split at h
  · cases h
  · split at h
    · rename_i key' clauses hstore
      cases h
      exact Clauses.get?_store hstore
    · rename_i stored clauses hne hstore
      cases h
      exact absurd rfl (hne key)

variable [RandomSource ρ]

theorem enduring_distinct : Enduring fun s : Solver ρ => s.clauses.Distinct where
  makeAtom _ _ h := h
  store _ c h := distinct_store h c
  note _ _ _ _ _ h := h
  reset _ h := h
  refresh s _ h := by
    obtain ⟨clauses, _, _, _, hframe, hasserted⟩ := refresh_frame s
    exact h.of_eq (by rw [hframe, hasserted])
  advance s optimize n _ h := by
    obtain ⟨_, _, _, hcont⟩ := advance_continues optimize n s
    obtain ⟨_, clauses, _, _, _, hframe, hasserted⟩ := prepared_frame s
    exact h.of_eq (by rw [hcont, hframe, hasserted])

/-- No two stored clauses of a solver that is attained are equal. -/
theorem Attained.distinct (hs : s.Attained) : s.clauses.Distinct :=
  enduring_distinct.attained (fun _ _ => ⟨fun _ hc => absurd hc (Array.not_mem_empty _), .nil⟩) hs

/-- Of clauses with the same literals one is stored at most. -/
theorem Attained.pairwise_asserted (hs : s.Attained) :
    s.clauses.asserted.toList.Pairwise fun c d => ¬ ∀ l, l ∈ c ↔ l ∈ d := by
  have hwf := hs.wellFormed
  refine List.Pairwise.imp_of_mem (fun {c d} hc hd hne hsame => hne ?_) hs.distinct.nodup
  have hincreasing := (hwf.clauses c (Array.mem_toList_iff.1 hc)).1
  exact hincreasing.eq_of_mem_iff (hwf.clauses d (Array.mem_toList_iff.1 hd)).1 hsame

/-! ### What is answered -/

/-- The answer to the assertion of a clause, by its literals: it holds one and its negation, or else
has those of a clause that is stored, or else is stored now under a key that names its literals. -/
structure Filed (c : Clause) (s : Solver ρ) (stored : Stored) (t : Solver ρ) : Prop where
  tautology : stored = .tautology ↔ ∃ l ∈ c, l.negate ∈ c
  duplicate : stored = .duplicate ↔
    (¬ ∃ l ∈ c, l.negate ∈ c) ∧ ∃ d ∈ s.clauses.asserted, ∀ l, l ∈ d ↔ l ∈ c
  added : (∃ key, stored = .added key) ↔
    (¬ ∃ l ∈ c, l.negate ∈ c) ∧ ¬ ∃ d ∈ s.clauses.asserted, ∀ l, l ∈ d ↔ l ∈ c
  named : ∀ key, stored = .added key → ∃ d, t.clauses.get? key = some d ∧ ∀ l, l ∈ d ↔ l ∈ c

omit [RandomSource ρ] in
/-- The canonical form of a clause is among clauses in order exactly when one of them has its
literals. -/
theorem WellFormed.canonical_mem_iff (hs : s.WellFormed) :
    c.canonical ∈ s.clauses.asserted ↔ ∃ d ∈ s.clauses.asserted, ∀ l, l ∈ d ↔ l ∈ c := by
  constructor
  · exact fun h => ⟨c.canonical, h, fun _ => Clause.mem_canonical⟩
  · intro h
    obtain ⟨d, hd, hsame⟩ := h
    have he : d = c.canonical := (hs.clauses d hd).1.eq_of_mem_iff (Clause.increasing_canonical c)
      fun l => (hsame l).trans Clause.mem_canonical.symm
    exact he ▸ hd

omit [RandomSource ρ] in
theorem WellFormed.filed_store (hs : s.WellFormed) (hdistinct : s.clauses.Distinct) (c : Clause) :
    Filed c s (s.store c).1 (s.store c).2 := by
  have hknown := hs.canonical_mem_iff (c := c)
  have hclash := Clause.clashes_canonical_iff (c := c)
  rcases store_cases c s with ⟨htaut, h⟩ | ⟨hmem, h⟩ | ⟨key, clauses, hplain, hpush, h⟩
  · have hyes : ∃ l ∈ c, l.negate ∈ c := hclash.1 htaut
    rw [h]
    constructor
    · exact iff_of_true rfl hyes
    · exact iff_of_false nofun fun hn => hn.1 hyes
    · exact iff_of_false nofun fun hn => hn.1 hyes
    · exact nofun
  · have hno : ¬ ∃ l ∈ c, l.negate ∈ c := by
      rw [← hclash, hdistinct.plain _ hmem]
      exact Bool.false_ne_true
    rw [h]
    constructor
    · exact iff_of_false nofun hno
    · exact iff_of_true rfl ⟨hno, hknown.1 hmem⟩
    · exact iff_of_false nofun fun hn => hn.2 (hknown.1 hmem)
    · exact nofun
  · have hno : ¬ ∃ l ∈ c, l.negate ∈ c := by
      rw [← hclash, hplain]
      exact Bool.false_ne_true
    have hnew : c.canonical ∉ s.clauses.asserted := by
      intro hmem
      -- it would be there twice now
      have hnodup := (distinct_store hdistinct c).nodup
      rw [h] at hnodup
      have hnodup : clauses.asserted.toList.Nodup := hnodup
      rw [hpush, Array.toList_push, List.nodup_append] at hnodup
      exact hnodup.2.2 _ (Array.mem_toList_iff.2 hmem) _ (List.mem_singleton.2 rfl) rfl
    have hget := get?_of_store h
    rw [h]
    constructor
    · exact iff_of_false nofun hno
    · exact iff_of_false nofun fun hn => hnew (hknown.2 hn.2)
    · exact iff_of_true ⟨key, rfl⟩ ⟨hno, fun hn => hnew (hknown.2 hn)⟩
    · intro key' hkey'
      cases hkey'
      exact ⟨c.canonical, hget, fun _ => Clause.mem_canonical⟩

/-- A clause over the atoms that there are is not refused, and what is answered is right. -/
theorem Attained.after_filed (hs : s.Attained) (hc : ∀ l ∈ c, l.atom < s.atoms.count) :
    After (addClause c) s (Filed c s) fun _ _ => False := by
  have hfiled := hs.wellFormed.filed_store hs.distinct c
  refine (after_addClause c s).mono (fun stored t h => ?_) fun e t h => ?_
  · obtain ⟨rfl, rfl⟩ := Prod.mk.inj h.2
    exact hfiled
  · obtain ⟨l, hl, hle, -⟩ := h.2
    exact absurd (hc l hl) (Nat.not_lt.2 hle)

/-! ### The index -/

omit [RandomSource ρ] in
/-- After a refresh the keys that are kept for a literal are those of the clauses that hold it. -/
theorem WellFormed.mem_occurrencesOf_iff (hs : s.WellFormed) {l : Literal} {key : ClauseKey} :
    key ∈ s.refresh.clauses.occurrencesOf l ↔
      ∃ c, s.refresh.clauses.get? key = some c ∧ l ∈ c := by
  obtain ⟨hwf, hcurrent⟩ := hs.refresh
  rw [hcurrent.indexed l key]
  simp only [Clauses.mem_keyed_iff, and_iff_right_iff_imp]
  intro h
  obtain ⟨c, hc, hl⟩ := h
  have hmem : c ∈ s.refresh.clauses.all :=
    Clauses.mem_all_iff.2 ⟨key, Clauses.mem_keyed_iff.2 hc⟩
  rw [hcurrent.all_eq] at hmem
  exact hwf.below c hmem l hl

/-- **The clauses are canonical and distinct, and the index is faithful.** However a solver has come
about, each clause that is asserted stands in increasing order by atom and polarity and has no atom
twice, no two have the same literals, and the set that clauses are looked up in is the set of them.
Hence a clause over the atoms that there are is answered by its literals alone. And after a refresh
the keys that are kept for a literal, asserted clauses and completion clauses alike, are those of
the clauses that hold it. -/
theorem Attained.canonical_clauses (hs : s.Attained) :
    (∀ c ∈ s.clauses.asserted,
      c.Pairwise Literal.Precedes ∧ (c.map Literal.atom).Nodup) ∧
      (s.clauses.asserted.toList.Pairwise fun c d => ¬ ∀ l, l ∈ c ↔ l ∈ d) ∧
      (∀ c, c ∈ s.clauses.known ↔ c ∈ s.clauses.asserted) ∧
      (∀ c : Clause, (∀ l ∈ c, l.atom < s.atoms.count) →
        After (addClause c) s (Filed c s) fun _ _ => False) ∧
      ∀ l key, key ∈ s.refresh.clauses.occurrencesOf l ↔
        ∃ c, s.refresh.clauses.get? key = some c ∧ l ∈ c := by
  have hwf := hs.wellFormed
  refine ⟨fun c hc => ?_, hs.pairwise_asserted, s.clauses.known_iff, fun c hc => hs.after_filed hc,
    fun l key => hwf.mem_occurrencesOf_iff⟩
  have hincreasing := (hwf.clauses c hc).1
  -- an atom that occurs twice does so with both signs, and then the clause is a tautology
  exact ⟨hincreasing.pairwise_precedes, hincreasing.nodup_atoms (hs.distinct.plain c hc)⟩

/-- Clauses given out of order and with repetitions, next to a rule. -/
theorem canonical_clauses_repeated :
    let s : Solver Pcg := [Move.freshAtom none, .freshAtom none, .freshAtom none,
      .addClause [Literal.pos 2, Literal.neg 1, Literal.pos 2], .addHead 3,
      .addRule 3 [Literal.pos 1]].foldl (fun s m => m.perform s) (ofConfig {} (Pcg.ofSeed 0))
    s.Attained ∧
      s.clauses.asserted = #[[Literal.neg 1, Literal.pos 2], [Literal.neg 1, Literal.pos 3]] ∧
      (∀ c ∈ s.clauses.asserted,
        c.Pairwise Literal.Precedes ∧ (c.map Literal.atom).Nodup) ∧
      (s.clauses.asserted.toList.Pairwise fun c d => ¬ ∀ l, l ∈ c ↔ l ∈ d) ∧
      (∀ c, c ∈ s.clauses.known ↔ c ∈ s.clauses.asserted) ∧
      (∀ c : Clause, (∀ l ∈ c, l.atom < s.atoms.count) →
        After (addClause c) s (Filed c s) fun _ _ => False) ∧
      ∀ l key, key ∈ s.refresh.clauses.occurrencesOf l ↔
        ∃ c, s.refresh.clauses.get? key = some c ∧ l ∈ c := by
  intro s
  have hs : s.Attained := (Attained.start {} (Pcg.ofSeed 0)).moves _
  have hasserted : s.clauses.asserted =
      #[[Literal.neg 1, Literal.pos 2], [Literal.neg 1, Literal.pos 3]] := by decide +kernel
  -- from here on it does not matter what the solver is
  clear_value s
  exact ⟨hs, hasserted, hs.canonical_clauses⟩

end Solver

end Storyworld
