import Mathlib.Data.List.Sort
import Storyworld.Proofs.Solver.Supports
import Storyworld.Random.Pcg

namespace Storyworld

/-!
# What was asserted once is not stored again

Once a constraint has been asserted, to assert it again changes nothing at all, whatever was done
in between and in whatever order and however often its literals are given this time
(`assert_again`).

* `Constraint.Restates`: two constraints are the same but for the order and the repetition of
  literals. An implication is its clause, so it may come back as one or as its contraposition.
* `Clause.canonical_congr`: the canonical form forgets order and repetition, so that it can serve
  as the key under which clauses and rules are remembered.
* `Grows`: nothing is forgotten. Every move only adds atoms, clauses and rules.
* `Holds`: the solver remembers the constraint, under its canonical form, unless it is a tautology,
  for which nothing is stored.

The crux is that the key is looked up before anything is made for a rule. A rule that is known is
recognised by its own body, so that no atom is made for the body a second time.
-/

namespace Clause

/-- A clause in canonical form holds every literal once. -/
theorem Increasing.nodup {c : Clause} (hc : c.Increasing) : c.Nodup := by
  apply List.Pairwise.imp _ hc
  rintro l m hlt rfl
  omega

/-- Clauses in increasing order are equal if they have the same literals. -/
theorem Increasing.eq_of_mem_iff {c d : Clause} (hc : c.Increasing) (hd : d.Increasing)
    (h : ∀ l, l ∈ c ↔ l ∈ d) : c = d := by
  have hperm : c.Perm d := (List.perm_ext_iff_of_nodup hc.nodup hd.nodup).2 h
  apply hperm.eq_of_pairwise _ hc hd
  intro l m _ _ hlm hml
  omega

/-- The canonical form forgets the order of literals and how often they stand there. -/
theorem canonical_congr {c d : Clause} (h : ∀ l, l ∈ c ↔ l ∈ d) : c.canonical = d.canonical := by
  apply (increasing_canonical c).eq_of_mem_iff (increasing_canonical d)
  simpa using h

end Clause

namespace Constraint

/-- The head of a rule. Other constraints have none. -/
def head? : Constraint → Option Nat
  | .rule head _ => some head
  | _ => none

/-- The literals of the clause that is asserted, or of the body of the rule. -/
def literals : Constraint → Clause
  | .clause c => c
  | .implication body head => [body.negate, head]
  | .rule _ body => body

/-- The constraints are the same but for the order of their literals and how often each of them
stands there. -/
def Restates (c d : Constraint) : Prop :=
  c.head? = d.head? ∧ ∀ l, l ∈ c.literals ↔ l ∈ d.literals

end Constraint

namespace Solver

open Action

variable {ρ : Type} {s t u : Solver ρ}

/-! ### Nothing is forgotten -/

/-- There may be more atoms, asserted clauses and rules, and not fewer. -/
structure Grows (s t : Solver ρ) : Prop where
  count : s.atoms.count ≤ t.atoms.count
  asserted : ∀ c ∈ s.clauses.asserted, c ∈ t.clauses.asserted
  recorded : ∀ r ∈ s.rules.recorded, r ∈ t.rules.recorded

theorem Grows.refl (s : Solver ρ) : Grows s s := ⟨Nat.le_refl _, fun _ h => h, fun _ h => h⟩

theorem Grows.trans (h : Grows s t) (h' : Grows t u) : Grows s u where
  count := Nat.le_trans h.count h'.count
  asserted c hc := h'.asserted c (h.asserted c hc)
  recorded r hr := h'.recorded r (h.recorded r hr)

theorem SameConstraints.grows (h : SameConstraints s t) : Grows s t where
  count := by simp [h.atoms]
  asserted := by simp [h.asserted]
  recorded := by simp [h.rules]

/-- A further atom forgets nothing. -/
theorem grows_makeAtom (name : Option Proposition) (s : Solver ρ) :
    Grows s (s.makeAtom name).2.invalidate where
  count := by
    show s.atoms.count ≤ (s.atoms.fresh name).2.count
    rw [Atoms.count_fresh]
    omega
  asserted _ hc := hc
  recorded _ hr := hr

/-- An atom that is asked for is made, or there already. -/
theorem grows_freshAtom (name : Option Proposition) (s : Solver ρ) :
    Grows s (s.freshAtom name).2 := by
  cases name with
  | none => exact grows_makeAtom none s
  | some p =>
    show Grows s (s.proposition p).2
    unfold proposition
    split
    · exact Grows.refl s
    · exact grows_makeAtom (some p) s

/-- A clause is stored beside the others, if it is new. -/
theorem grows_store (c : Clause) (s : Solver ρ) : Grows s (s.store c).2 := by
  have hasserted : ∀ d ∈ s.clauses.asserted, d ∈ (s.store c).2.clauses.asserted :=
    fun d hd => mem_asserted_store hd c
  obtain ⟨clauses, status, hframe, -⟩ := store_frame c s
  rw [hframe] at hasserted ⊢
  exact ⟨Nat.le_refl _, hasserted, fun _ hr => hr⟩

/-- Clauses are stored one after the other beside those there are. -/
theorem grows_storeAll (cs : List Clause) (s : Solver ρ) : Grows s (storeAll cs s) := by
  induction cs generalizing s with
  | nil => exact Grows.refl s
  | cons c cs ih => exact (grows_store c s).trans (ih (s.store c).2)

/-- A support may need an atom and the clauses that define it. -/
theorem grows_support (body : Clause) (s : Solver ρ) : Grows s (s.support body).2 := by
  rcases support_cases body s with ⟨l, -, h⟩ | ⟨a, -, h⟩ | ⟨-, h⟩
  · rw [h]
    exact Grows.refl s
  · rw [h]
    exact Grows.refl s
  · rw [h]
    -- to note what the atom stands for touches neither clauses nor recorded rules
    have hdefined := (grows_makeAtom none s).trans
      (grows_storeAll (definingClauses (Literal.pos s.atoms.count) body) s.auxiliary.2)
    exact ⟨hdefined.count, hdefined.asserted, hdefined.recorded⟩

/-- A rule is recorded beside the others. -/
theorem grows_recordRule (head : Atom) (body : Clause) (s : Solver ρ) :
    Grows s (recordRule head body s) := by
  have hstored := (grows_support body s).trans
    (grows_store [(s.support body).1.negate, Literal.pos head] (s.support body).2)
  refine ⟨hstored.count, hstored.asserted, fun r hr => ?_⟩
  exact Rules.mem_recorded_record.2 (Or.inr (hstored.recorded r hr))

/-- A rule that is stored forgets nothing, whether or not it is new. -/
theorem grows_storeRule (head : Atom) (body : Clause) (s : Solver ρ) :
    Grows s (s.storeRule head body).2 := by
  rcases storeRule_cases head body s with ⟨-, h⟩ | ⟨-, h⟩ | ⟨-, -, h⟩
  · rw [h]
    exact Grows.refl s
  · rw [h]
    exact Grows.refl s
  · rw [h]
    exact grows_recordRule head body.canonical s

/-- A clause that is asserted, or refused, forgets nothing. -/
theorem preserves_grows_addClause (c : Clause) : Preserves (Grows s) (addClause c) := by
  intro t ht
  apply (after_addClause c t).mono
  · intro stored u h
    obtain rfl : u = (t.store c).2 := congrArg Prod.snd h.2
    exact ht.trans (grows_store c t)
  · intro e u h
    rw [h.1]
    exact ht

/-- A rule that is asserted, or refused, forgets nothing. -/
theorem preserves_grows_addRule (head : Atom) (body : Clause) :
    Preserves (Grows s) (addRule head body) := by
  intro t ht
  apply (after_addRule head body t).mono
  · intro stored u h
    obtain rfl : u = (t.storeRule head body).2 := congrArg Prod.snd h.2.2.2
    exact ht.trans (grows_storeRule head body t)
  · intro e u h
    rw [h.1]
    exact ht

/-- To declare a head forgets no rule. -/
theorem preserves_grows_addHead (head : Atom) : Preserves (Grows s) (addHead head) := by
  intro t ht
  apply (after_addHead head t).mono
  · intro _ u h
    rw [h.2]
    exact ⟨ht.count, ht.asserted, ht.recorded⟩
  · intro e u h
    rw [h.1]
    exact ht

/-- A bound forgets nothing at any of its steps. -/
theorem preserves_grows_addAtMost (bound : Nat) (ls : List Literal) :
    Preserves (Grows s) (addAtMost bound ls) :=
  preserves_addAtMost_of (fun t ht => ht.trans (grows_makeAtom none t)) preserves_grows_addClause
    bound ls

/-- No move forgets anything. -/
theorem grows_perform [RandomSource ρ] (m : Move) (s : Solver ρ) : Grows s (m.perform s) := by
  cases m with
  | freshAtom name => exact grows_freshAtom name s
  | addClause c => exact (preserves_grows_addClause c).stateAfter (Grows.refl s)
  | addRule head body => exact (preserves_grows_addRule head body).stateAfter (Grows.refl s)
  | addHead head => exact (preserves_grows_addHead head).stateAfter (Grows.refl s)
  | addAtMost bound ls => exact (preserves_grows_addAtMost bound ls).stateAfter (Grows.refl s)
  | force l => exact (sameConstraints_perform rfl s).grows
  | reset => exact (sameConstraints_perform rfl s).grows
  | fixedValue a => exact (sameConstraints_perform rfl s).grows
  | solve optimize => exact (sameConstraints_perform rfl s).grows

/-- Whatever is done with a solver, it forgets nothing. -/
theorem grows_moves [RandomSource ρ] (ms : List Move) (s : Solver ρ) :
    Grows s (ms.foldl (fun s m => m.perform s) s) := by
  induction ms generalizing s with
  | nil => exact Grows.refl s
  | cons m ms ih => exact (grows_perform m s).trans (ih (m.perform s))

/-! ### What is remembered -/

/-- The solver remembers the constraint: it knows its literals, and if the constraint is no
tautology, it has stored the clause or recorded the rule. -/
structure Holds (s : Solver ρ) (c : Constraint) : Prop where
  known : ∀ l ∈ c.literals, l.atom < s.atoms.count
  entry : c.literals.canonical.clashes = true ∨
    match c.head? with
    | none => c.literals.canonical ∈ s.clauses.asserted
    | some head => (head, c.literals.canonical) ∈ s.rules.recorded
  head : ∀ head, c.head? = some head → head < s.atoms.count ∧ c.literals ≠ []

/-- What is remembered once is remembered from then on. -/
theorem Grows.holds (h : Grows s t) {c : Constraint} (hc : s.Holds c) : t.Holds c where
  known l hl := Nat.lt_of_lt_of_le (hc.known l hl) h.count
  entry := by
    apply hc.entry.imp_right
    cases c.head? with
    | none => exact h.asserted _
    | some head => exact h.recorded _
  head head hhead := ⟨Nat.lt_of_lt_of_le (hc.head head hhead).1 h.count, (hc.head head hhead).2⟩

/-- Who remembers a constraint remembers its restatements, as the canonical forms are the same. -/
theorem Holds.restates {c d : Constraint} (hc : s.Holds c) (hcd : c.Restates d) : s.Holds d where
  known l hl := hc.known l ((hcd.2 l).2 hl)
  entry := by
    rw [← hcd.1, ← Clause.canonical_congr hcd.2]
    exact hc.entry
  head head hhead := by
    obtain ⟨hlt, hne⟩ := hc.head head (hcd.1.trans hhead)
    refine ⟨hlt, fun hnil => hne ?_⟩
    apply List.eq_nil_iff_forall_not_mem.2
    intro l hl
    rw [hcd.2 l, hnil] at hl
    simp at hl

/-! ### Asserting remembers -/

/-- A clause that is asserted is remembered, also where it had been stored before. -/
theorem after_addClause_holds (c : Clause) (s : Solver ρ) :
    After (addClause c) s (fun _ t => t.Holds (.clause c)) fun _ _ => True := by
  apply (after_addClause c s).mono _ fun _ _ _ => trivial
  intro stored t h
  obtain rfl : t = (s.store c).2 := congrArg Prod.snd h.2
  have hgrows := grows_store c s
  refine ⟨fun l hl => Nat.lt_of_lt_of_le (h.1 l hl) hgrows.count, canonical_mem_store c s, ?_⟩
  intro head hhead
  simp [Constraint.head?] at hhead

/-- A rule that is asserted is remembered, also where it had been recorded before. -/
theorem after_addRule_holds (head : Atom) (body : Clause) (s : Solver ρ) :
    After (addRule head body) s (fun _ t => t.Holds (.rule head body)) fun _ _ => True := by
  apply (after_addRule head body s).mono _ fun _ _ _ => trivial
  intro stored t h
  obtain ⟨hne, hhead, hbody, hstored⟩ := h
  obtain rfl : t = (s.storeRule head body).2 := congrArg Prod.snd hstored
  have hgrows := grows_storeRule head body s
  refine ⟨fun l hl => Nat.lt_of_lt_of_le (hbody l hl) hgrows.count, ?_, ?_⟩
  · show body.canonical.clashes = true ∨
      (head, body.canonical) ∈ (s.storeRule head body).2.rules.recorded
    -- stored or stored before, the rule is recorded, unless it is a tautology
    rcases storeRule_cases head body s with ⟨hclash, -⟩ | ⟨hmem, hst⟩ | ⟨-, -, hst⟩
    · exact Or.inl hclash
    · rw [hst]
      exact Or.inr hmem
    · rw [hst, recordRule_rules]
      exact Or.inr (Rules.mem_recorded_record.2 (Or.inl rfl))
  · intro a ha
    obtain rfl : head = a := Option.some.inj ha
    exact ⟨Nat.lt_of_lt_of_le hhead hgrows.count, hne⟩

/-- Every constraint that is asserted is remembered. -/
theorem after_assert_holds (c : Constraint) (s : Solver ρ) :
    After (assert c) s (fun _ t => t.Holds c) fun _ _ => True := by
  cases c with
  | clause c => exact after_bind.2 (after_addClause_holds c s)
  | implication body head =>
    apply after_bind.2
    apply (after_addClause_holds [body.negate, head] s).imp_done
    intro _ t h
    exact after_pure.2 ⟨h.known, h.entry, h.head⟩
  | rule head body => exact after_bind.2 (after_addRule_holds head body s)

/-! ### What is remembered is not stored again -/

/-- A rule that is known, or a tautology, changes nothing, and no support is made for its body. -/
theorem storeRule_of_known {head : Atom} {body : Clause}
    (h : body.canonical.clashes = true ∨ (head, body.canonical) ∈ s.rules.recorded) :
    (s.storeRule head body).2 = s := by
  rcases storeRule_cases head body s with ⟨-, hst⟩ | ⟨-, hst⟩ | ⟨hclash, hnew, -⟩
  · rw [hst]
  · rw [hst]
  · simp [hclash, hnew] at h

/-- To assert a clause that is remembered changes nothing, and is not refused. -/
theorem Holds.after_addClause {c : Clause} (h : s.Holds (.clause c)) :
    After (addClause c) s (fun _ t => t = s) fun _ _ => False := by
  apply (Solver.after_addClause c s).mono
  · intro stored t ht
    obtain rfl : t = (s.store c).2 := congrArg Prod.snd ht.2
    exact store_of_known h.entry
  · intro e t ht
    obtain ⟨l, hl, hge, -⟩ := ht.2
    have hlt := h.known l hl
    omega

/-- To assert a rule that is remembered changes nothing, and is not refused. -/
theorem Holds.after_addRule {head : Nat} {body : Clause} (h : s.Holds (.rule head body)) :
    After (addRule head body) s (fun _ t => t = s) fun _ _ => False := by
  obtain ⟨hhead, hne⟩ := h.head head rfl
  apply (Solver.after_addRule head body s).mono
  · intro stored t ht
    obtain rfl : t = (s.storeRule head body).2 := congrArg Prod.snd ht.2.2.2
    exact storeRule_of_known h.entry
  · intro e t ht
    -- it is not refused: the body is not empty and its atoms are known
    rcases ht.2 with ⟨hempty, -⟩ | ⟨l, hl, hge, -⟩
    · exact hne hempty
    · rcases List.mem_cons.1 hl with rfl | hl
      · exact Nat.not_le_of_lt hhead hge
      · have hlt := h.known l hl
        omega

/-- To assert a constraint that is remembered changes nothing, and is not refused. -/
theorem Holds.after_assert {c : Constraint} (h : s.Holds c) :
    After (assert c) s (fun _ t => t = s) fun _ _ => False := by
  cases c with
  | clause c => exact after_bind.2 h.after_addClause
  | implication body head =>
    have hclause : s.Holds (.clause [body.negate, head]) := ⟨h.known, h.entry, h.head⟩
    exact after_bind.2 hclause.after_addClause
  | rule head body => exact after_bind.2 h.after_addRule

/-- What is remembered may be asserted again: that is not refused, and the solver stays as it is. -/
theorem Holds.assert_eq {c : Constraint} (h : s.Holds c) : assert c s = .ok () s := by
  obtain ⟨_, t, ht, rfl⟩ := h.after_assert.exists_ok
  exact ht

/-- **To assert a constraint again changes nothing.** Take a constraint, be it a clause, an
implication or a rule, that a solver has accepted, and any moves after that, some of which may have
been refused. To assert the constraint again, with its literals in any order and repeated in any
way, is not refused, and it leaves the whole solver as it was: the atoms, the clauses, the rules,
the supports, the definitions and the number of constraints with them. -/
theorem assert_again [RandomSource ρ] {c d : Constraint} (hc : assert c s = .ok () t)
    (hcd : c.Restates d) (ms : List Move) :
    let u := ms.foldl (fun s m => m.perform s) t
    assert d u = .ok () u := by
  intro u
  have ht : t.Holds c := (after_assert_holds c s).of_ok hc
  have hu : u.Holds c := (grows_moves ms t).holds ht
  exact (hu.restates hcd).assert_eq

/-- A rule with two literals in its body comes back with one of them twice, after a second rule for
its head, a search, a refused clause and a clause that stands for an implication. -/
theorem assert_again_rule :
    let s : Solver Pcg := [Move.freshAtom none, .freshAtom none, .freshAtom none].foldl
      (fun s m => m.perform s) (ofConfig {} (Pcg.ofSeed 0))
    let c := Constraint.rule 1 [Literal.pos 2, Literal.neg 3]
    let d := Constraint.rule 1 [Literal.neg 3, Literal.pos 2, Literal.neg 3]
    let u := [Move.addRule 1 [Literal.pos 3], .solve true, .addClause [Literal.pos 9],
      .addClause [Literal.neg 2, Literal.pos 3]].foldl (fun s m => m.perform s)
        (stateAfter (assert c) s)
    assert c s = .ok () (stateAfter (assert c) s) ∧ c.Restates d ∧
      u.atoms.count = 5 ∧ u.constraintCount = 8 ∧ assert d u = .ok () u := by
  intro s c d u
  have hc : assert c s = .ok () (stateAfter (assert c) s) := by
    apply eq_ok_of_value?
    decide +kernel
  have hsame : (∀ l ∈ c.literals, l ∈ d.literals) ∧ ∀ l ∈ d.literals, l ∈ c.literals := by decide
  have hcd : c.Restates d := ⟨rfl, fun l => ⟨hsame.1 l, hsame.2 l⟩⟩
  have hcount : u.atoms.count = 5 ∧ u.constraintCount = 8 := by decide +kernel
  exact ⟨hc, hcd, hcount.1, hcount.2, assert_again hc hcd _⟩

end Solver

end Storyworld
