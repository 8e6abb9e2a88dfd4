import Storyworld.Proofs.Solver.Counting
import Storyworld.Proofs.Solver.Question

namespace Storyworld

/-!
# What is asserted stays in force

A solver enforces a statement about interpretations if it holds wherever the asserted clauses are
true. Clauses are never taken back, so what is enforced goes on to be (`Enforces.perform`), and what
is asserted is enforced from then on (`after_assert_enforces`, `after_addAtMost_enforces`,
`after_unique_enforces`).

The crux are rules. A rule that was recorded before is not stored again, and a body that was given
an atom is not defined again, so it is part of the invariant that the solver enforces all the rules
that it has recorded and all the definitions.
-/

namespace Interpretation

/-- The interpretation keeps to the constraint. -/
def Meets (i : Interpretation) : Constraint → Prop
  | .clause c => i.IsTrue c
  | .implication body head => i.Satisfies body → i.Satisfies head
  | .rule head body => i.SatisfiesAll body → i head = true

end Interpretation

namespace Solver

open Action

variable {ρ : Type} {P Q : Interpretation → Prop} {s t : Solver ρ} {ls : List Literal}

/-- The statement holds wherever the asserted clauses are true, and so do the rules that were
recorded and the definitions of bodies. -/
structure Enforces (P : Interpretation → Prop) (s : Solver ρ) : Prop where
  holds : ∀ i, s.TrueIn i → P i
  recorded : ∀ head body, (head, body) ∈ s.rules.recorded →
    ∀ i, s.TrueIn i → i.SatisfiesAll body → i head = true
  defined : ∀ i, s.TrueIn i → s.rules.DefinedIn i

/-- A new solver enforces nothing. -/
theorem enforces_ofConfig (config : Config) (source : ρ) :
    Enforces (fun _ => True) (ofConfig config source) where
  holds _ _ := trivial
  recorded _ _ hrule := by cases hrule
  defined _ _ _ hd := by cases hd

/-- What follows from what is enforced is enforced. -/
theorem Enforces.imp (h : Enforces P s) (hPQ : ∀ i, P i → Q i) : Enforces Q s :=
  ⟨fun i hi => hPQ i (h.holds i hi), h.recorded, h.defined⟩

/-- Two statements that are enforced are enforced together. -/
theorem Enforces.and (h : Enforces P s) (hQ : ∀ i, s.TrueIn i → Q i) :
    Enforces (fun i => P i ∧ Q i) s :=
  ⟨fun i hi => ⟨h.holds i hi, hQ i hi⟩, h.recorded, h.defined⟩

/-- What is enforced goes on to be as long as clauses are only added. -/
theorem Enforces.of_rules (h : Enforces P s) (hrecorded : t.rules.recorded = s.rules.recorded)
    (hdefinitions : t.rules.definitions = s.rules.definitions)
    (htrue : ∀ i, t.TrueIn i → s.TrueIn i) : Enforces P t where
  holds i hi := h.holds i (htrue i hi)
  recorded head body hrule i hi := h.recorded head body (hrecorded ▸ hrule) i (htrue i hi)
  defined i hi d hd := h.defined i (htrue i hi) d (hdefinitions ▸ hd)

/-- What is enforced is a matter of the constraints. -/
theorem SameConstraints.enforces (hsame : SameConstraints s t) (h : Enforces P s) :
    Enforces P t := by
  refine h.of_rules (by rw [hsame.rules]) (by rw [hsame.rules]) fun i hi c hc => ?_
  rw [← hsame.asserted] at hc
  exact hi c hc

/-- A further atom changes nothing of what is enforced. -/
theorem Enforces.auxiliary (h : Enforces P s) : Enforces P s.auxiliary.2 :=
  h.of_rules rfl rfl fun _ hi => hi

/-- A proposition is looked up or given an atom, and nothing is asserted of it. -/
theorem Enforces.proposition (h : Enforces P s) (x : Proposition) :
    Enforces P (s.proposition x).2 := by
  unfold Solver.proposition
  split
  · exact h
  · exact h.of_rules rfl rfl fun _ hi => hi

/-- An atom that is asked for changes nothing of what is enforced. -/
theorem Enforces.freshAtom (h : Enforces P s) (name : Option Proposition) :
    Enforces P (s.freshAtom name).2 := by
  cases name with
  | none => exact h.auxiliary
  | some x => exact h.proposition x

/-! ### Clauses -/

/-- A clause that is stored is enforced, also where it is a tautology or there already. -/
theorem Enforces.store (h : Enforces P s) (c : Clause) :
    Enforces (fun i => P i ∧ i.IsTrue c) (s.store c).2 := by
  have htrue : ∀ i, (s.store c).2.TrueIn i → s.TrueIn i ∧ i.IsTrue c :=
    fun i => (trueIn_store c).1
  have hstored : Enforces P (s.store c).2 := by
    refine h.of_rules ?_ ?_ fun i hi => (htrue i hi).1
    all_goals
      obtain ⟨clauses, status, hframe, -⟩ := store_frame c s
      rw [hframe]
  exact hstored.and fun i hi => (htrue i hi).2

/-- A clause that is asserted is enforced from then on. -/
theorem after_addClause_enforces (h : Enforces P s) (c : Clause) :
    After (addClause c) s (fun _ t => Enforces (fun i => P i ∧ i.IsTrue c) t)
      (fun _ t => Enforces P t) := by
  refine (after_addClause c s).mono (fun stored t ht => ?_) fun e t ht => ht.1 ▸ h
  obtain rfl : t = (s.store c).2 := congrArg Prod.snd ht.2
  exact h.store c

/-- A clause changes nothing of what was enforced before. -/
theorem preserves_enforces_addClause (c : Clause) :
    Preserves (Enforces (ρ := ρ) P) (addClause c) :=
  fun _ h => (after_addClause_enforces h c).imp_done fun _ _ ht => ht.imp fun _ hi => hi.1

/-! ### Rules -/

/-- The support of a body is true exactly when the body is. -/
theorem Enforces.support (h : Enforces P s) (body : Clause) :
    Enforces (fun i => P i ∧ (i.Satisfies (s.support body).1 ↔ i.SatisfiesAll body))
      (s.support body).2 := by
  rcases support_cases body s with ⟨l, rfl, hst⟩ | ⟨a, ha, hst⟩ | ⟨-, hst⟩
  · rw [hst]
    exact h.and fun i _ => List.forall_mem_singleton.symm
  · rw [hst]
    exact h.and fun i hi => h.defined i hi _ ha
  · rw [hst]
    have htrue : ∀ i, (defineBody body s).TrueIn i →
        s.TrueIn i ∧ (i s.atoms.count = true ↔ i.SatisfiesAll body) :=
      fun i => (trueIn_defineBody body).1
    obtain ⟨clauses, hframe⟩ := defineBody_frame body s
    refine
      { holds := fun i hi => ⟨h.holds i (htrue i hi).1, (htrue i hi).2⟩
        recorded := fun head b hrule i hi => ?_
        defined := fun i hi d hd => ?_ }
    · rw [hframe] at hrule
      exact h.recorded head b hrule i (htrue i hi).1
    · rw [hframe] at hd
      -- the body is defined now, and the others were before
      rcases List.mem_cons.1 hd with rfl | hd
      · exact (htrue i hi).2
      · exact h.defined i (htrue i hi).1 d hd

/-- A rule that is recorded is enforced, through the support of its body. -/
theorem Enforces.recordRule (h : Enforces P s) (head : Atom) (body : Clause) :
    Enforces (fun i => P i ∧ (i.SatisfiesAll body → i head = true))
      (Solver.recordRule head body s) := by
  have hsupport := h.support body
  -- the support of the body is enforced first, and the head is enforced by way of it
  have htrue : ∀ i, (Solver.recordRule head body s).TrueIn i → (s.support body).2.TrueIn i ∧
      (i.SatisfiesAll body → i head = true) := by
    intro i hi
    obtain ⟨hbefore, hhead⟩ := (trueIn_recordRule head body).1 hi
    exact ⟨hbefore, fun hbody => hhead ((hsupport.holds i hbefore).2.2 hbody)⟩
  obtain ⟨clauses, hframe⟩ := recordRule_frame head body s
  refine
    { holds := fun i hi => ⟨(hsupport.holds i (htrue i hi).1).1, (htrue i hi).2⟩
      recorded := fun a b hrule i hi => ?_
      defined := fun i hi d hd => ?_ }
  · rw [hframe, Rules.mem_recorded_record] at hrule
    -- a recorded rule is the new one or one that was enforced before
    rcases hrule with e | hrule
    · obtain ⟨rfl, rfl⟩ := Prod.mk.inj e
      exact (htrue i hi).2
    · exact hsupport.recorded a b hrule i (htrue i hi).1
  · rw [hframe] at hd
    exact hsupport.defined i (htrue i hi).1 d hd

/-- A rule is enforced from then on, also if it is a tautology or was recorded before. -/
theorem Enforces.storeRule (h : Enforces P s) (head : Atom) (body : Clause) :
    Enforces (fun i => P i ∧ (i.SatisfiesAll body → i head = true)) (s.storeRule head body).2 := by
  rcases storeRule_cases head body s with ⟨hclash, hst⟩ | ⟨hrule, hst⟩ | ⟨-, -, hst⟩
  · rw [hst]
    refine h.and fun i _ hbody => ?_
    -- a body that clashes is never true
    obtain ⟨l, hl, hn⟩ := Clause.clashes_canonical_iff.1 hclash
    exact absurd (hbody l hl) (Interpretation.satisfies_negate.1 (hbody l.negate hn))
  · rw [hst]
    refine h.and fun i hi hbody => ?_
    exact h.recorded head _ hrule i hi (Interpretation.satisfiesAll_canonical.2 hbody)
  · rw [hst]
    refine (h.recordRule head body.canonical).imp fun i hi => ⟨hi.1, fun hbody => ?_⟩
    exact hi.2 (Interpretation.satisfiesAll_canonical.2 hbody)

/-- A rule that is asserted is enforced from then on, also where it had been recorded before. -/
theorem after_addRule_enforces (h : Enforces P s) (head : Atom) (body : Clause) :
    After (addRule head body) s
      (fun _ t => Enforces (fun i => P i ∧ (i.SatisfiesAll body → i head = true)) t)
      (fun _ t => Enforces P t) := by
  refine (after_addRule head body s).mono (fun stored t ht => ?_) fun e t ht => ht.1 ▸ h
  obtain rfl : t = (s.storeRule head body).2 := congrArg Prod.snd ht.2.2.2
  exact h.storeRule head body

/-- To declare a head asserts nothing. -/
theorem preserves_enforces_addHead (head : Atom) :
    Preserves (Enforces (ρ := ρ) P) (addHead head) := by
  intro s h
  refine (after_addHead head s).mono (fun _ t ht => ?_) fun e t ht => ht.1 ▸ h
  obtain ⟨-, rfl⟩ := ht
  exact h.of_rules rfl rfl fun _ hi => hi

/-! ### Constraints -/

/-- **What is asserted is enforced from then on.** -/
theorem after_assert_enforces (h : Enforces P s) (c : Constraint) :
    After (assert c) s (fun _ t => Enforces (fun i => P i ∧ i.Meets c) t)
      (fun _ t => Enforces P t) := by
  cases c with
  | clause c => exact after_bind.2 (after_addClause_enforces h c)
  | implication body head =>
    refine after_bind.2 ((after_addClause_enforces h _).imp_done fun _ t ht => ?_)
    exact after_pure.2 (ht.imp fun i hi => ⟨hi.1, Interpretation.isTrue_negate_pair.1 hi.2⟩)
  | rule head body => exact after_bind.2 (after_addRule_enforces h head body)

/-- A constraint changes nothing of what was enforced before. -/
theorem preserves_enforces_assert (c : Constraint) :
    Preserves (Enforces (ρ := ρ) P) (assert c) :=
  fun _ h => (after_assert_enforces h c).imp_done fun _ _ ht => ht.imp fun _ hi => hi.1

/-- A bound changes nothing of what was enforced before. -/
theorem preserves_enforces_addAtMost (bound : Nat) (ls : List Literal) :
    Preserves (Enforces (ρ := ρ) P) (addAtMost bound ls) :=
  preserves_addAtMost_of (fun _ h => h.auxiliary) preserves_enforces_addClause bound ls

/-- A bound is enforced from then on. -/
theorem after_addAtMost_enforces (hs : s.WellFormed) (h : Enforces P s)
    (hls : ∀ l ∈ ls, l.atom < s.atoms.count) (bound : Nat) :
    After (addAtMost bound ls) s
      (fun _ t => Enforces (fun i => P i ∧
        (ls.toFinset.filter fun l => i.Satisfies l).card ≤ bound) t) fun _ _ => False := by
  refine ((preserves_enforces_addAtMost bound ls s h).and (after_addAtMost hs hls bound)).mono
    (fun _ t ht => ht.1.and fun i hi => ?_) fun _ _ ht => ht.2
  exact ((ht.2 i).1 ⟨i, fun _ _ => rfl, hi⟩).2

/-- That exactly one literal is true is enforced from then on. -/
theorem after_unique_enforces (hs : s.WellFormed) (h : Enforces P s)
    (hls : ∀ l ∈ ls, l.atom < s.atoms.count) :
    After (unique ls) s
      (fun _ t => Enforces (fun i => P i ∧
        (ls.toFinset.filter fun l => i.Satisfies l).card = 1) t) fun _ _ => False := by
  have hkeeps : Preserves (Enforces P) (unique (ρ := ρ) ls) :=
    (preserves_enforces_assert _).bind fun _ => preserves_enforces_addAtMost 1 ls
  refine ((hkeeps s h).and (after_unique hs hls)).mono
    (fun _ t ht => ht.1.and fun i hi => ?_) fun _ _ ht => ht.2
  exact ((ht.2 i).1 ⟨i, fun _ _ => rfl, hi⟩).2

/-- **What is enforced stays in force**, whatever is done with the solver. -/
theorem Enforces.perform [RandomSource ρ] (h : Enforces P s) (m : Move) :
    Enforces P (m.perform s) := by
  cases m with
  | freshAtom name => exact h.freshAtom name
  | addClause c => exact (preserves_enforces_addClause c).stateAfter h
  | addRule head body =>
    refine After.stateAfter ((after_addRule_enforces h head body).imp_done fun _ _ ht => ?_)
    -- what the rule adds is not asked for here
    exact ht.imp fun _ hi => hi.1
  | addHead head => exact (preserves_enforces_addHead head).stateAfter h
  | addAtMost bound ls => exact (preserves_enforces_addAtMost bound ls).stateAfter h
  | force l => exact (sameConstraints_perform rfl s).enforces h
  | reset => exact (sameConstraints_perform rfl s).enforces h
  | fixedValue a => exact (sameConstraints_perform rfl s).enforces h
  | solve optimize => exact (sameConstraints_perform rfl s).enforces h

end Solver

end Storyworld
