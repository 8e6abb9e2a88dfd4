import Storyworld.Proofs.Solver.Attained
import Storyworld.Proofs.Solver.Supports

namespace Storyworld

/-!
# What the constraints fix is closed under unit propagation

Unit propagation derives a literal from a clause once every other literal of the clause has been
refuted (`Derives`). What a refresh fixes is what it derives, and a refresh meets a conflict exactly
when a clause all of whose literals are refuted is derived (`Attained.fixed_closure`).

One half is what propagation does step by step. The other half, that it leaves nothing to derive,
has its crux in clauses that hold a literal twice: propagation counts the places at which a literal
without a value stands. Asserted clauses are in canonical form. A completion clause holds a literal
twice only where a rule concludes its head from the negation of the head; but then the head itself
is asserted, and has a value from the start (`Written.exists_split`).
-/

/-! ### Unit propagation -/

/-- The literals that follow from top by taking, again and again, the one literal of a clause that
is not refuted. -/
inductive Derives (cs : List Clause) : Literal → Prop where
  | top : Derives cs (Literal.pos Atom.top)
  | unit {c : Clause} {l : Literal} (hc : c ∈ cs) (hl : l ∈ c)
    (hothers : ∀ m ∈ c, m ≠ l → Derives cs m.negate) : Derives cs l

/-- Unit propagation refutes every literal of some clause. -/
def Conflicting (cs : List Clause) : Prop := ∃ c ∈ cs, ∀ l ∈ c, Derives cs l.negate

/-- A partial valuation, in which top is true, that makes no clause false, and that gives a value to
each literal of a clause whose other literals are false. -/
structure Closed (cs : List Clause) (w : Atom → Option Bool) : Prop where
  top : w Atom.top = some true
  consistent : ∀ c ∈ cs, ¬ ∀ l ∈ c, w l.atom = some (!l.positive)
  unit : ∀ c ∈ cs, ∀ l ∈ c, (∀ m ∈ c, m ≠ l → w m.atom = some (!m.positive)) → w l.atom ≠ none

variable {cs : List Clause} {w : Atom → Option Bool} {l : Literal} {i : Interpretation}

/-- What is derived is true in every closed valuation. -/
theorem Derives.value (h : Derives cs l) (hw : Closed cs w) : w l.atom = some l.positive := by
  induction h with
  | top => exact hw.top
  | @unit c l hc hl hothers ih =>
    have hfalse : ∀ m ∈ c, m ≠ l → w m.atom = some (!m.positive) := ih
    have hsome := hw.unit c hc l hl hfalse
    -- with `l` false every literal of the clause would be
    have hne : w l.atom ≠ some (!l.positive) := by
      intro hl'
      refine hw.consistent c hc fun m hm => ?_
      by_cases hml : m = l
      · rw [hml, hl']
      · exact hfalse m hm hml
    cases hval : w l.atom with
    | none => exact absurd hval hsome
    | some b =>
      rw [hval] at hne
      cases b <;> cases hp : l.positive <;> simp_all

/-- A closed valuation rules out that propagation meets a conflict. -/
theorem Closed.not_conflicting (hw : Closed cs w) : ¬ Conflicting cs := by
  rintro ⟨c, hc, hall⟩
  exact hw.consistent c hc fun l hl => (hall l hl).value hw

/-- A model gives every atom a value, and is closed. -/
theorem closed_of_isModel (hi : i.IsModel cs) : Closed cs fun a => some (i a) where
  top := congrArg some hi.1
  consistent := by
    intro c hc hall
    obtain ⟨l, hl, hsat⟩ := hi.2 c hc
    have hval := Option.some.inj (hall l hl)
    rw [show i l.atom = l.positive from hsat] at hval
    exact (Bool.not_eq_self _).1 hval.symm
  unit := by
    intro c _ l _ _
    exact Option.some_ne_none _

namespace Assignment

variable {clauses : Clauses} {a : Assignment} {ls : List Literal} {count : Nat}

/-! ### What is made true has been derived -/

/-- Every value is that of a literal that unit propagation derives. -/
def Derived (cs : List Clause) (a : Assignment) : Prop :=
  ∀ x b, a.valuation.value? x = some b → Derives cs ⟨x, b⟩

/-- At the start only top has a value. -/
theorem derived_blank (cs : List Clause) (count : Nat) (t : Trail) :
    Derived cs ⟨Valuation.blank count, t⟩ := by
  intro x b hx
  obtain ⟨rfl, rfl⟩ := Valuation.value?_blank_eq_some hx
  exact Derives.top

/-- A literal that is derived may be made true. -/
theorem Derived.assign (h : Derived cs a) (hl : Derives cs l) : Derived cs (a.assign l) := by
  intro x b hx
  have hx : (a.valuation.assignAll [l]).value? x = some b := hx
  rcases Valuation.value?_assignAll_cases hx with hold | hnew
  · exact h x b hold
  · rwa [List.mem_singleton.1 hnew]

/-- Literals that are derived may be made true one after the other. -/
theorem Derived.assume (h : Derived cs a) (hls : ∀ l ∈ ls, Derives cs l) :
    Derived cs (assume ls a).2 :=
  assume_induction (fun _ l hl _ hb => hb.assign (hls l hl)) h

/-- A clause forces a literal by refuting the others. -/
theorem Derived.forces (h : Derived cs a) {c : Clause} (hc : c ∈ cs)
    (hl : c.standing a.valuation = .forces l) : Derives cs l := by
  obtain ⟨before, after, rfl, -, hm⟩ := Clause.standing_eq_forces_iff.1 hl
  refine Derives.unit hc (by simp) fun m hmem hne => h _ _ (hm m ?_)
  rcases List.mem_append.1 hmem with hmem | hmem
  · exact List.mem_append_left _ hmem
  · exact List.mem_append_right _ ((List.mem_cons.1 hmem).resolve_left hne)

/-- Propagation makes true what it derives: the one literal of a clause that is not refuted. -/
theorem Derived.propagate (h : Derived clauses.all a) (hindexed : clauses.Indexed count) :
    Derived clauses.all (propagate clauses a).2 := by
  refine propagate_induction hindexed (fun b c hc l hl hb => hb.assign (hb.forces hc hl))
    (fun b l t ht hb => hb) h

/-- A clause that is false is one of which every literal has been refuted. -/
theorem Derived.conflicting (h : Derived cs a) {c : Clause} (hc : c ∈ cs)
    (hfalse : c.standing a.valuation = .falsified) : Conflicting cs :=
  ⟨c, hc, fun l hl => h _ _ (Clause.standing_eq_falsified_iff.1 hfalse l hl)⟩

end Assignment

namespace Solver

open Assignment Action

section Fix

variable {clauses : Clauses} {start a : Assignment} {count : Nat}

/-- The literal of a unit clause is derived at once. -/
theorem derives_units (hl : l ∈ units clauses) : Derives clauses.all l :=
  Derives.unit (mem_units.1 hl) List.mem_cons_self fun _ hm hne =>
    absurd (List.mem_singleton.1 hm) hne

/-- How propagation from the unit clauses may end: there is an empty clause, the unit clauses
contradict each other, propagation meets a conflict, or it does not. -/
theorem fix_cases (clauses : Clauses) (start : Assignment) :
    clauses.containsEmpty = true ∧ fix clauses start = (false, start) ∨
      (∃ a, assume (units clauses) start = (false, a) ∧ fix clauses start = (false, a)) ∨
      (∃ a key b, assume (units clauses) start = (true, a) ∧
        propagate clauses a = (some key, b) ∧ fix clauses start = (false, b)) ∨
      ∃ a b, assume (units clauses) start = (true, a) ∧ propagate clauses a = (none, b) ∧
        fix clauses start = (true, b) := by
  unfold fix
  -- an empty clause, units that disagree, a conflict, or a consistent end
  split
  · rename_i hempty
    exact Or.inl ⟨hempty, rfl⟩
  · refine Or.inr ?_
    split
    · rename_i a ha
      exact Or.inl ⟨a, ha, rfl⟩
    · rename_i a ha
      refine Or.inr ?_
      split
      · rename_i key b hb
        exact Or.inl ⟨a, key, b, ha, hb, rfl⟩
      · rename_i b hb
        exact Or.inr ⟨a, b, ha, hb, rfl⟩

/-- The values that are fixed have been derived. -/
theorem derived_fix (hindexed : clauses.Indexed count) (hstart : Derived clauses.all start) :
    Derived clauses.all (fix clauses start).2 := by
  have hassume := hstart.assume fun l (hl : l ∈ units clauses) => derives_units hl
  rcases fix_cases clauses start with ⟨-, h⟩ | ⟨a, ha, h⟩ | ⟨a, key, b, ha, hb, h⟩ |
    ⟨a, b, ha, hb, h⟩
  · rwa [h]
  · rw [ha] at hassume
    rwa [h]
  · rw [ha] at hassume
    -- a conflict does not matter: what was derived until then was derived
    have hpropagate := hassume.propagate hindexed
    rw [hb] at hpropagate
    rwa [h]
  · rw [ha] at hassume
    have hpropagate := hassume.propagate hindexed
    rw [hb] at hpropagate
    rwa [h]

/-- A conflict is one that has been derived. -/
theorem conflicting_of_fix (hindexed : clauses.Indexed count)
    (hempty : clauses.containsEmpty = true → [] ∈ clauses.all)
    (hstart : Derived clauses.all start) (h : (fix clauses start).1 = false) :
    Conflicting clauses.all := by
  have hderived := derived_fix hindexed hstart
  rcases fix_cases clauses start with ⟨hnil, -⟩ | ⟨a, ha, hfix⟩ | ⟨a, key, b, -, hb, hfix⟩ |
    ⟨a, b, -, -, hfix⟩
  · exact ⟨[], hempty hnil, nofun⟩
  · rw [hfix] at hderived
    -- the literal of a unit clause had been refuted
    obtain ⟨l, hl, hval⟩ := value?_of_assume_eq_false (by rw [ha])
    rw [ha] at hval
    refine ⟨[l], mem_units.1 hl, fun m hm => ?_⟩
    rw [List.mem_singleton.1 hm]
    exact hderived _ _ hval
  · rw [hfix] at hderived
    obtain ⟨c, hc, hfalse⟩ := falsified_of_propagate hindexed hb
    exact hderived.conflicting hc hfalse
  · rw [hfix] at h
    cases h

/-- Without a conflict the literals of unit clauses are true, and every clause that has a literal
refuted on the way is settled. -/
theorem drawn_of_fix {base : Valuation} (hindexed : clauses.Indexed base.size)
    (hbelow : Clause.Below base.size clauses.all) (h : (fix clauses ⟨base, {}⟩).1 = true) :
    (∀ l ∈ units clauses,
        (fix clauses ⟨base, {}⟩).2.valuation.value? l.atom = some l.positive) ∧
      Drawn clauses.all base (fix clauses ⟨base, {}⟩).2.trail.toList := by
  have hlt := units_lt hbelow
  rcases fix_cases clauses ⟨base, {}⟩ with ⟨-, hfix⟩ | ⟨a, -, hfix⟩ | ⟨a, key, b, -, -, hfix⟩ |
    ⟨a, b, ha, hb, hfix⟩
  · rw [hfix] at h
    cases h
  · rw [hfix] at h
    cases h
  · rw [hfix] at h
    cases h
  · have hstep := (inStep_empty base).assume hlt
    have hprop := propagated_assume (units clauses) ⟨base, {}⟩
    have hvals := value?_of_assume_eq_true (inStep_empty base) hlt (by rw [ha])
    rw [ha] at hstep hprop hvals
    have hstep' := hstep.propagate hindexed hbelow
    have hmore := (prefix_propagate (a := a) hindexed).subset
    rw [hb] at hstep' hmore
    rw [hfix]
    refine ⟨fun l hl => ?_, drawn_of_propagate (heeds_of_propagated hprop) hstep hindexed hbelow hb⟩
    -- propagation keeps the values that it starts from
    have hval := hstep.value?_of_subset hstep'.fits hmore (hvals l hl)
    rwa [← hstep'.valuation_eq] at hval

end Fix

/-! ### What is written for a rule -/

variable {ρ : Type} {s t : Solver ρ} {c : Clause} {h : Nat}

/-- No head lists a support twice, that a support implies its head is asserted, and a support is
about top only where it is the one literal of a body. -/
structure Written (s : Solver ρ) : Prop where
  count_pos : 0 < s.atoms.count
  nodup : ∀ h, (s.rules.supportsOf h).Nodup
  implied : ∀ h, ∀ l ∈ s.rules.supportsOf h,
    (Clause.canonical [l.negate, Literal.pos h]).clashes = true ∨
      Clause.canonical [l.negate, Literal.pos h] ∈ s.clauses.asserted
  supports : ∀ h, ∀ l ∈ s.rules.supportsOf h, l.atom ≠ Atom.top ∨ (h, [l]) ∈ s.rules.recorded
  definitions : ∀ d ∈ s.rules.definitions, d.2 ≠ Atom.top

/-- A new solver has no rule of which anything would have to be written down. -/
theorem written_ofConfig (config : Config) (source : ρ) : (ofConfig config source).Written where
  count_pos := Nat.one_pos
  nodup := by
    intro h
    rw [supportsOf_ofConfig]
    exact List.nodup_nil
  implied := by
    intro h l hl
    rw [supportsOf_ofConfig] at hl
    cases hl
  supports := by
    intro h l hl
    rw [supportsOf_ofConfig] at hl
    cases hl
  definitions := nofun

/-- There may be more atoms and clauses, as long as the rules stay. -/
theorem Written.of_rules (hs : s.Written) (hrules : t.rules = s.rules)
    (hcount : s.atoms.count ≤ t.atoms.count)
    (hasserted : ∀ c ∈ s.clauses.asserted, c ∈ t.clauses.asserted) : t.Written where
  count_pos := Nat.lt_of_lt_of_le hs.count_pos hcount
  nodup := by
    rw [hrules]
    exact hs.nodup
  -- the clauses that go with the rules are still there
  implied := by
    rw [hrules]
    exact fun h l hl => (hs.implied h l hl).imp_right (hasserted _)
  supports := by
    rw [hrules]
    exact hs.supports
  definitions := by
    rw [hrules]
    exact hs.definitions

/-- What is written down is a matter of the constraints. -/
theorem Written.of_same (hs : s.Written) (hst : SameConstraints s t) : t.Written :=
  hs.of_rules hst.rules (Nat.le_of_eq (by rw [hst.atoms])) fun c hc => hst.asserted ▸ hc

/-- An atom that is asked for concerns no rule. -/
theorem Written.freshAtom (hs : s.Written) (name : Option Proposition) :
    (s.freshAtom name).2.Written := by
  have hmade : ∀ name, (s.makeAtom name).2.invalidate.Written := by
    intro name
    refine hs.of_rules rfl ?_ fun _ hc => hc
    show s.atoms.count ≤ (s.atoms.fresh name).2.count
    rw [Atoms.count_fresh]
    exact Nat.le_succ _
  cases name with
  | none => exact hmade none
  | some p =>
    unfold Solver.freshAtom proposition
    dsimp only
    -- a name that has an atom already gets no other
    split
    · exact hs
    · exact hmade (some p)

/-- A clause takes nothing away of what is written down. -/
theorem preserves_written_addClause (c : Clause) : Preserves Written (addClause (ρ := ρ) c) := by
  intro s hs
  refine (after_addClause c s).mono (fun stored t h => ?_) fun _ _ h => h.1 ▸ hs
  obtain rfl : t = (s.store c).2 := congrArg Prod.snd h.2
  obtain ⟨clauses, status, hframe, -⟩ := store_frame c s
  refine hs.of_rules ?_ (Nat.le_of_eq ?_) fun d hd => mem_asserted_store hd c
  · rw [hframe]
  · rw [hframe]

/-- A head that is declared has no supports of which anything would have to be written down. -/
theorem preserves_written_addHead (head : Atom) :
    Preserves Written (addHead (ρ := ρ) head) := by
  intro s hs
  refine (after_addHead head s).mono (fun _ t h => ?_) fun _ _ h => h.1 ▸ hs
  rw [h.2]
  have hsupports : ∀ k, (s.rules.declareHead head).supportsOf k = s.rules.supportsOf k :=
    Rules.supportsOf_declareHead s.rules head
  refine ⟨hs.count_pos, fun k => ?_, fun k l hl => ?_, fun k l hl => ?_, hs.definitions⟩
  · exact (hsupports k).symm ▸ hs.nodup k
  · exact hs.implied k l (hsupports k ▸ hl)
  · exact hs.supports k l (hsupports k ▸ hl)

/-- The support of a body is about top only if it is the body. -/
theorem Written.support (hs : s.Written) (body : Clause) :
    (s.support body).2.Written ∧
      ((s.support body).1.atom ≠ Atom.top ∨ body = [(s.support body).1]) := by
  rcases support_cases body s with ⟨l, rfl, h⟩ | ⟨a, ha, h⟩ | ⟨-, h⟩
  · rw [h]
    exact ⟨hs, Or.inr rfl⟩
  · rw [h]
    exact ⟨hs, Or.inl (hs.definitions _ ha)⟩
  · have hne : s.atoms.count ≠ Atom.top := Nat.ne_of_gt hs.count_pos
    have hasserted : ∀ c ∈ s.clauses.asserted, c ∈ (defineBody body s).clauses.asserted :=
      fun c hc => mem_asserted_storeAll (s := s.auxiliary.2) hc _
    obtain ⟨clauses, hframe⟩ := defineBody_frame body s
    rw [h]
    refine ⟨?_, Or.inl hne⟩
    rw [hframe] at hasserted ⊢
    have hmade : s.auxiliary.2.Written := hs.freshAtom none
    refine ⟨hmade.count_pos, hs.nodup, fun h l hl => ?_, hs.supports, fun d hd => ?_⟩
    · exact (hs.implied h l hl).imp_right (hasserted _)
    · -- only the new atom is new to the definitions
      rcases List.mem_cons.1 hd with rfl | hd
      · exact hne
      · exact hs.definitions d hd

/-- A rule is recorded together with the clause that says that its support implies its head. -/
theorem Written.recordRule (hs : s.Written) (head : Atom) (body : Clause) :
    (recordRule head body s).Written := by
  obtain ⟨ht, htop⟩ := hs.support body
  unfold Solver.recordRule
  dsimp only
  generalize hsupport : s.support body = found at ht htop ⊢
  obtain ⟨support, t⟩ := found
  have hstored := canonical_mem_store [support.negate, Literal.pos head] t
  have hold : ∀ c ∈ t.clauses.asserted,
      c ∈ (t.store [support.negate, Literal.pos head]).2.clauses.asserted :=
    fun c hc => mem_asserted_store hc _
  obtain ⟨clauses, status, hframe, -⟩ := store_frame [support.negate, Literal.pos head] t
  rw [hframe] at hstored hold ⊢
  refine ⟨ht.count_pos, fun h => ?_, fun h l hl => ?_, fun h l hl => ?_, ht.definitions⟩
  · show ((t.rules.record head body support).supportsOf h).Nodup
    rw [Rules.supportsOf_record]
    split
    · split
      · exact ht.nodup head
      · rename_i hnew
        exact List.nodup_append.2 ⟨ht.nodup head, List.nodup_singleton _, by
          rintro m hm _ hm' rfl
          exact hnew (List.mem_singleton.1 hm' ▸ hm)⟩
    · exact ht.nodup h
  · -- an older support has been written down, and the new one is by the clause that is stored
    rcases Rules.mem_supportsOf_record.1 hl with hl | ⟨rfl, rfl⟩
    · exact (ht.implied h l hl).imp_right (hold _)
    · exact hstored
  · rcases Rules.mem_supportsOf_record.1 hl with hl | ⟨rfl, rfl⟩
    · refine (ht.supports h l hl).imp_right fun hmem => ?_
      exact Rules.mem_recorded_record.2 (Or.inr hmem)
    · exact htop.imp_right fun hbody => Rules.mem_recorded_record.2 (Or.inl (by rw [hbody]))

/-- A rule is written down, known already or refused. -/
theorem preserves_written_addRule (head : Atom) (body : Clause) :
    Preserves Written (addRule (ρ := ρ) head body) := by
  intro s hs
  refine (after_addRule head body s).mono (fun stored t h => ?_) fun _ _ h => h.1 ▸ hs
  obtain rfl : t = (s.storeRule head body).2 := congrArg Prod.snd h.2.2.2
  rcases storeRule_cases head body s with ⟨-, h⟩ | ⟨-, h⟩ | ⟨-, -, h⟩
  · rwa [h]
  · rwa [h]
  · rw [h]
    exact hs.recordRule head _

/-- Every move leaves what the rules stand for written down. -/
theorem Written.perform [RandomSource ρ] (hs : s.Written) (m : Move) : (m.perform s).Written := by
  cases m with
  | freshAtom name => exact hs.freshAtom name
  | addClause c => exact (preserves_written_addClause c).stateAfter hs
  | addRule head body => exact (preserves_written_addRule head body).stateAfter hs
  | addHead head => exact (preserves_written_addHead head).stateAfter hs
  | addAtMost bound ls =>
    -- a bound makes atoms and stores clauses
    have hbound : Preserves Written (addAtMost (ρ := ρ) bound ls) :=
      preserves_addAtMost_of (fun _ ht => ht.freshAtom none) preserves_written_addClause bound ls
    exact hbound.stateAfter hs
  | force l => exact hs.of_same (sameConstraints_perform rfl s)
  | reset => exact hs.of_same (sameConstraints_perform rfl s)
  | fixedValue a => exact hs.of_same (sameConstraints_perform rfl s)
  | solve optimize => exact hs.of_same (sameConstraints_perform rfl s)

/-- Whatever is done with a solver, what its rules stand for has been written down. -/
theorem Attained.written [RandomSource ρ] (hs : s.Attained) : s.Written := by
  induction hs with
  | start config source => exact written_ofConfig config source
  | move _ m ih => exact ih.perform m
  | interrupt _ optimize n ih => exact ih.of_same (sameConstraints_interrupted optimize n _)

/-! ### Nothing is left to derive -/

/-- No asserted clause and no rule mentions top. -/
structure SparesTop (s : Solver ρ) : Prop where
  clauses : ∀ c ∈ s.clauses.asserted, ∀ l ∈ c, l.atom ≠ Atom.top
  rules : ∀ rule ∈ s.rules.recorded, rule.1 ≠ Atom.top ∧ ∀ l ∈ rule.2, l.atom ≠ Atom.top

/-- Whether top is mentioned is a matter of the constraints. -/
theorem SparesTop.of_same (h : s.SparesTop) (hst : SameConstraints s t) : t.SparesTop where
  clauses := by
    rw [hst.asserted]
    exact h.clauses
  rules := by
    rw [hst.rules]
    exact h.rules

/-- Only top itself may have been declared to be a head. -/
theorem Written.eq_of_neg_top (hs : s.Written) (hwf : s.WellFormed) (hspares : s.SparesTop)
    (hc : c ∈ s.formula) (htop : Literal.neg Atom.top ∈ c) : c = [Literal.neg Atom.top] := by
  rcases List.mem_append.1 hc with hc | hc
  · exact absurd rfl (hspares.clauses c (Array.mem_toList_iff.1 hc) _ htop)
  · obtain ⟨h, -, rfl⟩ := Rules.mem_completion.1 hc
    rcases List.mem_cons.1 htop with e | hmem
    · obtain rfl : Atom.top = h := congrArg Literal.atom e
      rw [hwf.supportsOf_eq_nil fun rule hrule => (hspares.rules rule hrule).1]
    · rcases hs.supports h _ hmem with hne | hbody
      · exact absurd rfl hne
      · exact absurd rfl ((hspares.rules _ hbody).2 _ List.mem_cons_self)

/-- A list that holds nothing twice is split at any of its literals into others. -/
theorem exists_split_of_nodup (hc : c.Nodup) (hl : l ∈ c) :
    ∃ before after, c = before ++ l :: after ∧ ∀ m ∈ before ++ after, m ≠ l := by
  obtain ⟨before, after, rfl⟩ := List.append_of_mem hl
  have hnot := (List.nodup_cons.1 (List.nodup_middle.1 hc)).1
  exact ⟨before, after, rfl, fun m hm e => hnot (e ▸ hm)⟩

/-- A clause holds a literal once, unless the negation of the literal is asserted. -/
theorem Written.exists_split (hs : s.Written) (hwf : s.WellFormed) (hc : c ∈ s.formula)
    (hl : l ∈ c) (hopen : [l.negate] ∉ s.formula) :
    ∃ before after, c = before ++ l :: after ∧ ∀ m ∈ before ++ after, m ≠ l := by
  rcases List.mem_append.1 hc with hc | hc
  · have hincreasing := (hwf.clauses c (Array.mem_toList_iff.1 hc)).1
    refine exists_split_of_nodup (hincreasing.imp fun {m n} hlt e => ?_) hl
    rw [e] at hlt
    exact Nat.lt_irrefl _ hlt
  · obtain ⟨h, -, rfl⟩ := Rules.mem_completion.1 hc
    by_cases hself : Literal.neg h ∈ s.rules.supportsOf h
    · -- the rule that concludes the head from its own negation asserts the head
      have hcanonical :
          Clause.canonical [(Literal.neg h).negate, Literal.pos h] = [Literal.pos h] := by
        show Clause.insert (Literal.pos h) [Literal.pos h] = [Literal.pos h]
        simp [Clause.insert]
      have hhead : [Literal.pos h] ∈ s.formula := by
        have himplied := hs.implied h _ hself
        rw [hcanonical] at himplied
        rcases himplied with hclash | hmem
        · cases hclash
        · exact List.mem_append_left _ (Array.mem_toList_iff.2 hmem)
      have hne : Literal.neg h ≠ l := by
        rintro rfl
        exact hopen hhead
      have hl : l ∈ s.rules.supportsOf h := (List.mem_cons.1 hl).resolve_left hne.symm
      obtain ⟨before, after, hsplit, hothers⟩ := exists_split_of_nodup (hs.nodup h) hl
      refine ⟨Literal.neg h :: before, after, by rw [hsplit]; rfl, fun m hm => ?_⟩
      rcases List.mem_cons.1 hm with rfl | hm
      · exact hne
      · exact hothers m hm
    · exact exists_split_of_nodup (List.nodup_cons.2 ⟨hself, hs.nodup h⟩) hl

/-- The values that are fixed are those of derived literals. -/
theorem UpToDate.derived (hcurrent : s.UpToDate) {x : Atom} {b : Bool}
    (hx : s.fixed.value? x = some b) : Derives s.formula ⟨x, b⟩ := by
  have hderived := derived_fix hcurrent.indexed (derived_blank s.clauses.all s.atoms.count {})
  rw [hcurrent.all_eq] at hderived
  rw [hcurrent.fixed_eq] at hx
  exact hderived x b hx

/-- A solver that is consistent has met no conflict. -/
theorem UpToDate.fix_eq_true (hcurrent : s.UpToDate) (hok : s.status = .consistent) :
    (fix s.clauses ⟨Valuation.blank s.atoms.count, {}⟩).1 = true := by
  have hstatus := hcurrent.status_eq
  rw [hok] at hstatus
  by_contra hno
  rw [if_neg hno] at hstatus
  cases hstatus

/-- Where there was no conflict, the literals of unit clauses are true, and every clause that has a
literal refuted is settled, unless that literal denies top. -/
theorem UpToDate.settled (hcurrent : s.UpToDate) (hwf : s.WellFormed)
    (hok : s.status = .consistent) :
    (∀ l, [l] ∈ s.formula → s.fixed.value? l.atom = some l.positive) ∧
      ∀ c ∈ s.formula, ∀ m ∈ c, s.fixed.value? m.atom = some (!m.positive) →
        m ≠ Literal.neg Atom.top → c.standing s.fixed = .settled := by
  have hsize := Valuation.size_blank hwf.atoms.count_pos
  have hstep := hcurrent.inStep hwf
  obtain ⟨hunits, hdrawn⟩ := drawn_of_fix (hsize.symm ▸ hcurrent.indexed)
    (by rw [hsize, hcurrent.all_eq]; exact hwf.below) (hcurrent.fix_eq_true hok)
  rw [hcurrent.fixed_eq]
  refine ⟨fun l hl => hunits l (mem_units.2 (hcurrent.all_eq ▸ hl)), fun c hc m hm hval hne => ?_⟩
  rw [hstep.valuation_eq] at hval ⊢
  refine hdrawn c (hcurrent.all_eq ▸ hc) ⟨m, hm, ?_⟩
  rcases Valuation.value?_assignAll_cases hval with hbase | hmem
  · -- at the start only top has a value
    obtain ⟨hatom, hpos⟩ := Valuation.value?_blank_eq_some hbase
    refine absurd ?_ hne
    cases m with
    | mk x p =>
      obtain rfl : x = Atom.top := hatom
      cases p with
      | true => cases hpos
      | false => rfl
  · exact hmem

/-- **What is fixed is closed under unit propagation.** -/
theorem UpToDate.closed (hcurrent : s.UpToDate) (hwf : s.WellFormed) (hs : s.Written)
    (hspares : s.SparesTop) (hok : s.status = .consistent) :
    Closed s.formula s.fixed.value? := by
  have htop := hwf.supportsOf_eq_nil fun rule hrule => (hspares.rules rule hrule).1
  have hsettles : Settles s.formula s.atoms.count s.fixed := by
    rcases hwf.fixed_spec hcurrent (hwf.seen (.inl htop)) with ⟨-, hsettles⟩ | ⟨hstatus, -⟩
    · exact hsettles
    · rw [hok] at hstatus
      cases hstatus
  obtain ⟨hunits, hsettled⟩ := hcurrent.settled hwf hok
  refine ⟨hsettles.top, fun c hc hfalse => ?_, fun c hc l hl hothers hopen => ?_⟩
  · exact hsettles.standing c hc (Clause.standing_eq_falsified_iff.2 hfalse)
  · have hnot : [l.negate] ∉ s.formula := by
      intro hmem
      have hval := hunits _ hmem
      rw [Literal.atom_negate, hopen] at hval
      cases hval
    obtain ⟨before, after, rfl, hne⟩ := hs.exists_split hwf hc hl hnot
    have hrest : ∀ m ∈ before ++ after, m ∈ before ++ l :: after := by
      intro m hm
      simp only [List.mem_append, List.mem_cons] at hm ⊢
      exact hm.imp_right Or.inr
    have hforces : Clause.standing s.fixed (before ++ l :: after) = .forces l :=
      Clause.standing_eq_forces_iff.2
        ⟨before, after, rfl, hopen, fun m hm => hothers m (hrest m hm) (hne m hm)⟩
    -- a clause of one literal would have given it its value, and any other is settled
    cases hnil : before ++ after with
    | nil =>
      obtain ⟨rfl, rfl⟩ := List.append_eq_nil_iff.1 hnil
      have hval := hunits l hc
      rw [hopen] at hval
      cases hval
    | cons m rest =>
      have hm : m ∈ before ++ after := hnil ▸ List.mem_cons_self
      have hmtop : m ≠ Literal.neg Atom.top := by
        rintro rfl
        have heq := hs.eq_of_neg_top hwf hspares hc (hrest _ hm)
        rw [heq, List.mem_singleton] at hl
        exact hne _ hm hl.symm
      have hsettled' := hsettled _ hc m (hrest m hm) (hothers m (hrest m hm) (hne m hm)) hmtop
      rw [hforces] at hsettled'
      cases hsettled'

/-- A conflict that a refresh meets is one that unit propagation derives. -/
theorem UpToDate.conflicting (hcurrent : s.UpToDate) (hbad : s.status = .inconsistent) :
    Conflicting s.formula := by
  have hfix : (fix s.clauses ⟨Valuation.blank s.atoms.count, {}⟩).1 = false := by
    have hstatus := hcurrent.status_eq
    rw [hbad] at hstatus
    refine Bool.eq_false_iff.2 fun htrue => ?_
    rw [if_pos htrue] at hstatus
    cases hstatus
  rw [← hcurrent.all_eq]
  refine conflicting_of_fix hcurrent.indexed (fun hempty => ?_) (derived_blank _ _ {}) hfix
  rw [hcurrent.all_eq]
  exact (containsEmpty_iff s).1 hempty

/-- A refresh meets a conflict exactly when unit propagation derives one. -/
theorem UpToDate.status_iff (hcurrent : s.UpToDate) (hwf : s.WellFormed) (hs : s.Written)
    (hspares : s.SparesTop) :
    (s.status = .inconsistent ↔ Conflicting s.formula) ∧
      (s.status = .consistent ↔ ¬ Conflicting s.formula) := by
  have hconsistent : s.status = .consistent → ¬ Conflicting s.formula :=
    fun hok => (hcurrent.closed hwf hs hspares hok).not_conflicting
  have hinconsistent : s.status = .inconsistent → Conflicting s.formula := hcurrent.conflicting
  cases hstatus : s.status with
  | stale => exact absurd hstatus hcurrent.status_ne_stale
  | consistent => simpa using hconsistent hstatus
  | inconsistent => simpa using hinconsistent hstatus

/-- **The fixed valuation is the closure of top under unit propagation.** Take a solver that can be
attained, in which no asserted clause and no rule mentions top. A refresh reports a conflict exactly
when unit propagation over the asserted clauses and the completion clauses refutes every literal of
some clause. Otherwise what it fixes is closed under unit propagation: no clause is false, and none
has all but one of its different literals false and that one without a value. It is the least such
valuation, it is what unit propagation derives, and every model agrees with it. -/
theorem Attained.fixed_closure [RandomSource ρ] (hs : s.Attained)
    (hclauses : ∀ c ∈ s.clauses.asserted, ∀ l ∈ c, l.atom ≠ Atom.top)
    (hrules : ∀ rule ∈ s.rules.recorded,
      rule.1 ≠ Atom.top ∧ ∀ l ∈ rule.2, l.atom ≠ Atom.top) :
    (s.refresh.status = .inconsistent ↔ Conflicting s.formula) ∧
      (s.refresh.status = .consistent ↔ ¬ Conflicting s.formula) ∧
      (s.refresh.status = .consistent →
        Closed s.formula s.refresh.fixed.value? ∧
          (∀ w, Closed s.formula w → ∀ x b, s.refresh.fixed.value? x = some b → w x = some b) ∧
          (∀ l, s.refresh.fixed.value? l.atom = some l.positive ↔ Derives s.formula l) ∧
          ∀ i : Interpretation, i.IsModel s.formula → i.Extends s.refresh.fixed) := by
  have hsame := sameConstraints_refresh s
  obtain ⟨hwf, hcurrent⟩ := hs.wellFormed.refresh
  have hwritten := hs.written.of_same hsame
  have hspares : s.refresh.SparesTop := SparesTop.of_same ⟨hclauses, hrules⟩ hsame
  have hstatus := hcurrent.status_iff hwf hwritten hspares
  have hderived := fun x b => hcurrent.derived (x := x) (b := b)
  rw [← hsame.formula]
  refine ⟨hstatus.1, hstatus.2, fun hok => ?_⟩
  have hclosed := hcurrent.closed hwf hwritten hspares hok
  -- what is derived holds in every closed valuation, so what is fixed is in all of them
  have hleast : ∀ w, Closed s.refresh.formula w →
      ∀ x b, s.refresh.fixed.value? x = some b → w x = some b :=
    fun w hw x b hx => (hderived x b hx).value hw
  refine ⟨hclosed, hleast, fun l => ⟨hderived l.atom l.positive, fun h => h.value hclosed⟩,
    fun i hi x b hx => ?_⟩
  exact Option.some.inj (hleast _ (closed_of_isModel hi) x b hx)

/-- The first of three atoms is concluded from its own negation and from the second, so its
completion clause holds its negation twice. Its other literal is derived all the same, and so is the
third, which is asserted after a solve has been broken off. -/
theorem fixed_closure_selfDenial :
    let s : Solver Pcg := happen [.move (.freshAtom none), .move (.freshAtom none),
      .move (.freshAtom none), .move (.addRule 1 [Literal.neg 1]),
      .move (.addRule 1 [Literal.pos 2]), .interrupt false 1,
      .move (.addClause [Literal.neg 2, Literal.pos 3])] (ofConfig {} (Pcg.ofSeed 0))
    s.Attained ∧ (∀ c ∈ s.clauses.asserted, ∀ l ∈ c, l.atom ≠ Atom.top) ∧
      (∀ rule ∈ s.rules.recorded, rule.1 ≠ Atom.top ∧ ∀ l ∈ rule.2, l.atom ≠ Atom.top) ∧
      [Literal.neg 1, Literal.neg 1, Literal.pos 2] ∈ s.formula ∧
      s.refresh.status = .consistent ∧ ¬ Conflicting s.formula ∧
      Closed s.formula s.refresh.fixed.value? ∧
      Derives s.formula (Literal.pos 2) ∧ Derives s.formula (Literal.pos 3) := by
  intro s
  have hs : s.Attained := (Attained.start {} (Pcg.ofSeed 0)).happen _
  have hclauses : ∀ c ∈ s.clauses.asserted, ∀ l ∈ c, l.atom ≠ Atom.top := by decide +kernel
  have hrules : ∀ rule ∈ s.rules.recorded,
      rule.1 ≠ Atom.top ∧ ∀ l ∈ rule.2, l.atom ≠ Atom.top := by decide +kernel
  have hvalues : [Literal.neg 1, Literal.neg 1, Literal.pos 2] ∈ s.formula ∧
      s.refresh.status = .consistent ∧ s.refresh.fixed.value? (2 : Nat) = some true ∧
      s.refresh.fixed.value? (3 : Nat) = some true := by decide +kernel
  obtain ⟨hcompletion, hok, htwo, hthree⟩ := hvalues
  obtain ⟨-, hiff, hclosure⟩ := hs.fixed_closure hclauses hrules
  obtain ⟨hclosed, -, hderives, -⟩ := hclosure hok
  exact ⟨hs, hclauses, hrules, hcompletion, hok, hiff.1 hok, hclosed, (hderives _).1 htwo,
    (hderives _).1 hthree⟩

end Solver

end Storyworld
