import Storyworld.Proofs.Solver.UnitClosure
import Storyworld.Proofs.Solver.Unseen

namespace Storyworld

/-!
# How far top is a constant

Top is true in every valuation, so a clause that holds top says nothing, and the negation of top
adds nothing to a clause. `Solver.withoutTop` is the solver with top worked out of its clauses, the
asserted ones and the completion clauses alike. `Reachable.withoutTop_exact` compares the two.

They have the same models (`isModel_simplified_iff`), and the same valuations are closed under unit
propagation (`closed_simplified_iff`). What tells them apart is that top is given its value without
ever being on the trail, where propagation looks for what has changed. So a clause is not looked at
for the negation of top that it holds.

* It may be left with one literal and go without its consequence (`Clause.Leaves`). Then less is
  fixed than without top. A search finds it out in time, so its models are right.
* It may be false from the start (`Clause.Unseen`). There is only one such clause, the completion
  clause of top where the negation of top is the one support of top. Then a search finds models
  where there are none.
-/

namespace Clause

variable {c : Clause} {w : Atom → Option Bool} {l : Literal}

/-- The clause without the negation of top. -/
def withoutTop (c : Clause) : Clause := c.filter (· ≠ Literal.neg Atom.top)

@[simp] theorem mem_withoutTop : l ∈ c.withoutTop ↔ l ∈ c ∧ l ≠ Literal.neg Atom.top := by
  simp [withoutTop]

/-- The negation of top leaves the clause with that literal alone. -/
def Leaves (c : Clause) (l : Literal) : Prop :=
  Literal.neg Atom.top ∈ c ∧ l ∈ c ∧ l ≠ Literal.neg Atom.top ∧
    ∀ m ∈ c, m = Literal.neg Atom.top ∨ m = l

/-- The clause is not false, and it does not leave a literal without a value to be made true. -/
structure Quiet (w : Atom → Option Bool) (c : Clause) : Prop where
  consistent : ¬ ∀ l ∈ c, w l.atom = some (!l.positive)
  unit : ∀ l ∈ c, (∀ m ∈ c, m ≠ l → w m.atom = some (!m.positive)) → w l.atom ≠ none

/-- Whether a clause is quiet depends on the literals in it. -/
theorem quiet_congr {d : Clause} (h : ∀ l, l ∈ c ↔ l ∈ d) : Quiet w c ↔ Quiet w d := by
  have hconsistent : (∀ l ∈ c, w l.atom = some (!l.positive)) ↔
      ∀ l ∈ d, w l.atom = some (!l.positive) := by simp only [h]
  have hunit : (∀ l ∈ c, (∀ m ∈ c, m ≠ l → w m.atom = some (!m.positive)) → w l.atom ≠ none) ↔
      ∀ l ∈ d, (∀ m ∈ d, m ≠ l → w m.atom = some (!m.positive)) → w l.atom ≠ none := by
    simp only [h]
  constructor
  · rintro ⟨h₁, h₂⟩
    exact ⟨hconsistent.not.1 h₁, hunit.1 h₂⟩
  · rintro ⟨h₁, h₂⟩
    exact ⟨hconsistent.not.2 h₁, hunit.2 h₂⟩

/-- A clause with a true literal is quiet. -/
theorem quiet_of_true (hl : l ∈ c) (hval : w l.atom = some l.positive) : Quiet w c := by
  have hne : w l.atom ≠ some (!l.positive) := by simp [hval]
  refine ⟨fun hfalse => hne (hfalse l hl), fun m hm hothers => ?_⟩
  by_cases hml : l = m
  · simp [← hml, hval]
  · exact absurd (hothers l hl hml) hne

/-- A tautology is quiet. -/
theorem quiet_of_clash (hl : l ∈ c) (hn : l.negate ∈ c) : Quiet w c := by
  cases hval : w l.atom with
  | some b =>
    by_cases hb : b = l.positive
    · exact quiet_of_true hl (hval.trans (congrArg some hb))
    · apply quiet_of_true hn
      rw [Literal.atom_negate, hval, Literal.positive_negate]
      cases b <;> cases hp : l.positive <;> simp_all
  | none =>
    refine ⟨fun hfalse => ?_, fun m hm hothers => ?_⟩
    · have hfalse := hfalse l hl
      simp [hval] at hfalse
    · -- one of the two literals is not `m`, and it has no value
      by_cases hml : l = m
      · have hfalse := hothers l.negate hn (hml ▸ Literal.negate_ne l)
        simp [hval] at hfalse
      · have hfalse := hothers l hl hml
        simp [hval] at hfalse

/-- The negation of top is false in any case, so a clause is quiet with it exactly when it is quiet
without. -/
theorem quiet_withoutTop_iff (htop : w Atom.top = some true) :
    Quiet w c.withoutTop ↔ Quiet w c := by
  have hneg : w (Literal.neg Atom.top).atom = some (!(Literal.neg Atom.top).positive) := by
    simpa using htop
  constructor
  · rintro ⟨hconsistent, hunit⟩
    refine ⟨fun hfalse => hconsistent fun l hl => ?_, fun l hl hothers => ?_⟩
    · exact hfalse l (mem_withoutTop.1 hl).1
    · -- a literal other than the negation of top is in both clauses
      by_cases hl' : l = Literal.neg Atom.top
      · simp [hl', htop]
      · apply hunit l (mem_withoutTop.2 ⟨hl, hl'⟩)
        exact fun m hm hne => hothers m (mem_withoutTop.1 hm).1 hne
  · rintro ⟨hconsistent, hunit⟩
    refine ⟨fun hfalse => hconsistent fun l hl => ?_, fun l hl hothers => ?_⟩
    · by_cases hl' : l = Literal.neg Atom.top
      · rw [hl', hneg]
      · exact hfalse l (mem_withoutTop.2 ⟨hl, hl'⟩)
    · apply hunit l (mem_withoutTop.1 hl).1
      intro m hm hne
      by_cases hm' : m = Literal.neg Atom.top
      · rw [hm', hneg]
      · exact hothers m (mem_withoutTop.2 ⟨hm, hm'⟩) hne

end Clause

/-! ### Clauses with top worked out -/

section Simplified

variable {cs : List Clause} {c : Clause} {w : Atom → Option Bool} {i : Interpretation}

/-- The clauses that do not hold top, without the negation of top. -/
def simplified (cs : List Clause) : List Clause :=
  (cs.filter fun c => Literal.pos Atom.top ∉ c).map Clause.withoutTop

/-- A simplified clause comes from one that does not hold top. -/
theorem mem_simplified :
    c ∈ simplified cs ↔ ∃ d ∈ cs, Literal.pos Atom.top ∉ d ∧ c = d.withoutTop := by
  simp only [simplified, List.mem_map, List.mem_filter, decide_eq_true_eq]
  constructor
  · rintro ⟨d, ⟨hd, htop⟩, rfl⟩
    exact ⟨d, hd, htop, rfl⟩
  · rintro ⟨d, hd, htop, rfl⟩
    exact ⟨d, ⟨hd, htop⟩, rfl⟩

/-- Closed are the valuations in which top is true and every clause is quiet. -/
theorem closed_iff_quiet : Closed cs w ↔ w Atom.top = some true ∧ ∀ c ∈ cs, c.Quiet w := by
  constructor
  · rintro ⟨htop, hconsistent, hunit⟩
    exact ⟨htop, fun c hc => ⟨hconsistent c hc, hunit c hc⟩⟩
  · rintro ⟨htop, hquiet⟩
    exact ⟨htop, fun c hc => (hquiet c hc).consistent, fun c hc => (hquiet c hc).unit⟩

/-- The same valuations are closed under unit propagation. -/
theorem closed_simplified_iff : Closed (simplified cs) w ↔ Closed cs w := by
  rw [closed_iff_quiet, closed_iff_quiet]
  apply and_congr_right
  intro htop
  constructor
  · intro h c hc
    by_cases hmem : Literal.pos Atom.top ∈ c
    · exact Clause.quiet_of_true hmem htop
    · exact (Clause.quiet_withoutTop_iff htop).1 (h _ (mem_simplified.2 ⟨c, hc, hmem, rfl⟩))
  · intro h c hc
    obtain ⟨d, hd, -, rfl⟩ := mem_simplified.1 hc
    exact (Clause.quiet_withoutTop_iff htop).2 (h d hd)

/-- The models are the same. -/
theorem isModel_simplified_iff : i.IsModel (simplified cs) ↔ i.IsModel cs := by
  apply and_congr_right
  intro htop
  constructor
  · intro h c hc
    -- a clause that holds top is true by it, and another has a true literal that is not the
    -- negation of top
    by_cases hmem : Literal.pos Atom.top ∈ c
    · exact ⟨_, hmem, htop⟩
    · obtain ⟨l, hl, hsat⟩ := h _ (mem_simplified.2 ⟨c, hc, hmem, rfl⟩)
      exact ⟨l, (Clause.mem_withoutTop.1 hl).1, hsat⟩
  · intro h c hc
    obtain ⟨d, hd, -, rfl⟩ := mem_simplified.1 hc
    obtain ⟨l, hl, hsat⟩ := h d hd
    refine ⟨l, Clause.mem_withoutTop.2 ⟨hl, ?_⟩, hsat⟩
    rintro rfl
    simp [Interpretation.Satisfies, htop] at hsat

end Simplified

namespace Solver

open Action

variable {ρ : Type} {s t : Solver ρ} {c : Clause} {l : Literal} {i : Interpretation}

/-- The solver with top worked out of its clauses. All of them are asserted, and there are no
rules. -/
def withoutTop (s : Solver ρ) : Solver ρ :=
  storeAll (simplified s.formula) { s with clauses := {}, rules := {}, status := .stale }

/-- Nothing but the clauses and the rules has changed. -/
theorem withoutTop_frame (s : Solver ρ) :
    ∃ clauses, s.withoutTop = { s with clauses, rules := {}, status := .stale } := by
  obtain ⟨clauses, status, h, hstatus⟩ := storeAll_frame (simplified s.formula)
    ({ s with clauses := {}, rules := {}, status := .stale } : Solver ρ)
  have hstale : status = .stale := hstatus.elim id id
  subst hstale
  exact ⟨clauses, h⟩

/-- With top worked out there are no completion clauses. -/
theorem formula_withoutTop (s : Solver ρ) :
    s.withoutTop.formula = s.withoutTop.clauses.asserted.toList := by
  have hrules : s.withoutTop.rules = {} := by
    obtain ⟨clauses, h⟩ := withoutTop_frame s
    rw [h]
  have hnone : Rules.completion {} = [] := rfl
  rw [formula, hrules, hnone, List.append_nil]

/-- Every clause that is left is the canonical form of a simplified one. -/
theorem exists_of_mem_withoutTop (hc : c ∈ s.withoutTop.formula) :
    ∃ d ∈ simplified s.formula, c = d.canonical := by
  rw [formula_withoutTop, Array.mem_toList_iff] at hc
  rcases mem_asserted_storeAll_cases hc with hc | h
  · exact absurd hc (Array.not_mem_empty c)
  · exact h

/-- Every simplified clause is left in its canonical form, unless it is a tautology. -/
theorem mem_withoutTop (hc : c ∈ simplified s.formula) :
    c.canonical.clashes = true ∨ c.canonical ∈ s.withoutTop.formula := by
  rw [formula_withoutTop, Array.mem_toList_iff]
  exact canonical_mem_storeAll hc _

/-- The same valuations are closed with top and without. -/
theorem closed_withoutTop_iff {w : Atom → Option Bool} :
    Closed s.withoutTop.formula w ↔ Closed s.formula w := by
  rw [← @closed_simplified_iff s.formula, closed_iff_quiet, closed_iff_quiet]
  apply and_congr_right
  intro _
  constructor
  · intro h c hc
    rcases mem_withoutTop hc with hclash | hmem
    · -- a tautology is not stored, and it is quiet
      obtain ⟨l, hl, hn⟩ := Clause.clashes_canonical_iff.1 hclash
      exact Clause.quiet_of_clash hl hn
    · exact (Clause.quiet_congr fun l => Clause.mem_canonical).1 (h _ hmem)
  · intro h c hc
    obtain ⟨d, hd, rfl⟩ := exists_of_mem_withoutTop hc
    exact (Clause.quiet_congr fun l => Clause.mem_canonical).2 (h d hd)

/-- The models are the same with top and without. -/
theorem isModel_withoutTop_iff : i.IsModel s.withoutTop.formula ↔ i.IsModel s.formula := by
  rw [← @isModel_simplified_iff s.formula]
  apply and_congr_right
  intro _
  constructor
  · intro h c hc
    rcases mem_withoutTop hc with hclash | hmem
    · obtain ⟨l, hl, hn⟩ := Clause.clashes_canonical_iff.1 hclash
      exact Interpretation.isTrue_of_clash hl hn
    · exact Interpretation.isTrue_canonical.1 (h _ hmem)
  · intro h c hc
    obtain ⟨d, hd, rfl⟩ := exists_of_mem_withoutTop hc
    exact Interpretation.isTrue_canonical.2 (h d hd)

/-- The solver with top worked out is well formed. -/
theorem WellFormed.withoutTop (hs : s.WellFormed) : s.withoutTop.WellFormed := by
  have hempty : ({ s with clauses := {}, rules := {}, status := .stale } : Solver ρ).WellFormed :=
    { atoms := hs.atoms
      clauses := fun c hc => absurd hc (Array.not_mem_empty c)
      rules := Rules.over_start _
      assumptions := hs.assumptions
      current := Or.inl rfl }
  apply hempty.storeAll
  intro c hc l hl
  obtain ⟨d, hd, -, rfl⟩ := mem_simplified.1 hc
  exact hs.below d hd l (Clause.mem_withoutTop.1 hl).1

/-- Without rules there is nothing that would have to be written down for them. -/
theorem WellFormed.written_withoutTop (hs : s.WellFormed) : s.withoutTop.Written := by
  have hstart := written_ofConfig s.config s.source
  obtain ⟨clauses, h⟩ := withoutTop_frame s
  apply hstart.of_rules
  · rw [h]
    rfl
  · rw [h]
    exact hs.atoms.count_pos
  · intro c hc
    exact absurd hc (Array.not_mem_empty c)

/-- Nothing mentions top once it is worked out. -/
theorem sparesTop_withoutTop (s : Solver ρ) : s.withoutTop.SparesTop where
  clauses := by
    intro c hc l hl htop
    rw [← Array.mem_toList_iff, ← formula_withoutTop] at hc
    obtain ⟨d, hd, rfl⟩ := exists_of_mem_withoutTop hc
    obtain ⟨e, -, hpos, rfl⟩ := mem_simplified.1 hd
    obtain ⟨hl, hneg⟩ := Clause.mem_withoutTop.1 (Clause.mem_canonical.1 hl)
    -- a literal about top is top or its negation
    rcases Literal.eq_or_eq_negate (m := Literal.pos Atom.top) htop with rfl | rfl
    · exact hpos hl
    · exact hneg rfl
  rules := by
    obtain ⟨clauses, h⟩ := withoutTop_frame s
    rw [h]
    nofun

/-! ### Clauses that are never looked at -/

/-- The only clause that can go unseen is the completion clause of top. -/
theorem Written.eq_of_unseen (hs : s.Written) (hwf : s.WellFormed) (hc : c ∈ s.formula)
    (hunseen : c.Unseen) : s.rules.supportsOf Atom.top = [Literal.neg Atom.top] ∧
      c = [Literal.neg Atom.top, Literal.neg Atom.top] := by
  rcases List.mem_append.1 hc with hc | hc
  · exact absurd hunseen (hwf.seen_asserted c hc)
  · obtain ⟨head, -, rfl⟩ := Rules.mem_completion.1 hc
    obtain ⟨hlen, hneg⟩ := hunseen
    obtain rfl : head = Atom.top := congrArg Literal.atom (hneg _ List.mem_cons_self)
    have hnodup := hs.nodup Atom.top
    have hall : ∀ l ∈ s.rules.supportsOf Atom.top, l = Literal.neg Atom.top :=
      fun l hl => hneg l (List.mem_cons_of_mem _ hl)
    -- no support is listed twice
    generalize s.rules.supportsOf Atom.top = ls at hlen hnodup hall ⊢
    match ls, hlen, hnodup, hall with
    | [l], _, _, hall => simp [hall l (by simp)]
    | l :: m :: ls, _, hnodup, hall =>
      have hl := hall l (by simp)
      have hm := hall m (by simp)
      simp [hl, hm] at hnodup

/-- Only the completion clause of top can be false from the start without being looked at. -/
theorem unseen_iff (hs : s.Written) (hwf : s.WellFormed) :
    (∃ c ∈ s.formula, c.Unseen) ↔ s.rules.supportsOf Atom.top = [Literal.neg Atom.top] := by
  constructor
  · rintro ⟨c, hc, hunseen⟩
    exact (hs.eq_of_unseen hwf hc hunseen).1
  · intro htop
    have hhead : Atom.top ∈ s.rules.supports := by
      by_contra hno
      simp [Rules.supportsOf_eq_nil hno] at htop
    refine ⟨Literal.neg Atom.top :: s.rules.supportsOf Atom.top, ?_, ?_⟩
    · exact List.mem_append_right _ (Rules.mem_completion.2 ⟨_, hhead, rfl⟩)
    · rw [htop]
      decide

/-- Top is fixed to be true. -/
theorem UpToDate.value?_top (hcurrent : s.UpToDate) (hwf : s.WellFormed) :
    s.fixed.value? Atom.top = some true := by
  rw [hcurrent.fixed_eq]
  exact (hcurrent.inStep hwf).value?_of_base (Valuation.value?_blank_top _)

/-- A solver that is consistent has no empty clause. -/
theorem UpToDate.not_mem_nil (hcurrent : s.UpToDate) (hok : s.status = .consistent) :
    [] ∉ s.formula := by
  intro hnil
  have hfix := hcurrent.fix_eq_true hok
  unfold fix at hfix
  rw [if_pos ((containsEmpty_iff s).2 hnil)] at hfix
  cases hfix

/-- Where propagation met no conflict, a clause that is false was never looked at. -/
theorem UpToDate.unseen_of_false (hcurrent : s.UpToDate) (hwf : s.WellFormed)
    (hok : s.status = .consistent) (hc : c ∈ s.formula)
    (hfalse : ∀ l ∈ c, s.fixed.value? l.atom = some (!l.positive)) : c.Unseen := by
  obtain ⟨hunits, hsettled⟩ := hcurrent.settled hwf hok
  have hstanding := Clause.standing_eq_falsified_iff.2 hfalse
  have hneg : ∀ m ∈ c, m = Literal.neg Atom.top := by
    intro m hm
    by_contra hne
    have hsettled := hsettled c hc m hm (hfalse m hm) hne
    simp [hstanding] at hsettled
  -- neither empty nor a unit clause, for these are looked at first
  match c, hc, hfalse, hneg with
  | [], hc, _, _ => exact absurd hc (hcurrent.not_mem_nil hok)
  | [l], hc, hfalse, _ =>
    have hval := hunits l hc
    simp [hfalse l (by simp)] at hval
  | l :: m :: c, _, _, hneg => exact ⟨by simp, hneg⟩

/-- Where propagation met no conflict, a clause of which one literal is left without a value is left
so by the negation of top. -/
theorem UpToDate.leaves_of_open (hcurrent : s.UpToDate) (hwf : s.WellFormed) (hs : s.Written)
    (hok : s.status = .consistent) (hc : c ∈ s.formula) (hl : l ∈ c)
    (hothers : ∀ m ∈ c, m ≠ l → s.fixed.value? m.atom = some (!m.positive))
    (hopen : s.fixed.value? l.atom = none) : c.Leaves l := by
  have htop := hcurrent.value?_top hwf
  obtain ⟨hunits, hsettled⟩ := hcurrent.settled hwf hok
  have hunit : ∀ m : Literal, s.fixed.value? m.atom = none → [m] ∉ s.formula := by
    intro m hm hmem
    have hval := hunits m hmem
    simp [hm] at hval
  obtain ⟨before, after, rfl, hne⟩ := hs.exists_split hwf hc hl (hunit _ hopen)
  have hrest : ∀ m ∈ before ++ after, m ∈ before ++ l :: after := by
    intro m hm
    simp only [List.mem_append, List.mem_cons] at hm ⊢
    tauto
  have hforces : Clause.standing s.fixed (before ++ l :: after) = .forces l :=
    Clause.standing_eq_forces_iff.2
      ⟨before, after, rfl, hopen, fun m hm => hothers m (hrest m hm) (hne m hm)⟩
  have hneg : ∀ m ∈ before ++ after, m = Literal.neg Atom.top := by
    intro m hm
    by_contra hne'
    have hsettled := hsettled _ hc m (hrest m hm) (hothers m (hrest m hm) (hne m hm)) hne'
    simp [hforces] at hsettled
  cases hnil : before ++ after with
  | nil =>
    obtain ⟨rfl, rfl⟩ := List.append_eq_nil_iff.1 hnil
    exact absurd hc (hunit l hopen)
  | cons m rest =>
    -- the literals besides `l` are all the negation of top
    have hm : m ∈ before ++ after := by simp [hnil]
    refine ⟨hneg m hm ▸ hrest m hm, hl, ?_, ?_⟩
    · rintro rfl
      simp [htop] at hopen
    · intro n hn
      have hn : n ∈ before ++ after ∨ n = l := by
        simp only [List.mem_append, List.mem_cons] at hn ⊢
        tauto
      exact hn.imp_left (hneg n)

/-- Where propagation met no conflict, what is fixed is closed under unit propagation but for the
clauses that the negation of top makes false or leaves with one literal. -/
theorem UpToDate.closed_iff (hcurrent : s.UpToDate) (hwf : s.WellFormed) (hs : s.Written)
    (hok : s.status = .consistent) :
    Closed s.formula s.fixed.value? ↔ (∀ c ∈ s.formula, ¬ c.Unseen) ∧
      ∀ c ∈ s.formula, ∀ l, c.Leaves l → s.fixed.value? l.atom ≠ none := by
  have htop := hcurrent.value?_top hwf
  constructor
  · intro hclosed
    refine ⟨fun c hc hunseen => ?_, fun c hc l hleaves => ?_⟩
    · apply hclosed.consistent c hc
      intro l hl
      simp [hunseen.2 l hl, htop]
    · obtain ⟨-, hl, -, hall⟩ := hleaves
      apply hclosed.unit c hc l hl
      intro m hm hne
      simp [(hall m hm).resolve_right hne, htop]
  · -- conversely, these are the only ways for a consequence to be missing
    rintro ⟨hseen, hleaves⟩
    refine ⟨htop, fun c hc hfalse => ?_, fun c hc l hl hothers hopen => ?_⟩
    · exact hseen c hc (hcurrent.unseen_of_false hwf hok hc hfalse)
    · exact hleaves c hc l (hcurrent.leaves_of_open hwf hs hok hc hl hothers hopen) hopen

/-! ### The two solvers compared -/

/-- What a solver says of an atom that it knows when it is asked for its fixed value. -/
def fixedOf (s : Solver ρ) (a : Atom) : Option Bool :=
  if s.refresh.status = .inconsistent then none else s.refresh.fixed.value? a

/-- The answer to a question for a fixed value, where the atom is known. -/
theorem answer_fixedValue (a : Atom) (s : Solver ρ) :
    answer (fixedValue a) s = (s.checkKnown [Literal.pos a]).map fun _ => s.fixedOf a := by
  unfold answer fixedValue
  cases s.checkKnown [Literal.pos a] <;> rfl

/-- Without a conflict an atom has the value that is fixed for it. -/
theorem fixedOf_of_consistent (hok : s.refresh.status = .consistent) (a : Atom) :
    s.fixedOf a = s.refresh.fixed.value? a := by
  rw [fixedOf, if_neg (by rw [hok]; nofun)]

/-- After a conflict nothing is said to be fixed. -/
theorem fixedOf_of_inconsistent (hbad : s.refresh.status = .inconsistent) (a : Atom) :
    s.fixedOf a = none := by
  rw [fixedOf, if_pos hbad]

/-- Nothing is fixed for an atom that there is not. -/
theorem WellFormed.fixedOf_of_ge (hs : s.WellFormed) {a : Atom} (ha : s.atoms.count ≤ a) :
    s.fixedOf a = none := by
  obtain ⟨hwf, hcurrent⟩ := hs.refresh
  have hsize : s.refresh.fixed.size = s.atoms.count := by
    rw [hcurrent.size_fixed hwf, (sameConstraints_refresh s).atoms]
  unfold fixedOf
  split
  · rfl
  · have hnone : s.refresh.fixed[a]? = none := Array.getElem?_eq_none (by omega)
    simp [Valuation.value?, hnone]

/-- The two give the same answers if they fix the same values. -/
theorem WellFormed.answer_fixedValue_iff (hs : s.WellFormed) (ht : t.WellFormed)
    (hatoms : t.atoms = s.atoms) :
    (∀ a, answer (fixedValue a) s = answer (fixedValue a) t) ↔ ∀ a, s.fixedOf a = t.fixedOf a := by
  apply forall_congr'
  intro a
  have hknown : t.checkKnown [Literal.pos a] = s.checkKnown [Literal.pos a] := by
    rw [checkKnown, checkKnown, hatoms]
  rw [answer_fixedValue, answer_fixedValue, hknown]
  cases hcheck : s.checkKnown [Literal.pos a] with
  | ok u => simp [Except.map]
  | error e =>
    -- an atom that is refused has no value in either
    obtain ⟨l, hl, hge, -⟩ := checkKnown_eq_error hcheck
    rw [List.mem_singleton.1 hl] at hge
    have hge : s.atoms.count ≤ a := hge
    rw [hs.fixedOf_of_ge hge, ht.fixedOf_of_ge (by rwa [hatoms])]
    simp [Except.map]

/-- How a solver stands after a refresh. -/
theorem WellFormed.status_refresh (hs : s.WellFormed) :
    s.refresh.status = .consistent ∨ s.refresh.status = .inconsistent := by
  cases hstatus : s.refresh.status with
  | stale => exact absurd hstatus hs.refresh.2.status_ne_stale
  | consistent => exact Or.inl rfl
  | inconsistent => exact Or.inr rfl

/-- Without top nothing is left to derive. -/
theorem WellFormed.closed_withoutTop (hs : s.WellFormed)
    (hok : s.withoutTop.refresh.status = .consistent) :
    Closed s.formula s.withoutTop.refresh.fixed.value? := by
  have hsame := sameConstraints_refresh s.withoutTop
  obtain ⟨hwf, hcurrent⟩ := hs.withoutTop.refresh
  have hclosed := hcurrent.closed hwf (hs.written_withoutTop.of_same hsame)
    ((sparesTop_withoutTop s).of_same hsame) hok
  rwa [hsame.formula, closed_withoutTop_iff] at hclosed

/-- A valuation that is closed tells that there is no conflict. -/
theorem WellFormed.consistent_of_closed (hs : s.WellFormed) {w : Atom → Option Bool}
    (hclosed : Closed s.formula w) : s.refresh.status = .consistent := by
  apply hs.status_refresh.resolve_right
  intro hbad
  have hconflict := hs.refresh.2.conflicting hbad
  rw [(sameConstraints_refresh s).formula] at hconflict
  exact hclosed.not_conflicting hconflict

/-- What is fixed is so in every valuation that is closed. -/
theorem WellFormed.value_of_fixedOf (hs : s.WellFormed) {w : Atom → Option Bool}
    (hclosed : Closed s.formula w) {a : Atom} {b : Bool} (hval : s.fixedOf a = some b) :
    w a = some b := by
  rw [fixedOf_of_consistent (hs.consistent_of_closed hclosed)] at hval
  have hderives := hs.refresh.2.derived hval
  rw [(sameConstraints_refresh s).formula] at hderives
  exact hderives.value hclosed

/-- What is fixed is fixed without top too, unless a conflict is met without top. -/
theorem WellFormed.fixedOf_withoutTop (hs : s.WellFormed)
    (hok : s.withoutTop.refresh.status = .consistent) {a : Atom} {b : Bool}
    (hval : s.fixedOf a = some b) : s.withoutTop.fixedOf a = some b := by
  rw [fixedOf_of_consistent hok]
  exact hs.value_of_fixedOf (hs.closed_withoutTop hok) hval

/-- **The fixed values are the same exactly where propagation has left nothing to derive.** -/
theorem WellFormed.fixedOf_eq_iff (hs : s.WellFormed) :
    (∀ a, s.fixedOf a = s.withoutTop.fixedOf a) ↔
      s.refresh.status = .inconsistent ∨ Closed s.formula s.refresh.fixed.value? := by
  constructor
  · intro heq
    rcases hs.status_refresh with hok | hbad
    · -- top is fixed by both, so there is no conflict without top either
      have hok' : s.withoutTop.refresh.status = .consistent := by
        apply hs.withoutTop.status_refresh.resolve_right
        intro hbad'
        have htop := heq Atom.top
        rw [fixedOf_of_consistent hok, fixedOf_of_inconsistent hbad',
          hs.refresh.2.value?_top hs.refresh.1] at htop
        cases htop
      have hvalues : s.refresh.fixed.value? = s.withoutTop.refresh.fixed.value? := by
        funext a
        rw [← fixedOf_of_consistent hok, ← fixedOf_of_consistent hok', heq]
      rw [hvalues]
      exact Or.inr (hs.closed_withoutTop hok')
    · exact Or.inl hbad
  · rintro (hbad | hclosed) a
    · rcases hs.withoutTop.status_refresh with hok' | hbad'
      · have hok := hs.consistent_of_closed (hs.closed_withoutTop hok')
        rw [hbad] at hok
        cases hok
      · rw [fixedOf_of_inconsistent hbad, fixedOf_of_inconsistent hbad']
    · have hclosed' : Closed s.withoutTop.formula s.refresh.fixed.value? :=
        closed_withoutTop_iff.2 hclosed
      have hok := hs.consistent_of_closed hclosed
      have hok' := hs.withoutTop.consistent_of_closed hclosed'
      -- each fixes what the other does
      cases hval : s.withoutTop.fixedOf a with
      | some b =>
        rw [fixedOf_of_consistent hok]
        exact hs.withoutTop.value_of_fixedOf hclosed' hval
      | none =>
        cases hval' : s.fixedOf a with
        | none => rfl
        | some b => simp [hs.fixedOf_withoutTop hok' hval'] at hval

variable [RandomSource ρ]

/-- A search without top finds a model exactly when the constraints have one. -/
theorem WellFormed.isSome_solve_withoutTop (hs : s.WellFormed) (optimize : Bool) :
    (s.withoutTop.solve optimize).1.isSome = true ↔
      ∃ i : Interpretation, i.IsModel s.formula ∧ i.SatisfiesAll s.assumptions := by
  have hwf := hs.withoutTop
  have hassumptions : s.withoutTop.assumptions = s.assumptions := by
    obtain ⟨clauses, h⟩ := withoutTop_frame s
    rw [h]
  have hnone : s.withoutTop.rules.supportsOf Atom.top = [] := by
    apply hwf.supportsOf_eq_nil
    exact fun rule hrule => ((sparesTop_withoutTop s).rules rule hrule).1
  rw [hwf.isSome_solve_iff (hwf.seen (.inl hnone)), hassumptions]
  simp only [isModel_withoutTop_iff]

/-- The clauses that are looked at may have a model where all the clauses have none. -/
theorem exists_isModel_iff_seen {cs : List Clause} {ls : List Literal} :
    (∃ i : Interpretation, i.IsModel cs ∧ i.SatisfiesAll ls) ↔
      (∃ i : Interpretation, i.IsModel (cs.filter fun c => ¬ c.Unseen) ∧ i.SatisfiesAll ls) ∧
        ∀ c ∈ cs, ¬ c.Unseen := by
  constructor
  · rintro ⟨i, hi, hassumed⟩
    refine ⟨⟨i, ⟨hi.1, fun c hc => hi.2 c (List.mem_of_mem_filter hc)⟩, hassumed⟩, ?_⟩
    rintro c hc ⟨-, hneg⟩
    obtain ⟨l, hl, hsat⟩ := hi.2 c hc
    simp [hneg l hl, Interpretation.Satisfies, hi.1] at hsat
  · rintro ⟨⟨i, hi, hassumed⟩, hall⟩
    exact ⟨i, ⟨hi.1, fun c hc => hi.2 c (by simp [hc, hall c hc])⟩, hassumed⟩

/-- **Where top differs from a constant.** Compare a solver that can be reached, whose clauses and
rules may mention top, with the one that has top worked out of all its clauses.

* The one without top finds a model exactly when the other does and the negation of top is not the
  one support of top.
* A model that is found makes the assumptions true and every clause but that completion clause.
* The fixed values are the same exactly where propagation meets a conflict or leaves no such
  clause, and no clause in which the negation of top leaves one literal alone, without a value.
* What is fixed is fixed without top too, unless a conflict is met without top. -/
theorem Reachable.withoutTop_exact (hs : s.Reachable) (optimize : Bool) :
    ((s.withoutTop.solve optimize).1.isSome = true ↔
        (s.solve optimize).1.isSome = true ∧
          s.rules.supportsOf Atom.top ≠ [Literal.neg Atom.top]) ∧
      (∀ m, (s.solve optimize).1 = some m → m.interpretation.SatisfiesAll s.assumptions ∧
        ∀ c ∈ s.formula, m.interpretation.IsTrue c ∨
          s.rules.supportsOf Atom.top = [Literal.neg Atom.top] ∧
            c = [Literal.neg Atom.top, Literal.neg Atom.top]) ∧
      ((∀ a, answer (fixedValue a) s = answer (fixedValue a) s.withoutTop) ↔
        s.refresh.status = .inconsistent ∨
          s.rules.supportsOf Atom.top ≠ [Literal.neg Atom.top] ∧
            ∀ c ∈ s.formula, ∀ l, c.Leaves l → s.refresh.fixed.value? l.atom ≠ none) ∧
      ∀ a b, answer (fixedValue a) s = .ok (some b) →
        s.withoutTop.refresh.status = .inconsistent ∨
          answer (fixedValue a) s.withoutTop = .ok (some b) := by
  have hwf := hs.wellFormed
  have hwritten := hs.attained.written
  have hseen : s.rules.supportsOf Atom.top ≠ [Literal.neg Atom.top] ↔
      ∀ c ∈ s.formula, ¬ c.Unseen := by
    rw [Ne, ← unseen_iff hwritten hwf]
    simp
  -- a search respects every clause that is looked at
  have hspec := hwf.solve_seen optimize
  have hatoms : s.withoutTop.atoms = s.atoms := by
    obtain ⟨clauses, h⟩ := withoutTop_frame s
    rw [h]
  refine ⟨?_, fun m hm => ?_, ?_, fun a b hval => ?_⟩
  · rw [hwf.isSome_solve_withoutTop, hwf.isSome_solve_iff_seen, hseen]
    exact exists_isModel_iff_seen
  · rw [hm] at hspec
    obtain ⟨-, hmodel, hassumed⟩ := hspec
    refine ⟨hassumed, fun c hc => ?_⟩
    by_cases h : c.Unseen
    · exact Or.inr (hwritten.eq_of_unseen hwf hc h)
    · exact Or.inl (hmodel.2 c (by simp [hc, h]))
  · have hsame := sameConstraints_refresh s
    obtain ⟨hwf', hcurrent⟩ := hwf.refresh
    rw [hwf.answer_fixedValue_iff hwf.withoutTop hatoms, hwf.fixedOf_eq_iff, hseen]
    -- after a conflict nothing is said to be fixed in either solver, so they agree there
    rcases hwf.status_refresh with hok | hbad
    · have hclosed := hcurrent.closed_iff hwf' (hwritten.of_same hsame) hok
      rw [hsame.formula] at hclosed
      simp [hclosed, hok]
    · simp [hbad]
  · rcases hwf.withoutTop.status_refresh with hok | hbad
    · have hknown : s.withoutTop.checkKnown [Literal.pos a] = s.checkKnown [Literal.pos a] := by
        rw [checkKnown, checkKnown, hatoms]
      rw [answer_fixedValue] at hval ⊢
      rw [hknown]
      cases hcheck : s.checkKnown [Literal.pos a] with
      | error e => simp [hcheck, Except.map] at hval
      | ok u =>
        simp only [hcheck, Except.map, Except.ok.injEq] at hval ⊢
        exact Or.inr (hwf.fixedOf_withoutTop hok hval)
    · exact Or.inl hbad

/-- Top in a clause, in a body and as a head: the clause leaves the first atom with no value, which a
search gives it all the same. -/
theorem withoutTop_exact_implied :
    let s : Solver Pcg := [Move.freshAtom none, .freshAtom none, .freshAtom none,
      .addClause [Literal.neg Atom.top, Literal.pos 1],
      .addRule 2 [Literal.pos Atom.top, Literal.pos 3], .addRule Atom.top [Literal.pos 2]].foldl
        (fun s m => m.perform s) (ofConfig {} (Pcg.ofSeed 0))
    s.Reachable ∧ (s.withoutTop.solve true).1.isSome = true ∧
      (∃ m, (s.solve true).1 = some m ∧ ∀ c ∈ s.formula, m.interpretation.IsTrue c) ∧
      ¬ ∀ a, answer (fixedValue a) s = answer (fixedValue a) s.withoutTop := by
  intro s
  have hs : s.Reachable := (Reachable.start {} (Pcg.ofSeed 0)).moves _
  have hvalues : (s.solve true).1.isSome = true ∧
      s.rules.supportsOf Atom.top ≠ [Literal.neg Atom.top] ∧
      s.refresh.status = .consistent ∧ s.refresh.fixed.value? (1 : Nat) = none ∧
      [Literal.neg Atom.top, Literal.pos 1] ∈ s.formula := by decide +kernel
  obtain ⟨hsome, htop, hok, hopen, hmem⟩ := hvalues
  obtain ⟨hsolve, hmodel, hfixed, -⟩ := hs.withoutTop_exact true
  obtain ⟨m, hm⟩ := Option.isSome_iff_exists.1 hsome
  refine ⟨hs, hsolve.2 ⟨hsome, htop⟩, ⟨m, hm, fun c hc => ?_⟩, fun hsame => ?_⟩
  · exact ((hmodel m hm).2 c hc).resolve_right fun h => htop h.1
  · -- the clause that top leaves with a single literal goes without its consequence
    rcases hfixed.1 hsame with hbad | ⟨-, hvalued⟩
    · rw [hok] at hbad
      cases hbad
    · refine hvalued _ hmem (Literal.pos 1) ?_ hopen
      simp [Clause.Leaves, Literal.pos, Literal.neg]

/-- What follows from top alone has no fixed value, as it would without top; and where top is
concluded from its negation a model is found, in which not every clause is true, while without top
there is none. -/
theorem top_not_constant :
    let s : Solver Pcg := [Move.freshAtom none, .addClause [Literal.neg Atom.top, Literal.pos 1]].foldl
      (fun s m => m.perform s) (ofConfig {} (Pcg.ofSeed 0))
    let t : Solver Pcg := [Move.freshAtom none, .addRule Atom.top [Literal.neg Atom.top]].foldl
      (fun s m => m.perform s) (ofConfig {} (Pcg.ofSeed 0))
    value? (fixedValue 1) s = some none ∧ value? (fixedValue 1) s.withoutTop = some (some true) ∧
      (t.solve true).1.map (fun m => t.formula.all fun c => c.any m.holds) = some false ∧
      (t.withoutTop.solve true).1 = none := by
  decide +kernel

end Solver

end Storyworld
