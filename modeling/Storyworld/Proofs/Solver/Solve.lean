import Storyworld.Proofs.Solver.Fixed
import Storyworld.Random.Pcg

namespace Storyworld

/-!
# A search is sound and complete

`Solver.solve` gives a model exactly when the constraints and the assumptions have one, and
what it gives is one. The search begins where the constraints and the assumptions have led
(`Settles` and `searching_of_undecided`); it ends within its budget, and then either there is no
candidate or every atom has a value and no clause is false (`rounds_spec`).
-/

/-! ### Models as interpretations -/

namespace Model

/-- The interpretation that a model gives. Atoms outside its language are false. -/
def interpretation (m : Model) : Interpretation := fun a => (m.value? a).getD false

theorem satisfies_iff_holds {m : Model} {l : Literal} :
    m.interpretation.Satisfies l ↔ m.holds l = true := by
  rw [holds, beq_iff_eq]
  rfl

@[simp] theorem atomCount_ofValuation (v : Valuation) (count : Nat) :
    (ofValuation v count).atomCount = count := Array.size_ofFn

theorem satisfies_ofValuation {v : Valuation} {count : Nat} {l : Literal} (hlt : l.atom < count)
    (h : v.value? l.atom = some l.positive) : (ofValuation v count).interpretation.Satisfies l := by
  have hval : (ofValuation v count).value? l.atom = some ((v.value? l.atom).getD false) := by
    show (Array.ofFn fun a : Fin count => (v.value? a).getD false)[l.atom]? = _
    rw [Array.getElem?_ofFn, dif_pos hlt]
  rw [Interpretation.Satisfies, interpretation, hval, h]
  rfl

/-- A valuation in which every atom has a value and no clause is false is a model. -/
theorem isModel_ofValuation {v : Valuation} {count : Nat} {cs : List Clause}
    (hsize : v.size = count) (hpos : 0 < count) (htop : v.value? Atom.top = some true)
    (hopen : v.openAtoms = []) (hbelow : Clause.Below count cs)
    (hcs : ∀ c ∈ cs, c.standing v ≠ .falsified) :
    (ofValuation v count).interpretation.IsModel cs := by
  refine ⟨satisfies_ofValuation (l := Literal.pos Atom.top) hpos htop, fun c hc => ?_⟩
  have hex : ∃ l ∈ c, v.value? l.atom ≠ some (!l.positive) := by
    by_cases hex : ∃ l ∈ c, v.value? l.atom ≠ some (!l.positive)
    · exact hex
    · refine absurd (Clause.standing_eq_falsified_iff.2 fun l hl => ?_) (hcs c hc)
      by_cases hval : v.value? l.atom = some (!l.positive)
      · exact hval
      · exact absurd ⟨l, hl, hval⟩ hex
  obtain ⟨l, hl, hne⟩ := hex
  have hlt : l.atom < count := hbelow c hc l hl
  rcases Clause.value?_cases v l with h | h | h
  · exact ⟨l, hl, satisfies_ofValuation hlt h⟩
  · exact absurd h hne
  · -- an atom without a value is open, unless it is top
    have hne : l.atom ≠ Atom.top := fun e => by rw [e, htop] at h; cases h
    have hmem : l.atom ∈ v.openAtoms :=
      Valuation.mem_openAtoms.2 ⟨hne, Valuation.open_of_value? (by rw [hsize]; exact hlt) h⟩
    rw [hopen] at hmem
    cases hmem

end Model

namespace Solver

open Assignment

variable {ρ : Type} {s : Solver ρ}

/-- What a search gives: a model of some clauses in which some literals are true, over that many
atoms, or nothing if there is no such interpretation. -/
def Answers (count : Nat) (cs : List Clause) (ls : List Literal) : Option Model → Prop
  | some m => m.atomCount = count ∧ m.interpretation.IsModel cs ∧ m.interpretation.SatisfiesAll ls
  | none => ∀ i : Interpretation, i.IsModel cs → ¬ i.SatisfiesAll ls

theorem Answers.isSome_iff {count : Nat} {cs : List Clause} {ls : List Literal} {m : Option Model}
    (h : Answers count cs ls m) :
    m.isSome = true ↔ ∃ i : Interpretation, i.IsModel cs ∧ i.SatisfiesAll ls := by
  cases m with
  | none =>
    refine ⟨nofun, ?_⟩
    rintro ⟨i, hi, hls⟩
    exact absurd hls (h i hi)
  | some m => exact ⟨fun _ => ⟨m.interpretation, h.2⟩, fun _ => rfl⟩

/-- Where a search begins: the candidates are the models of the constraints in which the
assumptions are true, and they agree with the fixed valuation. -/
theorem searchSpace_fixed (hs : s.WellFormed) (hcurrent : s.UpToDate)
    (hsettles : Settles s.formula s.atoms.count s.fixed) :
    SearchSpace s.clauses s.fixed fun i =>
      i.IsModel s.formula ∧ i.SatisfiesAll s.assumptions := by
  have hall : s.clauses.all = s.formula := by
    rw [hcurrent.1]
    rfl
  constructor
  · -- the index was built when the clauses were settled
    rw [hsettles.size, hcurrent.1]
    exact Clauses.indexed_reindex _ _
  · rw [hsettles.size, hall]
    exact hs.below
  · intro h
    have hnone := h.value?
    rw [hsettles.top] at hnone
    cases hnone
  · intro i hi
    rw [hall]
    exact hi.1.2
  · exact fun i hi => hsettles.entailed i hi.1

theorem InStep.value?_of_prefix {base : Valuation} {a b : Assignment} (ha : InStep base a)
    (hb : InStep base b) (hab : a.trail.toList <+: b.trail.toList) {x : Atom} {v : Bool}
    (hx : a.valuation.value? x = some v) : b.valuation.value? x = some v := by
  rw [ha.valuation_eq] at hx
  rcases Valuation.value?_assignAll_cases hx with hbase | hmem
  · exact hb.value?_of_base hbase
  · exact hb.value?_of_mem (hab.subset hmem)

/-- With the assumptions made, all is in place for a search, and its rounds are enough. -/
theorem searching_assumed (hs : s.WellFormed) (hcurrent : s.UpToDate)
    (hsettles : Settles s.formula s.atoms.count s.fixed) {a : Assignment}
    (ha : assume s.assumptions ⟨s.fixed, {}⟩ = (true, a)) :
    Searching s.clauses s.fixed (fun i => i.IsModel s.formula ∧ i.SatisfiesAll s.assumptions)
        a.trail.toList a ∧
      budget s.fixed.openCount a ≤ roundLimit a.valuation := by
  have hin : ∀ l ∈ s.assumptions, l.atom < s.fixed.size := by
    rw [hsettles.size]
    exact hs.assumptions
  have hstep := (inStep_empty s.fixed).assume hin
  have hds := decisions_assume s.assumptions ⟨s.fixed, {}⟩
  have hprop := propagated_assume s.assumptions ⟨s.fixed, {}⟩
  have hjust : ∀ i : Interpretation, i.IsModel s.formula ∧ i.SatisfiesAll s.assumptions →
      i.SatisfiesAll (assume s.assumptions ⟨s.fixed, {}⟩).2.trail.toList :=
    fun i hi => satisfiesAll_assume hi.2
  rw [ha] at hstep hds hprop hjust
  have hds : a.trail.decisions = [] := hds
  -- no clause is false at the start, so none can have been false for longer
  have halert : Alert s.clauses a := by
    refine hstep.alert hprop fun c hc hfalse => ?_
    rw [hcurrent.1] at hc
    exact absurd hfalse (hsettles.standing c hc)
  exact ⟨searching_of_undecided hstep hds hjust halert, Nat.le_of_eq (budget_of_undecided hstep hds)⟩

/-- What a search has found is a model of the constraints in which the assumptions are true. -/
theorem answers_found (hs : s.WellFormed) (hcurrent : s.UpToDate)
    (hsettles : Settles s.formula s.atoms.count s.fixed) {a b : Assignment}
    (ha : assume s.assumptions ⟨s.fixed, {}⟩ = (true, a))
    (hb : Outcome s.clauses s.fixed
      (fun i => i.IsModel s.formula ∧ i.SatisfiesAll s.assumptions) a.trail.toList b .found) :
    Answers s.atoms.count s.formula s.assumptions
      (some (Model.ofValuation b.valuation s.atoms.count)) := by
  obtain ⟨hfound, hopen, hnone⟩ := hb
  have hin : ∀ l ∈ s.assumptions, l.atom < s.fixed.size := by
    rw [hsettles.size]
    exact hs.assumptions
  have hstart := (inStep_empty s.fixed).assume hin
  have hvals := value?_of_assume_eq_true (inStep_empty s.fixed) hin (by rw [ha])
  rw [ha] at hstart hvals
  refine ⟨Model.atomCount_ofValuation _ _, ?_, fun l hl => ?_⟩
  · refine Model.isModel_ofValuation (hfound.inStep.size.trans hsettles.size) hs.atoms.count_pos
      (hfound.inStep.value?_of_base hsettles.top) hopen hs.below fun c hc => hnone c ?_
    rw [hcurrent.1]
    exact hc
  · -- the search has kept the assumptions, with which its trail begins
    refine Model.satisfies_ofValuation (hs.assumptions l hl) ?_
    exact InStep.value?_of_prefix hstart hfound.inStep hfound.rooted.1 (hvals l hl)

variable [RandomSource ρ]

/-- The search, once what the constraints fix is known. -/
def search (optimize : Bool) (s : Solver ρ) : Option Model × Solver ρ :=
  if s.status = .inconsistent then (none, s)
  else
    match s.begin with
    | (false, s) => (none, s)
    | (true, s) =>
      match rounds optimize (roundLimit s.work.valuation) s with
      | (.found, s) => (some (Model.ofValuation s.work.valuation s.atoms.count), s)
      | (_, s) => (none, s)

/-- To solve is to count the solve, refresh, and search. -/
theorem solve_eq_search (optimize : Bool) (s : Solver ρ) :
    s.solve optimize =
      search optimize ({ s with counters.solves := s.counters.solves + 1 } : Solver ρ).refresh :=
  rfl

/-- How a search ends: with nothing, and there is no model, or with the model that its rounds
have found from where the assumptions have led. -/
theorem search_ends (hs : s.WellFormed) (hcurrent : s.UpToDate)
    (hseen : ∀ c ∈ s.formula, ¬ c.Unseen) (optimize : Bool) :
    ((search optimize s).1 = none ∧
        ∀ i : Interpretation, i.IsModel s.formula → ¬ i.SatisfiesAll s.assumptions) ∨
      Settles s.formula s.atoms.count s.fixed ∧
        ∃ a b t, assume s.assumptions ⟨s.fixed, {}⟩ = (true, a) ∧
          rounds optimize (roundLimit a.valuation) { s with work := a } = (.found, t) ∧
          t.work = b ∧
          Outcome s.clauses s.fixed
            (fun i => i.IsModel s.formula ∧ i.SatisfiesAll s.assumptions) a.trail.toList b
            .found ∧
          (search optimize s).1 = some (Model.ofValuation b.valuation s.atoms.count) := by
  unfold search
  rcases hs.fixed_spec hcurrent hseen with ⟨hstatus, hsettles⟩ | ⟨hstatus, hnone⟩
  · rw [if_neg (by rw [hstatus]; nofun)]
    unfold begin
    cases ha : assume s.assumptions ⟨s.fixed, {}⟩ with
    | mk possible a =>
      cases possible with
      | false =>
        refine .inl ⟨rfl, fun i hi => ?_⟩
        -- an assumption is refused, so they cannot all be true
        refine not_satisfiesAll_of_assume ?_ (hsettles.entailed i hi) (by rw [ha])
        rw [hsettles.size]
        exact hs.assumptions
      | true =>
        -- the rounds are as many as the budget asks for, so the search does end
        have hspace := searchSpace_fixed hs hcurrent hsettles
        obtain ⟨hsearching, hbudget⟩ := searching_assumed hs hcurrent hsettles ha
        have hrounds := rounds_spec optimize (s := { s with work := a }) hspace hsearching hbudget
        obtain ⟨counters, work, source, hcont⟩ :=
          rounds_continues optimize (roundLimit a.valuation) { s with work := a }
        dsimp only
        split
        · rename_i t ht
          rw [ht] at hrounds hcont
          have htwork : t = { s with counters, work, source } := hcont
          exact .inr ⟨hsettles, a, t.work, t, rfl, ht, rfl, hrounds.1, by rw [htwork]⟩
        · rename_i progress t hne ht
          rw [ht] at hrounds
          obtain ⟨hout, hended⟩ := hrounds
          cases progress with
          | searching => exact absurd rfl hended
          | found => exact absurd rfl hne
          | exhausted => exact .inl ⟨rfl, fun i hi hls => hout i ⟨hi, hls⟩⟩
  · rw [if_pos hstatus]
    exact .inl ⟨rfl, fun i hi => absurd hi (hnone i)⟩

theorem search_spec (hs : s.WellFormed) (hcurrent : s.UpToDate)
    (hseen : ∀ c ∈ s.formula, ¬ c.Unseen) (optimize : Bool) :
    Answers s.atoms.count s.formula s.assumptions (search optimize s).1 := by
  obtain ⟨hsearch, hnone⟩ | ⟨hsettles, a, b, t, ha, -, -, hfound, hsearch⟩ :=
    search_ends hs hcurrent hseen optimize
  · rw [hsearch]
    exact hnone
  · rw [hsearch]
    exact answers_found hs hcurrent hsettles ha hfound

/-- A solve is a search with what the constraints fix brought up to date. -/
theorem WellFormed.solve_eq (hs : s.WellFormed) (optimize : Bool) :
    ∃ t : Solver ρ, t.WellFormed ∧ t.UpToDate ∧ s.solve optimize = search optimize t ∧
      t.config = s.config ∧ t.atoms = s.atoms ∧ t.rules = s.rules ∧
      t.assumptions = s.assumptions ∧ t.formula = s.formula := by
  have hrefresh := hs.refresh
  obtain ⟨clauses, work, fixed, status, h, hasserted⟩ := refresh_frame s
  rw [solve_eq_search, refresh_counters]
  rw [h] at hrefresh ⊢
  -- the solver that the search starts from: refreshed, and with one more solve counted
  let counters := { s.counters with solves := s.counters.solves + 1 }
  let t : Solver ρ := { s with counters, clauses, work, fixed, status }
  have ht : t.WellFormed := hrefresh.1.continues ⟨counters, work, s.source, rfl⟩
  have hformula : t.formula = s.formula := by
    rw [formula, formula, hasserted]
  exact ⟨t, ht, hrefresh.2, rfl, rfl, rfl, rfl, rfl, hformula⟩

/-- A solve answers for the constraints and the assumptions, where all clauses are seen. -/
theorem WellFormed.solve_spec (hs : s.WellFormed) (hseen : ∀ c ∈ s.formula, ¬ c.Unseen)
    (optimize : Bool) :
    Answers s.atoms.count s.formula s.assumptions (s.solve optimize).1 := by
  obtain ⟨t, ht, hcurrent, hsolve, -, hatoms, -, hassumptions, hformula⟩ :=
    hs.solve_eq optimize
  rw [hsolve, ← hatoms, ← hassumptions, ← hformula]
  exact search_spec ht hcurrent (by rwa [hformula]) optimize

/-- A search finds a model exactly when there is one, as long as no constraint goes unseen. -/
theorem WellFormed.isSome_solve_iff (hs : s.WellFormed) (hseen : ∀ c ∈ s.formula, ¬ c.Unseen)
    (optimize : Bool) :
    (s.solve optimize).1.isSome = true ↔
      ∃ i : Interpretation, i.IsModel s.formula ∧ i.SatisfiesAll s.assumptions :=
  (hs.solve_spec hseen optimize).isSome_iff

omit [RandomSource ρ] in
/-- A head without a rule has no support. -/
theorem WellFormed.supportsOf_eq_nil (hs : s.WellFormed) {head : Atom}
    (h : ∀ rule ∈ s.rules.recorded, rule.1 ≠ head) : s.rules.supportsOf head = [] := by
  by_cases hnil : s.rules.supportsOf head = []
  · exact hnil
  · obtain ⟨body, hbody⟩ := hs.rules.recorded head hnil
    exact absurd rfl (h _ hbody)

/-- **Solving is sound and complete.** For every solver that can be reached and in which no rule
has top as its head, a model is found exactly when some interpretation satisfies the asserted
clauses, the completion clauses of the rules and the assumptions, and the model that is found
is one, over all the atoms there are. -/
theorem Reachable.solve_correct (hs : s.Reachable)
    (htop : ∀ rule ∈ s.rules.recorded, rule.1 ≠ Atom.top) (optimize : Bool) :
    ((s.solve optimize).1.isSome = true ↔
        ∃ i : Interpretation, i.IsModel s.formula ∧ i.SatisfiesAll s.assumptions) ∧
      ∀ m, (s.solve optimize).1 = some m →
        m.atomCount = s.atoms.count ∧ m.interpretation.IsModel s.formula ∧
          m.interpretation.SatisfiesAll s.assumptions := by
  have hwf := hs.wellFormed
  -- without rules for top every clause is seen, and the search answers for all of them
  have hspec := hwf.solve_spec (hwf.seen (.inl (hwf.supportsOf_eq_nil htop))) optimize
  cases h : (s.solve optimize).1 with
  | none =>
    rw [h] at hspec
    refine ⟨⟨nofun, fun ⟨i, hi, hls⟩ => absurd hls (hspec i hi)⟩, nofun⟩
  | some m =>
    rw [h] at hspec
    refine ⟨⟨fun _ => ⟨m.interpretation, hspec.2⟩, fun _ => rfl⟩, fun n hn => ?_⟩
    rw [← Option.some.inj hn]
    exact hspec

/-- A rule for the first of two atoms, which is assumed. -/
theorem solve_correct_rule :
    let s : Solver Pcg := [Move.freshAtom none, .freshAtom none, .addRule 1 [Literal.pos 2],
      .force (Literal.pos 1)].foldl (fun s m => m.perform s) (ofConfig {} (Pcg.ofSeed 0))
    s.Reachable ∧ (∀ rule ∈ s.rules.recorded, rule.1 ≠ Atom.top) ∧
      ((s.solve true).1.isSome = true ↔
        ∃ i : Interpretation, i.IsModel s.formula ∧ i.SatisfiesAll s.assumptions) ∧
      ∀ m, (s.solve true).1 = some m →
        m.atomCount = s.atoms.count ∧ m.interpretation.IsModel s.formula ∧
          m.interpretation.SatisfiesAll s.assumptions := by
  intro s
  have hs : s.Reachable := (Reachable.start {} (Pcg.ofSeed 0)).moves _
  have htop : ∀ rule ∈ s.rules.recorded, rule.1 ≠ Atom.top := by decide
  exact ⟨hs, htop, hs.solve_correct htop true⟩

end Solver

end Storyworld
