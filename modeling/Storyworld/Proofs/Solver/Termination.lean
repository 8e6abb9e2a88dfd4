import Storyworld.Proofs.Solver.Reordering

namespace Storyworld

/-!
# A solve ends

The loops of a solve have bounds: propagation takes as many steps as there are literals that
can still be reached, and a search as many rounds as `roundLimit` says. When a bound is used up,
the loop stops as if there were nothing left to do. Here are the same loops without that:
`propagateUpTo` draws consequences until nothing waits, `roundsUpTo` goes on until a round ends the
search, and `solveUpTo` is a solve made of the two. They have nothing to show where a loop takes more
steps than it may, and a loop that would never end has nothing to show for any number of steps.

* Each step along the trail lowers the reach of the assignment by one, and a forced literal
  leaves it as it is, so propagation ends (`InStep.ends_propagateUpTo`).
* Each round that does not end the search lowers its budget (`round_searching`), so the search
  ends too, within its budget (`ends_roundsUpTo`).
* A search begins with nothing decided, when the budget is `2 ^ (n + 1) - 1` for `n` open atoms,
  so a solve ends, with the answer it has within the bounds (`Reachable.solve_ends`).

Nothing is asked of the clauses but that their atoms are known and their index is right, and
nothing at all of the random draws.
-/

namespace Assignment

open Action

/-- Draws consequences until nothing waits, or stops at a clause that is false, in up to `n`
steps. -/
def propagateUpTo (clauses : Clauses) : Nat → Assignment → Option (Option ClauseKey × Assignment)
  | 0, _ => none
  | n + 1, a =>
    match a.trail.next? with
    | none => some (none, a)
    | some (l, trail) =>
      match visit clauses (clauses.occurrencesOf l.negate) { a with trail } with
      | (some key, a) => some (some key, a)
      | (none, a) => propagateUpTo clauses n a

variable {clauses : Clauses} {base : Valuation} {a : Assignment}

/-- One more step than the assignment has reach is enough, and the bound is not met then. -/
theorem InStep.propagateUpTo_eq (h : InStep base a) (hindexed : clauses.Indexed base.size)
    (hbelow : Clause.Below base.size clauses.all) {n m : Nat} (hn : a.reach ≤ n) (hm : n < m) :
    propagateUpTo clauses m a = some (propagateWithin clauses n a) := by
  obtain ⟨m, rfl⟩ : ∃ k, m = k + 1 := ⟨m - 1, by omega⟩
  induction n generalizing a m with
  | zero =>
    -- where nothing can be reached nothing waits, so the loop without a bound stops as well
    have hwait : a.trail.waiting = [] := by
      have hlen := Trail.length_waiting a.trail
      rw [reach] at hn
      exact List.length_eq_zero_iff.1 (by omega)
    rw [propagateUpTo, Trail.next?_eq_none_iff.2 hwait]
    rfl
  | succ n ih =>
    rw [propagateUpTo, propagateWithin]
    cases ht : a.trail.next? with
    | none => rfl
    | some next =>
      obtain ⟨l, t⟩ := next
      have hkeys : ∀ key ∈ clauses.occurrencesOf l.negate, clauses.get key ∈ clauses.all :=
        fun key hkey => hindexed.mem_all hkey
      have hvisit := (h.dequeue ht).reach_visit hbelow hkeys
      -- one literal leaves the queue, and what the visit forces it puts there from what was open
      have hdequeue := reach_dequeue ht
      dsimp only
      cases hb : visit clauses (clauses.occurrencesOf l.negate) { a with trail := t } with
      | mk conflict b =>
        cases conflict with
        | some key => rfl
        | none =>
          rw [hb] at hvisit
          obtain ⟨hstep, hreach⟩ := hvisit
          dsimp only at hstep hreach ⊢
          obtain ⟨m, rfl⟩ : ∃ k, m = k + 1 := ⟨m - 1, by omega⟩
          exact ih hstep (by omega) m (by omega)

/-- **Propagation ends by itself.** -/
theorem InStep.ends_propagateUpTo (h : InStep base a) (hindexed : clauses.Indexed base.size)
    (hbelow : Clause.Below base.size clauses.all) :
    Ends (fun n => a.propagateUpTo clauses n) (a.propagate clauses) :=
  ⟨a.reach + 1, fun _ hn => h.propagateUpTo_eq hindexed hbelow (Nat.le_refl a.reach) hn⟩

end Assignment

namespace Solver

open Action Assignment

variable {ρ : Type}

/-! ### The loops without a bound -/

/-- Propagates from the unit clauses until nothing waits. -/
def fixUpTo (clauses : Clauses) (n : Nat) (start : Assignment) : Option (Bool × Assignment) :=
  if clauses.containsEmpty then some (false, start)
  else
    match assume (units clauses) start with
    | (false, a) => some (false, a)
    | (true, a) => do
      match ← a.propagateUpTo clauses n with
      | (some _, a) => some (false, a)
      | (none, a) => some (true, a)

/-- Finds what the constraints fix. -/
def recomputeUpTo (n : Nat) (s : Solver ρ) : Option (Solver ρ) := do
  let clauses := (s.clauses.withCompletion s.rules.completion).reindex s.atoms.count
  let (consistent, a) ← fixUpTo clauses n ⟨Valuation.blank s.atoms.count, {}⟩
  some { s with
    clauses
    work := ⟨a.valuation, {}⟩
    fixed := a.valuation
    status := if consistent then .consistent else .inconsistent }

/-- Brings the fixed valuation up to date. -/
def refreshUpTo (n : Nat) (s : Solver ρ) : Option (Solver ρ) :=
  match s.status with
  | .stale => s.recomputeUpTo n
  | _ => some s

variable [RandomSource ρ]

/-- One round, in which consequences are drawn until nothing waits. -/
def roundUpTo (optimize : Bool) (n : Nat) (s : Solver ρ) : Option (Progress × Solver ρ) := do
  let s := { s with counters.iterations := s.counters.iterations + 1 }
  match ← s.work.propagateUpTo s.clauses n with
  | (none, work) =>
    match decide? optimize { s with work } with
    | (none, s) => some (.found, s)
    | (some l, s) => some (.searching, { s with work := s.work.choose l false })
  | (some _, work) =>
    let s := { s with counters.conflicts := s.counters.conflicts + 1 }
    match work.backtrack with
    | (none, work) => some (.exhausted, { s with work })
    | (some l, work) => some (.searching, { s with work := work.choose l true })

/-- Rounds until one ends the search, up to `n` of them. -/
def roundsUpTo (optimize : Bool) : Nat → Solver ρ → Option (Progress × Solver ρ)
  | 0, _ => none
  | n + 1, s => do
    match ← s.roundUpTo optimize n with
    | (.searching, s) => roundsUpTo optimize n s
    | (ended, s) => some (ended, s)

/-- The search for a model. -/
def searchUpTo (optimize : Bool) (n : Nat) (s : Solver ρ) : Option (Option Model × Solver ρ) :=
  if s.status = .inconsistent then some (none, s)
  else
    match s.begin with
    | (false, s) => some (none, s)
    | (true, s) => do
      match ← roundsUpTo optimize n s with
      | (.found, s) => some (some (Model.ofValuation s.work.valuation s.atoms.count), s)
      | (_, s) => some (none, s)

/-- A solve in which no loop takes more than `n` steps, and which has nothing to show if one would
take more. -/
def solveUpTo (optimize : Bool) (n : Nat) (s : Solver ρ) : Option (Option Model × Solver ρ) := do
  let s ← { s with counters.solves := s.counters.solves + 1 }.refreshUpTo n
  s.searchUpTo optimize n

/-! ### What the constraints fix is found -/

section Fix

variable {clauses : Clauses} {base : Valuation}

theorem ends_fixUpTo (hindexed : clauses.Indexed base.size)
    (hbelow : Clause.Below base.size clauses.all) :
    Ends (fun n => fixUpTo clauses n ⟨base, {}⟩) (fix clauses ⟨base, {}⟩) := by
  have hassume := (inStep_empty base).assume (units_lt hbelow)
  unfold fixUpTo fix
  split
  · exact ends_of_forall fun _ => rfl
  · cases ha : assume (units clauses) ⟨base, {}⟩ with
    | mk possible a =>
      cases possible with
      | false => exact ends_of_forall fun _ => rfl
      | true =>
        rw [ha] at hassume
        -- the one loop in here is propagation
        refine (hassume.ends_propagateUpTo hindexed hbelow).bind (ends_of_forall fun _ => ?_)
        dsimp only
        cases a.propagate clauses with
        | mk conflict b => cases conflict <;> rfl

end Fix

variable {s : Solver ρ}

omit [RandomSource ρ] in
theorem WellFormed.ends_refreshUpTo (hs : s.WellFormed) :
    Ends (fun n => s.refreshUpTo n) s.refresh := by
  cases hstatus : s.status with
  | consistent =>
    exact ends_of_forall fun n => by rw [refreshUpTo, Solver.refresh, hstatus]
  | inconsistent =>
    exact ends_of_forall fun n => by rw [refreshUpTo, Solver.refresh, hstatus]
  | stale =>
    let clauses := (s.clauses.withCompletion s.rules.completion).reindex s.atoms.count
    have hall : clauses.all = s.formula := rfl
    have hsize := Valuation.size_blank hs.atoms.count_pos
    -- the clauses are indexed anew, over the atoms there are now
    have hfix : Ends (fun n => fixUpTo clauses n ⟨Valuation.blank s.atoms.count, {}⟩)
        (fix clauses ⟨Valuation.blank s.atoms.count, {}⟩) := by
      apply ends_fixUpTo
      · rw [hsize]
        exact Clauses.indexed_reindex _ _
      · rw [hsize, hall]
        exact hs.below
    unfold refreshUpTo Solver.refresh
    rw [hstatus]
    exact hfix.bind (ends_of_forall fun _ => rfl)

/-! ### The search ends -/

theorem decide?_iterations (optimize : Bool) (s : Solver ρ) :
    (decide? optimize s).2.counters.iterations = s.counters.iterations := by
  obtain ⟨source, hopen⟩ := openAtom?_snd s
  unfold decide?
  split
  · rename_i t ht
    rw [ht] at hopen
    rw [show t = _ from hopen]
  · rename_i x t ht
    rw [ht] at hopen
    -- drawing the polarity changes the source only
    obtain ⟨source', hpolarity⟩ := polarity_snd optimize
      ({ t with counters.decisions := t.counters.decisions + 1 } : Solver ρ)
    dsimp only
    rw [hpolarity, show t = _ from hopen]

/-- A round counts as one. -/
theorem round_iterations (optimize : Bool) (s : Solver ρ) :
    (s.round optimize).2.counters.iterations = s.counters.iterations + 1 := by
  unfold round
  dsimp only
  split
  · rename_i b hb
    -- the round is counted before anything is decided
    have hdecide := decide?_iterations optimize
      ({ s with work := b, counters.iterations := s.counters.iterations + 1 } : Solver ρ)
    split
    · rename_i t ht
      rwa [ht] at hdecide
    · rename_i l t ht
      rwa [ht] at hdecide
  · split <;> rfl

/-- No more iterations are counted than there are rounds. -/
theorem rounds_iterations (optimize : Bool) (n : Nat) (s : Solver ρ) :
    (rounds optimize n s).2.counters.iterations ≤ s.counters.iterations + n := by
  induction n generalizing s with
  | zero => exact Nat.le_refl _
  | succ n ih =>
    have hround := round_iterations optimize s
    unfold rounds
    split
    · rename_i t ht
      rw [ht] at hround
      have hrest := ih t
      dsimp only at hround
      omega
    · rename_i ended t hne ht
      rw [ht] at hround
      dsimp only at hround ⊢
      omega

variable {base : Valuation} {candidate : Interpretation → Prop}

/-- A round ends, since propagation does. -/
theorem ends_roundUpTo (optimize : Bool) (hspace : SearchSpace s.clauses base candidate)
    (h : InStep base s.work) : Ends (fun n => s.roundUpTo optimize n) (s.round optimize) := by
  unfold roundUpTo round
  -- what a round does after propagation takes no loop
  refine (h.ends_propagateUpTo hspace.indexed hspace.below).bind (ends_of_forall fun _ => ?_)
  dsimp only
  cases propagate s.clauses s.work with
  | mk conflict work =>
    cases conflict with
    | none =>
      dsimp only
      generalize decide? (ρ := ρ) optimize _ = decided
      obtain ⟨l, t⟩ := decided
      cases l <;> rfl
    | some key =>
      dsimp only
      cases work.backtrack with
      | mk l back => cases l <;> rfl

/-- **A search ends by itself**, in no more rounds than its budget has. -/
theorem ends_roundsUpTo (optimize : Bool) {n : Nat}
    (hspace : SearchSpace s.clauses base candidate) (h : InStep base s.work)
    (hn : budget base.openCount s.work ≤ n) :
    Ends (fun m => roundsUpTo optimize m s) (rounds optimize n s) := by
  induction n generalizing s with
  | zero =>
    -- a budget is never empty
    have := budget_pos base.openCount s.work
    omega
  | succ n ih =>
    have hcont := round_continues optimize s
    refine Ends.of_succ ((ends_roundUpTo optimize hspace h).bind ?_)
    rw [rounds]
    cases hround : s.round optimize with
    | mk progress t =>
      cases progress with
      | searching =>
        obtain ⟨hstep, hlt⟩ := round_searching hspace h hround
        rw [hround] at hcont
        -- the round has changed no clause, so the space is the one that was searched before
        obtain ⟨counters, work, source, rfl⟩ := hcont
        exact ih (s := { s with counters, work, source }) hspace hstep (by omega)
      | found => exact ends_of_forall fun _ => rfl
      | exhausted => exact ends_of_forall fun _ => rfl

/-! ### A solve ends -/

omit [RandomSource ρ] in
/-- The space of a search, whatever it looks for. -/
theorem UpToDate.searchSpace (hs : s.WellFormed) (hcurrent : s.UpToDate) :
    SearchSpace s.clauses s.fixed fun _ => False where
  indexed := by
    rw [hcurrent.size_fixed hs]
    exact hcurrent.indexed
  below := by
    rw [hcurrent.size_fixed hs, hcurrent.all_eq]
    exact hs.below
  top := hcurrent.not_open_top hs
  isTrue := nofun
  agrees := nofun

/-- What the rounds of a search are, once the assumptions have been made. -/
theorem WellFormed.ends_roundsUpTo (hs : s.WellFormed) (hcurrent : s.UpToDate) (optimize : Bool)
    {a : Assignment} (ha : assume s.assumptions ⟨s.fixed, {}⟩ = (true, a)) :
    Ends (fun n => roundsUpTo optimize n { s with work := a })
      (rounds optimize (roundLimit a.valuation) { s with work := a }) := by
  have hin : ∀ l ∈ s.assumptions, l.atom < s.fixed.size := by
    rw [hcurrent.size_fixed hs]
    exact hs.assumptions
  have hstep := (inStep_empty s.fixed).assume hin
  have hds := decisions_assume s.assumptions ⟨s.fixed, {}⟩
  rw [ha] at hstep hds
  have hspace : SearchSpace s.clauses s.fixed fun _ => False := hcurrent.searchSpace hs
  exact Solver.ends_roundsUpTo (s := { s with work := a }) optimize hspace hstep
    (Nat.le_of_eq (budget_of_undecided hstep hds))

/-- A search ends. -/
theorem WellFormed.ends_searchUpTo (hs : s.WellFormed) (hcurrent : s.UpToDate)
    (optimize : Bool) : Ends (fun n => s.searchUpTo optimize n) (search optimize s) := by
  unfold searchUpTo search begin
  split
  · exact ends_of_forall fun _ => rfl
  · cases ha : assume s.assumptions ⟨s.fixed, {}⟩ with
    | mk possible a =>
      cases possible with
      | false => exact ends_of_forall fun _ => rfl
      | true =>
        -- the rounds end, and what is left is to read off the model
        refine (hs.ends_roundsUpTo hcurrent optimize ha).bind (ends_of_forall fun _ => ?_)
        dsimp only
        cases rounds optimize (roundLimit a.valuation) { s with work := a } with
        | mk progress t => cases progress <;> rfl

theorem search_iterations (optimize : Bool) (s : Solver ρ) :
    (search optimize s).2.counters.iterations ≤
      s.counters.iterations + roundLimit s.begin.2.work.valuation := by
  unfold search begin
  split
  · exact Nat.le_add_right _ _
  · cases assume s.assumptions ⟨s.fixed, {}⟩ with
    | mk possible a =>
      cases possible with
      | false => exact Nat.le_add_right _ _
      | true =>
        -- only rounds count iterations
        have hrounds :=
          rounds_iterations optimize (roundLimit a.valuation) { s with work := a }
        dsimp only at hrounds ⊢
        cases hr : rounds optimize (roundLimit a.valuation) { s with work := a } with
        | mk progress t =>
          rw [hr] at hrounds
          cases progress <;> exact hrounds

/-- The values that a search begins with: those that the constraints fix, and those of the
assumptions. -/
def assumed (s : Solver ρ) : Valuation := s.refresh.begin.2.work.valuation

/-- **A solve ends.** Whatever the clauses, the rules and the assumptions are that a solver has
come by, and however its source draws, the search and every propagation in it end by themselves,
with the answer that the solve has within its bounds. The search takes at most `2 ^ (n + 1) - 1`
rounds, where `n` atoms have no value once the assumptions have theirs. -/
theorem Reachable.solve_ends (hs : s.Reachable) (optimize : Bool) :
    Ends (fun n => s.solveUpTo optimize n) (s.solve optimize) ∧
      (s.solve optimize).2.counters.iterations ≤
        s.counters.iterations + (Nat.pow 2 (s.assumed.openCount + 1) - 1) := by
  -- to count the solve first changes nothing that the refresh depends on
  let counters := { s.counters with solves := s.counters.solves + 1 }
  have hcounted : ({ s with counters } : Solver ρ).WellFormed :=
    hs.wellFormed.continues ⟨counters, s.work, s.source, rfl⟩
  constructor
  · rw [solve_eq_search]
    exact hcounted.ends_refreshUpTo.bind
      (hcounted.refresh.1.ends_searchUpTo hcounted.refresh.2 optimize)
  · have hsearch := search_iterations optimize ({ s with counters } : Solver ρ).refresh
    have hbegin : ({ s with counters } : Solver ρ).refresh.begin.2.work.valuation = s.assumed := by
      rw [refresh_counters]
      rfl
    have hspent : ({ s with counters } : Solver ρ).refresh.counters.iterations =
        s.counters.iterations := by
      rw [refresh_counters]
    rwa [hbegin, hspent] at hsearch

/-- Two clauses that refute the first decision, next to an atom that is assumed. -/
theorem solve_ends_backtracking :
    let s : Solver Pcg := [Move.freshAtom none, .freshAtom none, .freshAtom none,
      .addClause [Literal.pos 1, Literal.pos 2], .addClause [Literal.pos 1, Literal.neg 2],
      .force (Literal.pos 3)].foldl (fun s m => m.perform s) (ofConfig {} (Pcg.ofSeed 0))
    s.Reachable ∧ s.assumed.openCount = 2 ∧ (s.solve true).2.counters.conflicts = 1 ∧
      Ends (fun n => s.solveUpTo true n) (s.solve true) ∧
      (s.solve true).2.counters.iterations ≤
        s.counters.iterations + (Nat.pow 2 (s.assumed.openCount + 1) - 1) := by
  intro s
  have hs : s.Reachable := (Reachable.start {} (Pcg.ofSeed 0)).moves _
  exact ⟨hs, by decide +kernel, by decide +kernel, hs.solve_ends true⟩

end Solver

end Storyworld
