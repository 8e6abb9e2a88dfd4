import Storyworld.Proofs.Solver.Checked
import Storyworld.Proofs.Solver.Held

namespace Storyworld

/-!
# No index is out of range

Values are looked up by index when what the constraints fix is found, when it is asked for, and in
each round of a search. Here are these operations with all their indices checked (`refresh?`,
`fixedValue?`, `round?`, `solve?`, `interrupted?`); the other moves use no index. Where a solver is
attained, each has something to show, and it is what the operation without checks leads to
(`Attained.in_range`).

That the tables fit is not the same from one operation to the next: a refresh makes them all anew
from the constraints (`recompute?_eq`), and a search relies on what the last refresh has made, which
an atom made since then would have turned stale (`WellFormed.refresh?_eq`, `advance?_eq`).
-/

namespace Solver

open Assignment

variable {ρ : Type}

/-! ### Operations with checked indices -/

/-- Propagates from the unit clauses. -/
def fix? (clauses : Clauses) (start : Assignment) : Option (Bool × Assignment) :=
  if clauses.containsEmpty then some (false, start)
  else do
    match ← assume? (units clauses) start with
    | (false, a) => some (false, a)
    | (true, a) =>
      match ← a.propagate? clauses with
      | (some _, a) => some (false, a)
      | (none, a) => some (true, a)

/-- Finds what the constraints fix, if there is top to start from. -/
def recompute? (s : Solver ρ) : Option (Solver ρ) :=
  if s.atoms.contains Atom.top then do
    let clauses ← (s.clauses.withCompletion s.rules.completion).reindex? s.atoms.count
    let (consistent, a) ← fix? clauses ⟨Valuation.blank s.atoms.count, {}⟩
    some { s with
      clauses
      work := ⟨a.valuation, {}⟩
      fixed := a.valuation
      status := if consistent then .consistent else .inconsistent }
  else none

def refresh? (s : Solver ρ) : Option (Solver ρ) :=
  match s.status with
  | .stale => s.recompute?
  | _ => some s

/-- The value that the constraints fix for an atom, if the atom is in the table of those. -/
def fixedValue? (a : Atom) (s : Solver ρ) :
    Option (EStateM.Result Error (Solver ρ) (Option Bool)) :=
  match s.checkKnown [Literal.pos a] with
  | .error e => some (.error e s)
  | .ok () => do
    let s ← s.refresh?
    if s.status = .inconsistent then some (.ok none s)
    else
      let b ← s.fixed[a]?
      some (.ok b s)

def begin? (s : Solver ρ) : Option (Bool × Solver ρ) := do
  let (possible, work) ← assume? s.assumptions ⟨s.fixed, {}⟩
  some (possible, { s with work })

def prepared? (s : Solver ρ) : Option (Solver ρ) :=
  ({ s with counters.solves := s.counters.solves + 1 } : Solver ρ).refresh?

variable [RandomSource ρ]

def round? (optimize : Bool) (s : Solver ρ) : Option (Progress × Solver ρ) := do
  let s := { s with counters.iterations := s.counters.iterations + 1 }
  match ← s.work.propagate? s.clauses with
  | (none, work) =>
    match decide? optimize { s with work } with
    | (none, s) => some (.found, s)
    | (some l, s) =>
      let work ← s.work.choose? l false
      some (.searching, { s with work })
  | (some _, work) =>
    let s := { s with counters.conflicts := s.counters.conflicts + 1 }
    match ← work.backtrack? with
    | (none, work) => some (.exhausted, { s with work })
    | (some l, work) =>
      let work ← work.choose? l true
      some (.searching, { s with work })

def rounds? (optimize : Bool) : Nat → Solver ρ → Option (Progress × Solver ρ)
  | 0, s => some (.searching, s)
  | n + 1, s => do
    match ← s.round? optimize with
    | (.searching, s) => rounds? optimize n s
    | (ended, s) => some (ended, s)

/-- A solve as far as it comes within some rounds, the number of which may depend on where it
begins. -/
def advance? (optimize : Bool) (limit : Solver ρ → Nat) (s : Solver ρ) :
    Option (Progress × Solver ρ) := do
  let s ← s.prepared?
  if s.status = .inconsistent then some (.exhausted, s)
  else
    match ← s.begin? with
    | (false, s) => some (.exhausted, s)
    | (true, s) => rounds? optimize (limit s) s

def solve? (optimize : Bool) (s : Solver ρ) : Option (Option Model × Solver ρ) := do
  match ← s.advance? optimize fun s => roundLimit s.work.valuation with
  | (.found, s) => some (some (Model.ofValuation s.work.valuation s.atoms.count), s)
  | (_, s) => some (none, s)

def interrupted? (optimize : Bool) (n : Nat) (s : Solver ρ) : Option (Solver ρ) := do
  match ← s.advance? optimize fun _ => n with
  | (.searching, s) => some { s with counters.iterations := s.counters.iterations + 1 }
  | (_, s) => some s

/-! ### What the constraints fix -/

variable {s : Solver ρ} {optimize : Bool} {n : Nat}

theorem fix?_eq {clauses : Clauses} {base : Valuation} (hindexed : clauses.Indexed base.size)
    (hbelow : Clause.Below base.size clauses.all) :
    fix? clauses ⟨base, {}⟩ = some (fix clauses ⟨base, {}⟩) := by
  have hassume := (inStep_empty base).assume (units_lt hbelow)
  have hassumed : assume? (units clauses) ⟨base, {}⟩ = some (assume (units clauses) ⟨base, {}⟩) :=
    assume?_eq (units_lt hbelow)
  unfold fix? fix
  split
  · rfl
  · rw [hassumed, Option.bind_eq_bind, Option.bind_some]
    cases ha : assume (units clauses) ⟨base, {}⟩ with
    | mk possible a =>
      cases possible with
      | false => rfl
      | true =>
        -- the unit clauses agree, so propagation goes on from a valuation of the same size
        rw [ha] at hassume
        have hpropagate := propagate?_eq hindexed hbelow hassume.size
        dsimp only at hpropagate ⊢
        rw [hpropagate, Option.bind_eq_bind, Option.bind_some]
        cases a.propagate clauses with
        | mk conflict b => cases conflict <;> rfl

omit [RandomSource ρ] in
theorem WellFormed.recompute?_eq (hs : s.WellFormed) : s.recompute? = some s.recompute := by
  let clauses := (s.clauses.withCompletion s.rules.completion).reindex s.atoms.count
  have hsize : (Valuation.blank s.atoms.count).size = s.atoms.count :=
    Valuation.size_blank hs.atoms.count_pos
  have htop : s.atoms.contains Atom.top = true := decide_eq_true hs.atoms.count_pos
  -- the tables are made for as many atoms as there are, and all clauses are over these
  have hreindex : (s.clauses.withCompletion s.rules.completion).reindex? s.atoms.count =
      some clauses := Clauses.reindex?_eq hs.below
  have hfix : fix? clauses ⟨Valuation.blank s.atoms.count, {}⟩ =
      some (fix clauses ⟨Valuation.blank s.atoms.count, {}⟩) := by
    apply fix?_eq
    · rw [hsize]
      exact Clauses.indexed_reindex _ _
    · rw [hsize]
      exact hs.below
  rw [recompute?, if_pos htop, hreindex, Option.bind_eq_bind, Option.bind_some, hfix]
  rfl

omit [RandomSource ρ] in
theorem WellFormed.refresh?_eq (hs : s.WellFormed) : s.refresh? = some s.refresh := by
  unfold refresh? Solver.refresh
  cases s.status with
  | stale => exact hs.recompute?_eq
  | consistent => rfl
  | inconsistent => rfl

omit [RandomSource ρ] in
theorem WellFormed.prepared?_eq (hs : s.WellFormed) : s.prepared? = some s.prepared :=
  (hs.continues ⟨_, s.work, s.source, rfl⟩).refresh?_eq

omit [RandomSource ρ] in
/-- An atom that is known is in the table of the values that the constraints fix. -/
theorem WellFormed.fixedValue?_eq (hs : s.WellFormed) (a : Atom) :
    s.fixedValue? a = some (s.fixedValue a) := by
  obtain ⟨hwf, hcurrent⟩ := hs.refresh
  obtain ⟨_, _, _, _, hframe, -⟩ := refresh_frame s
  have hatoms : s.refresh.atoms = s.atoms := by rw [hframe]
  unfold fixedValue? fixedValue
  cases hknown : s.checkKnown [Literal.pos a] with
  | error e => rfl
  | ok u =>
    -- the atom was looked at first, so it is below the count
    have hlt : a < s.refresh.fixed.size := by
      rw [hcurrent.size_fixed hwf, hatoms]
      exact checkKnown_eq_ok hknown (Literal.pos a) List.mem_cons_self
    have hvalue : s.refresh.fixed[a]? = some (s.refresh.fixed.value? a) := by
      rw [Valuation.value?, Array.getElem?_eq_getElem hlt]
      rfl
    dsimp only
    rw [hs.refresh?_eq, Option.bind_eq_bind, Option.bind_some, hvalue]
    split <;> rfl

/-! ### Searches -/

/-- A round looks at clauses by their keys and at atoms that are open or on the trail, and cuts the
trail where a decision is. -/
theorem round?_eq {base : Valuation} {candidate : Interpretation → Prop}
    (hspace : SearchSpace s.clauses base candidate) (h : InStep base s.work) :
    s.round? optimize = some (s.round optimize) := by
  have hstep := h.propagate hspace.indexed hspace.below
  have hpropagate := propagate?_eq hspace.indexed hspace.below h.size
  unfold round? round
  dsimp only
  rw [hpropagate, Option.bind_eq_bind, Option.bind_some]
  cases hb : s.work.propagate s.clauses with
  | mk conflict b =>
    rw [hb] at hstep
    cases conflict with
    | none =>
      dsimp only
      -- what is decided on is an open atom, so it is in range
      generalize hdecided : decide? (ρ := ρ) optimize _ = decided
      obtain ⟨l, t⟩ := decided
      cases l with
      | none => rfl
      | some l =>
        obtain ⟨hmem, counters, source, rfl⟩ := decide?_eq_some hdecided
        have hchoose : b.choose? l false = some (b.choose l false) :=
          choose?_eq (Valuation.mem_openAtoms.1 hmem).2.lt false
        dsimp only
        rw [hchoose]
        rfl
    | some key =>
      dsimp only
      rw [InStep.backtrack?_eq hstep hspace.top, Option.bind_eq_bind, Option.bind_some]
      cases hw : b.backtrack with
      | mk l w =>
        cases l with
        | none => rfl
        | some l =>
          -- the decision to be flipped was just undone, so its atom is open again
          have hopen := InStep.open_of_backtrack hstep hspace.top hw
          have hchoose : w.choose? l true = some (w.choose l true) := choose?_eq hopen.lt true
          dsimp only
          rw [hchoose]
          rfl

theorem rounds?_eq {base : Valuation} {candidate : Interpretation → Prop}
    (hspace : SearchSpace s.clauses base candidate) (h : InStep base s.work) :
    rounds? optimize n s = some (rounds optimize n s) := by
  induction n generalizing s with
  | zero => rfl
  | succ n ih =>
    unfold rounds? rounds
    rw [round?_eq hspace h, Option.bind_eq_bind, Option.bind_some]
    cases hround : s.round optimize with
    | mk progress t =>
      cases progress with
      | searching =>
        -- a round leaves trail and valuation in step for the next
        obtain ⟨hspace, hstep⟩ := searchSpace_round hspace h hround
        exact ih hspace hstep
      | found => rfl
      | exhausted => rfl

omit [RandomSource ρ] in
theorem WellFormed.begin?_eq (hs : s.WellFormed) (hcurrent : s.UpToDate) :
    s.begin? = some s.begin := by
  have hassume : assume? s.assumptions ⟨s.fixed, {}⟩ = some (assume s.assumptions ⟨s.fixed, {}⟩) :=
    assume?_eq fun l hl => by
      show l.atom < s.fixed.size
      rw [hcurrent.size_fixed hs]
      exact hs.assumptions l hl
  rw [begin?, hassume]
  rfl

/-- The rounds of a solve are those of a search in which everything is in range. -/
theorem WellFormed.advance?_eq (hs : s.WellFormed) (limit : Solver ρ → Nat) :
    s.advance? optimize limit = some (s.advance optimize (limit s.prepared.begin.2)) := by
  obtain ⟨hwf, hcurrent⟩ := hs.prepared
  -- the rounds start from what was just prepared, where the tables fit
  have hrounds : rounds? optimize (limit s.prepared.begin.2) s.prepared.begin.2 =
      some (rounds optimize (limit s.prepared.begin.2) s.prepared.begin.2) :=
    rounds?_eq (hwf.searchSpace_begin hcurrent) (hwf.inStep_begin hcurrent)
  unfold advance? advance
  rw [hs.prepared?_eq, Option.bind_eq_bind, Option.bind_some]
  dsimp only
  split
  · rfl
  · rw [hwf.begin?_eq hcurrent, Option.bind_eq_bind, Option.bind_some]
    cases hb : s.prepared.begin with
    | mk possible t =>
      rw [hb] at hrounds
      cases possible with
      | false => rfl
      | true => exact hrounds

theorem WellFormed.solve?_eq (hs : s.WellFormed) (optimize : Bool) :
    s.solve? optimize = some (s.solve optimize) := by
  rw [solve?, hs.advance?_eq, solve_eq_advance, Option.bind_eq_bind, Option.bind_some]
  cases s.advance optimize (roundLimit s.prepared.begin.2.work.valuation) with
  | mk progress t => cases progress <;> rfl

theorem WellFormed.interrupted?_eq (hs : s.WellFormed) (optimize : Bool) (n : Nat) :
    s.interrupted? optimize n = some (s.interrupted optimize n) := by
  rw [interrupted?, hs.advance?_eq, Solver.interrupted, Option.bind_eq_bind, Option.bind_some]
  cases s.advance optimize n with
  | mk progress t => cases progress <;> rfl

/-- **No operation indexes out of range.** However a solver has come about, by whatever moves, of
which some may have been refused, and by solves that were broken off: what it stores is in range; and
to ask for a fixed value, to solve, or to solve and be broken off leads with all indices checked
where it leads without. -/
theorem Attained.in_range (hs : s.Attained) :
    s.Ranged ∧ (∀ a, s.fixedValue? a = some (s.fixedValue a)) ∧
      (∀ optimize, s.solve? optimize = some (s.solve optimize)) ∧
      ∀ optimize n, s.interrupted? optimize n = some (s.interrupted optimize n) :=
  have hwf := hs.wellFormed
  ⟨hs.ranged, hwf.fixedValue?_eq, hwf.solve?_eq, hwf.interrupted?_eq⟩

/-- A solver that was broken off on its way back from a conflict, and has a rule and an atom that it
did not have then. -/
theorem in_range_broken_off :
    let s : Solver Pcg := [Move.freshAtom none, .freshAtom none, .freshAtom none,
      .addClause [Literal.pos 1, Literal.pos 2], .addClause [Literal.pos 1, Literal.neg 2],
      .force (Literal.pos 3)].foldl (fun s m => m.perform s) (ofConfig {} (Pcg.ofSeed 0))
    let t := [Move.addRule 3 [Literal.pos 1, Literal.pos 2], .addHead 9, .freshAtom none].foldl
      (fun s m => m.perform s) (s.interrupted true 2)
    t.Attained ∧ t.atoms.count = 6 ∧
      t.work.trail.toList = [Literal.pos 3, Literal.pos 1] ∧ t.Ranged ∧
      (∀ a, t.fixedValue? a = some (t.fixedValue a)) ∧
      (∀ optimize, t.solve? optimize = some (t.solve optimize)) ∧
      ∀ optimize n, t.interrupted? optimize n = some (t.interrupted optimize n) := by
  intro s t
  have hs : s.Attained := ((Reachable.start {} (Pcg.ofSeed 0)).moves _).attained
  have ht : t.Attained := (hs.interrupt true 2).moves _
  have hcount : t.atoms.count = 6 := by decide +kernel
  have htrail : t.work.trail.toList = [Literal.pos 3, Literal.pos 1] := by decide +kernel
  -- from here on it does not matter what the solvers are
  clear_value t s
  exact ⟨ht, hcount, htrail, ht.in_range⟩

end Solver

end Storyworld
