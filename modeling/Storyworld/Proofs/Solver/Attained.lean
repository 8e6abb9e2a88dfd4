import Storyworld.Proofs.Solver.Question
import Storyworld.Proofs.Solver.Termination

namespace Storyworld

/-!
# Solves under way, and solves broken off

A solve first brings up to date what the constraints fix (`prepared`), makes the assumptions and
then takes round after round. `advance` is a solve as far as it comes within some rounds, and
`Underway` says where it stands when it is to take another.

A solve that is given a time may have to stop there, and is refused then. Time is not modelled, so
the solve may be broken off before any round: `interrupted` is what it leaves behind. `Attained`
says that a solver comes from a new one by moves and by solves that were broken off, so it allows
for all that is allowed for by `Reachable`, and for what is left by every refusal. The solvers that
are attained are well formed too (`Attained.wellFormed`), as a search touches nothing that the
invariant speaks of. For other invariants the steps are named that all moves are put together from:
what is `Enduring` is kept by each of them, and holds of every solver that is attained. How a
solver was attained can be written down as a list of events (`Event`, `happen`).
-/

namespace Solver

open Action Assignment

variable {ρ : Type} {s t u : Solver ρ}

/-- The solver that a solve searches with: the solve is counted, and what the constraints fix is
known. -/
def prepared (s : Solver ρ) : Solver ρ :=
  ({ s with counters.solves := s.counters.solves + 1 } : Solver ρ).refresh

/-- A solve begins with a solver that is well formed and up to date. -/
theorem WellFormed.prepared (hs : s.WellFormed) : s.prepared.WellFormed ∧ s.prepared.UpToDate :=
  (hs.continues ⟨_, s.work, s.source, rfl⟩).refresh

/-- To prepare a solve changes what is known of the constraints, and not the constraints. -/
theorem prepared_frame (s : Solver ρ) :
    ∃ counters clauses work fixed status,
      s.prepared = { s with counters, clauses, work, fixed, status } ∧
        clauses.asserted = s.clauses.asserted := by
  obtain ⟨clauses, work, fixed, status, h, hasserted⟩ :=
    refresh_frame ({ s with counters.solves := s.counters.solves + 1 } : Solver ρ)
  exact ⟨_, clauses, work, fixed, status, h, hasserted⟩

/-- To make the assumptions changes the assignment only. -/
theorem begin_snd (s : Solver ρ) :
    s.begin.2 = { s with work := (assume s.assumptions ⟨s.fixed, {}⟩).2 } := rfl

theorem begin_continues (s : Solver ρ) : Continues s s.begin.2 := ⟨_, _, _, begin_snd s⟩

/-- Where a search begins, the trail is in step. -/
theorem WellFormed.inStep_begin (hs : s.WellFormed) (hcurrent : s.UpToDate) :
    InStep s.fixed s.begin.2.work := by
  rw [begin_snd]
  refine (inStep_empty s.fixed).assume ?_
  rw [hcurrent.size_fixed hs]
  exact hs.assumptions

/-- A search changes nothing of what it has to know. -/
theorem Continues.searchSpace (h : Continues s t) (hs : s.WellFormed) (hcurrent : s.UpToDate) :
    SearchSpace t.clauses t.fixed fun _ => False := by
  obtain ⟨counters, work, source, rfl⟩ := h
  exact UpToDate.searchSpace (s := s) hs hcurrent

/-- A search begins with its clauses in order, whether or not the assumptions can be made. -/
theorem WellFormed.searchSpace_begin (hs : s.WellFormed) (hcurrent : s.UpToDate) :
    SearchSpace s.begin.2.clauses s.fixed fun _ => False :=
  (begin_continues s).searchSpace hs hcurrent

variable [RandomSource ρ] {optimize : Bool} {n : Nat}

/-! ### A solve, round by round -/

/-- A round that goes on changes no clause, so the space is the one that was searched before. -/
theorem searchSpace_round {base : Valuation} {candidate : Interpretation → Prop}
    (hspace : SearchSpace s.clauses base candidate) (h : InStep base s.work)
    (hround : s.round optimize = (.searching, t)) :
    SearchSpace t.clauses base candidate ∧ InStep base t.work := by
  have hstep := (round_searching hspace h hround).1
  have hcont := round_continues optimize s
  rw [hround] at hcont
  obtain ⟨counters, work, source, rfl⟩ := hcont
  exact ⟨hspace, hstep⟩

/-- A solve as far as it comes within that many rounds: how it stands then, and the solver. -/
def advance (optimize : Bool) (n : Nat) (s : Solver ρ) : Progress × Solver ρ :=
  let s := s.prepared
  if s.status = .inconsistent then (.exhausted, s)
  else
    match s.begin with
    | (false, s) => (.exhausted, s)
    | (true, s) => rounds optimize n s

/-- A solve is as many rounds as there may be, and has found a model if they have. -/
theorem solve_eq_advance (optimize : Bool) (s : Solver ρ) :
    s.solve optimize =
      match s.advance optimize (roundLimit s.prepared.begin.2.work.valuation) with
      | (.found, t) => (some (Model.ofValuation t.work.valuation t.atoms.count), t)
      | (_, t) => (none, t) := by
  rw [solve_eq_search]
  show search optimize s.prepared = _
  unfold search advance
  dsimp only
  split
  · rfl
  · cases s.prepared.begin with
    | mk possible t => cases possible <;> rfl

/-- A solve leaves the solver that its last round has left. -/
theorem solve_snd (optimize : Bool) (s : Solver ρ) :
    (s.solve optimize).2 =
      (s.advance optimize (roundLimit s.prepared.begin.2.work.valuation)).2 := by
  rw [solve_eq_advance]
  cases s.advance optimize (roundLimit s.prepared.begin.2.work.valuation) with
  | mk progress t => cases progress <;> rfl

/-- What holds where a solve has been prepared, where it has begun and after rounds holds wherever
it stands. -/
theorem advance_induction {P : Solver ρ → Prop} (hprepared : P s.prepared)
    (hbegin : P s.prepared.begin.2) (hrounds : P (rounds optimize n s.prepared.begin.2).2) :
    P (s.advance optimize n).2 := by
  unfold advance
  dsimp only
  split
  · exact hprepared
  · split
    · rename_i t ht
      rwa [ht] at hbegin
    · rename_i t ht
      rwa [ht] at hrounds

/-- Wherever a solve stands, it has changed only what is its own. -/
theorem advance_continues (optimize : Bool) (n : Nat) (s : Solver ρ) :
    Continues s.prepared (s.advance optimize n).2 := by
  have hbegin := begin_continues s.prepared
  exact advance_induction (P := fun t => Continues s.prepared t) (Continues.refl _) hbegin
    (hbegin.trans (rounds_continues optimize n s.prepared.begin.2))

/-- One round more is one round after the others. -/
theorem rounds_succ_eq_searching_iff :
    rounds optimize (n + 1) s = (.searching, u) ↔
      ∃ t, rounds optimize n s = (.searching, t) ∧ t.round optimize = (.searching, u) := by
  induction n generalizing s with
  | zero =>
    have hone : rounds optimize 1 s = s.round optimize := by
      unfold rounds
      cases s.round optimize with
      | mk progress t => cases progress <;> rfl
    rw [hone]
    constructor
    · exact fun h => ⟨s, rfl, h⟩
    · intro h
      obtain ⟨t, ht, h⟩ := h
      cases ht
      exact h
  | succ n ih =>
    -- the first round is the same on both sides, and the induction is on those that follow
    rw [rounds, rounds]
    cases s.round optimize with
    | mk progress t =>
      cases progress with
      | searching => exact ih
      | found => simp
      | exhausted => simp

/-- A solve begun in `s` stands at `t` when it has taken that many rounds and is to take
another. -/
def Underway (optimize : Bool) (s : Solver ρ) (n : Nat) (t : Solver ρ) : Prop :=
  s.advance optimize n = (.searching, t)

/-- Before the first round the assumptions have been made. -/
theorem underway_zero (h : Underway optimize s 0 t) : t = s.prepared.begin.2 := by
  unfold Underway advance at h
  dsimp only at h
  split at h
  · cases h
  · split at h
    · cases h
    · rename_i u hu
      rw [hu]
      exact (Prod.mk.inj h).2.symm

/-- Where a solve stands after a round, it has come to by that round. -/
theorem underway_succ_iff :
    Underway optimize s (n + 1) u ↔
      ∃ t, Underway optimize s n t ∧ t.round optimize = (.searching, u) := by
  unfold Underway advance
  dsimp only
  split
  · simp
  · split
    · simp
    · exact rounds_succ_eq_searching_iff

/-- A solve under way has changed only what is its own. -/
theorem Underway.continues (h : Underway optimize s n t) : Continues s.prepared t := by
  have hcont := advance_continues optimize n s
  rwa [show s.advance optimize n = (.searching, t) from h] at hcont

/-- A solve under way still has its clauses in order. -/
theorem Underway.searchSpace (h : Underway optimize s n t) (hs : s.WellFormed) :
    SearchSpace t.clauses t.fixed fun _ => False :=
  h.continues.searchSpace hs.prepared.1 hs.prepared.2

/-! ### Solves that are broken off -/

/-- What is left of a solve that is broken off when that many rounds have not ended it. The round
that was to come is counted. -/
def interrupted (optimize : Bool) (n : Nat) (s : Solver ρ) : Solver ρ :=
  match s.advance optimize n with
  | (.searching, s) => { s with counters.iterations := s.counters.iterations + 1 }
  | (_, s) => s

/-- A solve that is broken off leaves what it had come to, but for the counters. -/
theorem interrupted_eq (optimize : Bool) (n : Nat) (s : Solver ρ) :
    ∃ counters, s.interrupted optimize n = { (s.advance optimize n).2 with counters } := by
  unfold interrupted
  cases s.advance optimize n with
  | mk progress t => cases progress <;> exact ⟨_, rfl⟩

/-- A solve that is broken off has changed only what is its own. -/
theorem interrupted_continues (optimize : Bool) (n : Nat) (s : Solver ρ) :
    Continues s.prepared (s.interrupted optimize n) := by
  obtain ⟨counters, h⟩ := interrupted_eq optimize n s
  exact (advance_continues optimize n s).trans ⟨counters, _, _, h⟩

/-- What the constraints fix is brought up to date, and all else that changes is the search's
own. -/
theorem interrupted_frame (optimize : Bool) (n : Nat) (s : Solver ρ) :
    ∃ counters clauses work fixed status source,
      s.interrupted optimize n = { s with counters, clauses, work, fixed, status, source } ∧
        clauses.asserted = s.clauses.asserted := by
  obtain ⟨_, clauses, _, fixed, status, hprepared, hasserted⟩ := prepared_frame s
  obtain ⟨counters, work, source, h⟩ := interrupted_continues optimize n s
  rw [hprepared] at h
  exact ⟨counters, clauses, work, fixed, status, source, h, hasserted⟩

/-- A solve that is broken off leaves the constraints as they were, as one that ends does. -/
theorem sameConstraints_interrupted (optimize : Bool) (n : Nat) (s : Solver ρ) :
    SameConstraints s (s.interrupted optimize n) := by
  obtain ⟨_, _, _, _, _, _, h, hasserted⟩ := interrupted_frame optimize n s
  rw [h]
  exact ⟨rfl, rfl, hasserted⟩

/-- The solver comes from a new one by moves, and by solves that were broken off. -/
inductive Attained : Solver ρ → Prop where
  | start (config : Config) (source : ρ) : Attained (ofConfig config source)
  | move {s : Solver ρ} (hs : Attained s) (m : Move) : Attained (m.perform s)
  | interrupt {s : Solver ρ} (hs : Attained s) (optimize : Bool) (n : Nat) :
    Attained (s.interrupted optimize n)

/-- What can be reached by moves can be attained. -/
theorem Reachable.attained (hs : s.Reachable) : s.Attained := by
  induction hs with
  | start config source => exact .start config source
  | move hs m ih => exact ih.move m

/-- Several moves in a row lead from a solver that is attained to one that is. -/
theorem Attained.moves (hs : s.Attained) (ms : List Move) :
    (ms.foldl (fun s m => m.perform s) s).Attained := by
  induction ms generalizing s with
  | nil => exact hs
  | cons m ms ih => exact ih (hs.move m)

/-- What can be done with a solver: a move, or a solve that is broken off. -/
inductive Event where
  | move (m : Move)
  | interrupt (optimize : Bool) (n : Nat)

/-- The move that an event is. A solve that is broken off is none, as it gives no answer. -/
def Event.move? : Event → Option Move
  | .move m => some m
  | .interrupt _ _ => none

/-- The solver after an event. -/
def Event.perform : Event → Solver ρ → Solver ρ
  | .move m, s => m.perform s
  | .interrupt optimize n, s => s.interrupted optimize n

/-- The solver after some events. -/
def happen (es : List Event) (s : Solver ρ) : Solver ρ := es.foldl (fun s e => e.perform s) s

/-- What is attained by some events is attained. -/
theorem Attained.happen (hs : s.Attained) (es : List Event) : (happen es s).Attained := by
  induction es generalizing s with
  | nil => exact hs
  | cons e es ih =>
    cases e with
    | move m => exact ih (hs.move m)
    | interrupt optimize n => exact ih (hs.interrupt optimize n)

/-- **Every solver that is attained is well formed.** -/
theorem Attained.wellFormed (hs : s.Attained) : s.WellFormed := by
  induction hs with
  | start config source => exact wellFormed_ofConfig config source
  | move hs m ih => exact (ih.grown.perform m).1
  | interrupt hs optimize n ih =>
    exact ih.prepared.1.continues (interrupted_continues optimize n _)

/-! ### What endures

All that is done with a solver is put together from a few steps. What each of them keeps holds of
every solver that is attained. -/

/-- Kept by the steps that operations on a solver are put together from. -/
structure Enduring (P : Solver ρ → Prop) : Prop where
  makeAtom : ∀ s name, P s → P (s.makeAtom name).2.invalidate
  store : ∀ s c, P s → P (s.store c).2
  note : ∀ (s : Solver ρ) counters rules assumptions status,
    P s → P { s with counters, rules, assumptions, status }
  reset : ∀ s, P s → P s.reset
  refresh : ∀ s, s.WellFormed → P s → P s.refresh
  advance : ∀ s optimize n, s.WellFormed → P s → P (s.advance optimize n).2

namespace Enduring

variable {P : Solver ρ → Prop}

/-- A support may be made with an atom, its clauses and a note of the body. -/
theorem support (h : Enduring P) (hs : P s) (body : Clause) : P (s.support body).2 := by
  have hstoreAll : ∀ (cs : List Clause) (t : Solver ρ), P t → P (storeAll cs t) := by
    intro cs
    induction cs with
    | nil => exact fun _ ht => ht
    | cons c cs ih => exact fun t ht => ih _ (h.store t c ht)
  rcases support_cases body s with ⟨l, -, he⟩ | ⟨a, -, he⟩ | ⟨-, he⟩
  · rwa [he]
  · rwa [he]
  · rw [he]
    exact h.note _ _ _ _ _ (hstoreAll _ _ (h.makeAtom s none hs))

/-- A rule may be stored with its support, a clause and a note of the rule. -/
theorem storeRule (h : Enduring P) (hs : P s) (head : Atom) (body : Clause) :
    P (s.storeRule head body).2 := by
  rcases storeRule_cases head body s with ⟨-, he⟩ | ⟨-, he⟩ | ⟨-, -, he⟩
  · rwa [he]
  · rwa [he]
  · rw [he]
    exact h.note _ _ _ _ _ (h.store _ _ (h.support hs body.canonical))

/-- A clause is stored, or refused before anything is changed. -/
theorem preserves_addClause (h : Enduring P) (c : Clause) : Preserves P (addClause c) := by
  intro s hs
  refine (after_addClause c s).mono (fun stored t hstored => ?_) fun _ _ hsame => hsame.1 ▸ hs
  obtain rfl : t = (s.store c).2 := congrArg Prod.snd hstored.2
  exact h.store s c hs

/-- A rule is stored, or refused before anything is changed. -/
theorem preserves_addRule (h : Enduring P) (head : Atom) (body : Clause) :
    Preserves P (addRule head body) := by
  intro s hs
  refine (after_addRule head body s).mono (fun stored t hstored => ?_) fun _ _ hsame => hsame.1 ▸ hs
  obtain rfl : t = (s.storeRule head body).2 := congrArg Prod.snd hstored.2.2.2
  exact h.storeRule hs head body

/-- A head is noted, or refused before anything is changed. -/
theorem preserves_addHead (h : Enduring P) (head : Atom) : Preserves P (addHead head) := by
  intro s hs
  refine (after_addHead head s).mono (fun _ t hdeclared => ?_) fun _ _ hsame => hsame.1 ▸ hs
  rw [hdeclared.2]
  exact h.note s s.counters _ s.assumptions _ hs

/-- An assumption is noted, or refused before anything is changed. -/
theorem preserves_force (h : Enduring P) (l : Literal) : Preserves P (force l) := by
  intro s hs
  refine (after_force l s).mono (fun _ t hforced => ?_) fun _ _ hsame => hsame.1 ▸ hs
  rw [hforced.2]
  exact h.note s s.counters s.rules _ s.status hs

/-- Every move is put together from the steps, so what they keep is kept by it. -/
theorem perform (h : Enduring P) (hwf : s.WellFormed) (hs : P s) (m : Move) : P (m.perform s) := by
  cases m with
  | freshAtom name =>
    cases name with
    | none => exact h.makeAtom s none hs
    | some p =>
      show P (s.proposition p).2
      unfold proposition
      split
      · exact hs
      · exact h.makeAtom s (some p) hs
  | addClause c => exact (h.preserves_addClause c).stateAfter hs
  | addRule head body => exact (h.preserves_addRule head body).stateAfter hs
  | addHead head => exact (h.preserves_addHead head).stateAfter hs
  | addAtMost bound ls =>
    -- a bound makes its registers and stores clauses about them
    have hbound : Preserves P (addAtMost bound ls) :=
      preserves_addAtMost_of (fun s hs => h.makeAtom s none hs) h.preserves_addClause bound ls
    exact hbound.stateAfter hs
  | force l => exact (h.preserves_force l).stateAfter hs
  | reset => exact h.reset s hs
  | fixedValue a =>
    refine ((after_fixedValue a s).mono (fun _ t hasked => ?_) fun _ t hsame => ?_).stateAfter
    · rw [hasked.2.1]
      exact h.refresh s hwf hs
    · rw [hsame.1]
      exact hs
  | solve optimize =>
    show P (s.solve optimize).2
    rw [solve_snd]
    exact h.advance s optimize _ hwf hs

/-- **What endures holds of every solver that is attained.** -/
theorem attained (h : Enduring P) (hstart : ∀ config source, P (ofConfig config source))
    (hs : s.Attained) : P s := by
  induction hs with
  | start config source => exact hstart config source
  | move hs m ih => exact h.perform hs.wellFormed ih m
  | @interrupt s hs optimize n ih =>
    obtain ⟨counters, he⟩ := interrupted_eq optimize n s
    rw [he]
    exact h.note _ counters _ _ _ (h.advance s optimize n hs.wellFormed ih)

end Enduring

end Solver

end Storyworld
