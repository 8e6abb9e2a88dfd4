import Storyworld.Proofs.Random.Draws
import Storyworld.Proofs.Solver.Search
import Storyworld.Solver.Search

namespace Storyworld

/-!
# Rounds of a search

A round draws the consequences of what is assigned and then decides an open atom, goes
back from a conflict, or ends. Here the moves of a search are put together: what a round
can do is said by `Outcome`, and as each round that does not end the search lowers its
budget, the rounds it is given are enough for it to end (`rounds_spec`). When it ends,
every atom has a value and no clause is false, or there is no candidate at all.
-/

namespace Solver

open Assignment

variable {ρ : Type} [RandomSource ρ] {candidate : Interpretation → Prop}

/-! ### Decisions -/

/-- The atom that is picked is open. -/
theorem mem_of_openAtom? {s : Solver ρ} {x : Atom} (h : (openAtom? s).1 = some x) :
    x ∈ s.work.valuation.openAtoms := by
  unfold openAtom? at h
  dsimp only at h
  split at h
  · exact RandomSource.mem_of_pick h
  · exact List.mem_of_mem_head? (Option.mem_def.2 h)

/-- None is picked only where none is open. -/
theorem eq_nil_of_openAtom? {s : Solver ρ} (h : (openAtom? s).1 = none) :
    s.work.valuation.openAtoms = [] := by
  unfold openAtom? at h
  dsimp only at h
  split at h
  · exact RandomSource.eq_nil_of_pick h
  · exact List.head?_eq_none_iff.1 h

theorem openAtom?_snd (s : Solver ρ) : ∃ source, (openAtom? s).2 = { s with source } := by
  unfold openAtom?
  dsimp only
  split <;> exact ⟨_, rfl⟩

theorem polarity_snd (optimize : Bool) (s : Solver ρ) :
    ∃ source, (polarity optimize s).2 = { s with source } := by
  unfold polarity
  split
  · exact ⟨s.source, rfl⟩
  · exact ⟨_, rfl⟩

/-- A decision is about an open atom. -/
theorem decide?_eq_some {optimize : Bool} {s t : Solver ρ} {l : Literal}
    (h : decide? optimize s = (some l, t)) :
    l.atom ∈ s.work.valuation.openAtoms ∧ ∃ counters source, t = { s with counters, source } := by
  obtain ⟨source, hsource⟩ := openAtom?_snd s
  unfold decide? at h
  split at h
  · cases h
  · rename_i x u hx
    -- the atom is picked first, and then only counters and the source change
    have hmem := mem_of_openAtom? (s := s) (x := x) (by rw [hx])
    rw [hx] at hsource
    have hu : u = { s with source } := hsource
    subst hu
    obtain ⟨source', hpol⟩ := polarity_snd optimize
      ({ s with source, counters.decisions := s.counters.decisions + 1 } : Solver ρ)
    obtain ⟨hl, ht⟩ := Prod.mk.inj h
    cases hl
    exact ⟨hmem, _, source', ht.symm.trans hpol⟩

/-- Without a decision to make every atom has a value. -/
theorem decide?_eq_none {optimize : Bool} {s t : Solver ρ} (h : decide? optimize s = (none, t)) :
    s.work.valuation.openAtoms = [] ∧ ∃ counters source, t = { s with counters, source } := by
  obtain ⟨source, hsource⟩ := openAtom?_snd s
  unfold decide? at h
  split at h
  · rename_i u hu
    have hnil := eq_nil_of_openAtom? (s := s) (by rw [hu])
    rw [hu] at hsource
    obtain ⟨-, rfl⟩ := Prod.mk.inj h
    exact ⟨hnil, s.counters, source, hsource⟩
  · cases h

/-! ### One round -/

/-- The solver as a search leaves it: with other counters, another assignment and another state
of the random source. -/
def Continues (s t : Solver ρ) : Prop :=
  ∃ counters work source, t = { s with counters, work, source }

omit [RandomSource ρ] in
theorem Continues.refl (s : Solver ρ) : Continues s s := ⟨s.counters, s.work, s.source, rfl⟩

omit [RandomSource ρ] in
theorem Continues.trans {s t u : Solver ρ} (h : Continues s t) (h' : Continues t u) :
    Continues s u := by
  obtain ⟨_, _, _, rfl⟩ := h
  obtain ⟨counters, work, source, rfl⟩ := h'
  exact ⟨counters, work, source, rfl⟩

theorem decide?_snd (optimize : Bool) (s : Solver ρ) :
    ∃ counters source, (decide? optimize s).2 = { s with counters, source } := by
  cases h : decide? optimize s with
  | mk l t =>
    cases l with
    | none => exact (decide?_eq_none h).2
    | some l => exact (decide?_eq_some h).2

/-- A round changes the work, the counters and the source, and nothing else. -/
theorem round_continues (optimize : Bool) (s : Solver ρ) : Continues s (s.round optimize).2 := by
  unfold round
  dsimp only
  split
  · rename_i b hb
    -- a decision draws from the source and is counted, and nothing else
    obtain ⟨counters, source, hd⟩ := decide?_snd optimize
      ({ s with work := b, counters.iterations := s.counters.iterations + 1 } : Solver ρ)
    split
    · rename_i t ht
      rw [ht] at hd
      exact ⟨counters, b, source, hd⟩
    · rename_i l t ht
      rw [ht] at hd
      exact ⟨counters, b.choose l false, source, by rw [show t = _ from hd]⟩
  · split
    · exact ⟨_, _, _, rfl⟩
    · exact ⟨_, _, _, rfl⟩

/-- So do all the rounds of a search. -/
theorem rounds_continues (optimize : Bool) (n : Nat) (s : Solver ρ) :
    Continues s (rounds optimize n s).2 := by
  induction n generalizing s with
  | zero => exact Continues.refl s
  | succ n ih =>
    have hround := round_continues optimize s
    unfold rounds
    split
    · rename_i t ht
      rw [ht] at hround
      -- what one round leaves alone the rounds after it do as well
      exact hround.trans (ih t)
    · rename_i ended t hne ht
      rw [ht] at hround
      exact hround

/-- A round that does not end a search leaves the trail in step, and lowers the budget: it has
made a decision, or gone back to one that is tried the other way. -/
theorem round_searching {optimize : Bool} {s t : Solver ρ} {base : Valuation}
    (hspace : SearchSpace s.clauses base candidate) (h : InStep base s.work)
    (hround : s.round optimize = (.searching, t)) :
    InStep base t.work ∧ budget base.openCount t.work < budget base.openCount s.work := by
  -- propagation spends nothing more than it saves, and what follows it lowers the budget
  have hbudget := budget_propagate (a := s.work) hspace base.openCount
  have hstep := h.propagate hspace.indexed hspace.below
  unfold round at hround
  dsimp only at hround
  split at hround
  · rename_i b hb
    rw [hb] at hbudget hstep
    split at hround
    · cases hround
    · rename_i l u hu
      -- a decision on an open atom
      obtain ⟨hmem, counters, source, rfl⟩ := decide?_eq_some hu
      cases hround
      have hopen : b.valuation.Open l.atom := (Valuation.mem_openAtoms.1 hmem).2
      exact ⟨hstep.choose hopen false, Nat.lt_of_lt_of_le (budget_choose hstep hopen) hbudget⟩
  · rename_i key b hb
    rw [hb] at hbudget hstep
    split at hround
    · cases hround
    · rename_i l w hw
      cases hround
      exact ⟨hstep.backtrack hspace.top hw,
        Nat.lt_of_lt_of_le (budget_backtrack hstep hspace.top hw) hbudget⟩

/-- What holds after a round. -/
def Outcome (clauses : Clauses) (base : Valuation) (candidate : Interpretation → Prop)
    (root : List Literal) (a : Assignment) : Progress → Prop
  | .searching => Searching clauses base candidate root a
  | .found => Searching clauses base candidate root a ∧ a.valuation.openAtoms = [] ∧
      ∀ c ∈ clauses.all, c.standing a.valuation ≠ .falsified
  | .exhausted => ∀ i, ¬ candidate i

/-- What holds after a round of a search. -/
theorem round_spec (optimize : Bool) {s : Solver ρ} {base : Valuation} {root : List Literal}
    (hspace : SearchSpace s.clauses base candidate)
    (h : Searching s.clauses base candidate root s.work) :
    Outcome s.clauses base candidate root (s.round optimize).2.work (s.round optimize).1 := by
  unfold round
  dsimp only
  split
  · rename_i b hb
    -- no conflict: every atom has a value now, or a decision is made
    obtain ⟨hsearch, -, hnone⟩ := h.propagate hspace hb
    split
    · rename_i t ht
      obtain ⟨hnil, counters, source, rfl⟩ := decide?_eq_none ht
      exact ⟨hsearch, hnil, hnone⟩
    · rename_i l t ht
      obtain ⟨hmem, counters, source, rfl⟩ := decide?_eq_some ht
      exact hsearch.choose (Valuation.mem_openAtoms.1 hmem).2 hnone
  · rename_i key b hb
    -- a conflict: there is no decision to go back to, or the last one is tried the other way
    obtain ⟨c, hc, hfalse⟩ := falsified_of_propagate hspace.indexed hb
    have hstep := h.inStep.propagate hspace.indexed hspace.below
    have hjust := h.justified.propagate hspace h.inStep
    have hcalm := calm_propagate h.calm hspace h.inStep
    have hroot := h.rooted.propagate hspace
    rw [hb] at hstep hjust hcalm hroot
    split
    · rename_i w hw
      exact hjust.no_candidate hspace hstep hc hfalse hw
    · rename_i l w hw
      exact searching_backtrack hstep hjust hcalm hroot hspace hc hfalse hw

/-! ### All rounds -/

/-- **A search ends within its budget**, and then it has found a valuation or there is none. -/
theorem rounds_spec (optimize : Bool) {n : Nat} {s : Solver ρ} {base : Valuation}
    {root : List Literal} (hspace : SearchSpace s.clauses base candidate)
    (h : Searching s.clauses base candidate root s.work)
    (hn : budget base.openCount s.work ≤ n) :
    Outcome s.clauses base candidate root (rounds optimize n s).2.work (rounds optimize n s).1 ∧
      (rounds optimize n s).1 ≠ .searching := by
  induction n generalizing s with
  | zero =>
    -- a budget is never empty
    have := budget_pos base.openCount s.work
    omega
  | succ n ih =>
    have hcont := round_continues optimize s
    have hout := round_spec optimize hspace h
    unfold rounds
    split
    · rename_i t ht
      rw [ht] at hcont hout
      have hlt := (round_searching hspace h.inStep ht).2
      -- the round has changed no clause, so the space is the one that was searched before
      obtain ⟨counters, work, source, rfl⟩ := hcont
      exact ih (s := { s with counters, work, source }) hspace hout
        (Nat.le_of_lt_succ (Nat.lt_of_lt_of_le hlt hn))
    · rename_i ended t hne ht
      rw [ht] at hout
      exact ⟨hout, hne⟩

end Solver

end Storyworld
