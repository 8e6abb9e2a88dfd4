import Storyworld.Proofs.Solver.Attained
import Storyworld.Proofs.Solver.Naming

namespace Storyworld

/-!
# What is held from an earlier state

Atoms can be made at any time, and a solver then still holds what an earlier search or refresh has
left: the assignment with its trail, the fixed valuation, and the completion clauses of rules that
may have changed since. None of it is looked at again before it is replaced, but it has to fit the
atoms that there are by now. `Held` says that it does, and it endures (`enduring_held`):

* an atom that is made extends both valuations (`Held.makeAtom`), and a clause that is stored leaves
  them alone (`Held.store`);
* a refresh replaces all of it at once (`Held.refresh`);
* a search leaves an assignment that its rounds have kept within the atoms (`Held.advance`).

With what is well formed, this makes everything that a solver stores `Ranged`
(`Attained.ranged`).
-/

namespace Assignment

variable {base : Valuation} {a : Assignment} {count : Nat}

/-- The valuation is of that many atoms, and the trail is about them. -/
structure Within (count : Nat) (a : Assignment) : Prop where
  size : a.valuation.size = count
  trail : ∀ l ∈ a.trail.toList, l.atom < count

/-- At the start the trail is about nothing. -/
theorem within_empty {v : Valuation} (h : v.size = count) : Within count ⟨v, {}⟩ :=
  ⟨h, fun _ hl => nomatch hl⟩

/-- A trail in step is about atoms there are. -/
theorem InStep.within (h : InStep base a) : a.Within base.size :=
  ⟨h.size, fun l hl => (h.fits.isOpen l hl).lt⟩

/-- Room for one more atom. -/
theorem Within.push (h : a.Within count) :
    ({ a with valuation := a.valuation.push none } : Assignment).Within (count + 1) where
  size := by
    rw [Array.size_push, h.size]
  trail := fun l hl => Nat.lt_succ_of_lt (h.trail l hl)

/-- To go back takes no place from the valuation. -/
theorem size_undo (a : Assignment) (position : Nat) (ds : List Decision) :
    (a.undo position ds).valuation.size = a.valuation.size := by
  have hrelease (ls : List Literal) (v : Valuation) :
      (ls.foldl (fun v l => v.release l.atom) v).size = v.size := by
    induction ls generalizing v with
    | nil => rfl
    | cons l ls ih => rw [List.foldl_cons, ih, Valuation.size_release]
  exact hrelease _ a.valuation

/-- What is left of the trail is about atoms there are. -/
theorem Within.undo (h : a.Within count) (position : Nat) (ds : List Decision) :
    (a.undo position ds).Within count where
  size := (size_undo a position ds).trans h.size
  trail := by
    intro l hl
    rw [toList_undo] at hl
    exact h.trail l (List.mem_of_mem_take hl)

/-- To go back through decisions leaves the trail about atoms there are. -/
theorem Within.backtrackThrough (h : a.Within count) (ds : List Decision) :
    (backtrackThrough ds a).2.Within count := by
  induction ds generalizing a with
  | nil => exact h
  | cons d ds ih =>
    have hback := h.undo d.position ds
    unfold Assignment.backtrackThrough
    dsimp only
    split
    · exact ih hback
    · exact hback

end Assignment

namespace Solver

open Assignment

variable {ρ : Type} {s t : Solver ρ}

/-! ### What is stored in range -/

/-- Both valuations have a place for each atom, names and the atoms that have them correspond, and
every literal that is stored anywhere is about an atom that there is. -/
structure Ranged (s : Solver ρ) : Prop where
  size_valuation : s.work.valuation.size = s.atoms.count
  size_fixed : s.fixed.size = s.atoms.count
  named : ∀ p a, s.atoms.named? p = some a ↔ s.atoms.name? a = some p
  asserted : Clause.Below s.atoms.count s.clauses.asserted.toList
  completion : Clause.Below s.atoms.count s.clauses.completion.toList
  heads : ∀ head ∈ s.rules.supports, head < s.atoms.count
  supports : ∀ head, ∀ l ∈ s.rules.supportsOf head, l.atom < s.atoms.count
  assumptions : ∀ l ∈ s.assumptions, l.atom < s.atoms.count
  trail : ∀ l ∈ s.work.trail.toList, l.atom < s.atoms.count

/-! ### What is held -/

/-- What earlier searches and refreshes have left fits the atoms that there are. -/
structure Held (s : Solver ρ) : Prop where
  work : s.work.Within s.atoms.count
  size_fixed : s.fixed.size = s.atoms.count
  completion : Clause.Below s.atoms.count s.clauses.completion.toList

/-- A new solver holds nothing from before. -/
theorem held_ofConfig (config : Config) (source : ρ) : (ofConfig config source).Held where
  work := within_empty rfl
  size_fixed := rfl
  completion := fun _ hc => nomatch hc

/-- Nothing else matters. -/
theorem Held.of_eq (h : s.Held) (hatoms : t.atoms = s.atoms) (hwork : t.work = s.work)
    (hfixed : t.fixed = s.fixed) (hcompletion : t.clauses.completion = s.clauses.completion) :
    t.Held := by
  constructor
  · rw [hwork, hatoms]
    exact h.work
  · rw [hfixed, hatoms]
    exact h.size_fixed
  · rw [hcompletion, hatoms]
    exact h.completion

/-- A new atom has a place in both valuations. -/
theorem Held.makeAtom (h : s.Held) (name : Option Proposition) :
    (s.makeAtom name).2.invalidate.Held := by
  have hcount : (s.makeAtom name).2.invalidate.atoms.count = s.atoms.count + 1 :=
    Atoms.count_fresh s.atoms name
  constructor
  · rw [hcount]
    exact h.work.push
  · rw [hcount]
    show (s.fixed.push none).size = _
    rw [Array.size_push, h.size_fixed]
  · rw [hcount]
    exact fun c hc l hl => Nat.lt_succ_of_lt (h.completion c hc l hl)

/-- A clause that is stored is an asserted one. -/
theorem completion_store (c : Clause) (s : Solver ρ) :
    (s.store c).2.clauses.completion = s.clauses.completion := by
  have hclauses : (s.clauses.store c.canonical).2.completion = s.clauses.completion := by
    unfold Clauses.store
    split <;> rfl
  unfold store
  split
  · rfl
  · split
    · rename_i key clauses hstore
      rwa [hstore] at hclauses
    · rename_i stored clauses _ hstore
      rwa [hstore] at hclauses

/-- To store a clause leaves what is held alone. -/
theorem Held.store (h : s.Held) (c : Clause) : (s.store c).2.Held := by
  have hcompletion := completion_store c s
  obtain ⟨clauses, status, hframe, -⟩ := store_frame c s
  rw [hframe] at hcompletion ⊢
  exact h.of_eq rfl rfl rfl hcompletion

/-- To drop the assumptions drops the assignment. -/
theorem Held.reset (h : s.Held) : s.reset.Held where
  work := within_empty h.size_fixed
  size_fixed := h.size_fixed
  completion := h.completion

/-- A refresh that has something to do replaces all that is held. -/
theorem Held.refresh (h : s.Held) (hs : s.WellFormed) : s.refresh.Held := by
  unfold Solver.refresh
  split
  · have hsize : s.recompute.fixed.size = s.atoms.count :=
      (upToDate_recompute s).size_fixed hs.recompute
    constructor
    · exact within_empty hsize
    · exact hsize
    · exact hs.rules.below
  · exact h

/-- A solve replaces what is held before it searches. -/
theorem Held.prepared (h : s.Held) (hs : s.WellFormed) : s.prepared.Held :=
  Held.refresh (h.of_eq rfl rfl rfl rfl) (hs.continues ⟨_, s.work, s.source, rfl⟩)

/-! ### What searches leave -/

variable [RandomSource ρ] {base : Valuation} {candidate : Interpretation → Prop}
  {optimize : Bool} {n : Nat}

/-- A round leaves the trail about the atoms there are, whatever it comes to. -/
theorem within_round (hspace : SearchSpace s.clauses base candidate) (h : InStep base s.work) :
    (s.round optimize).2.work.Within base.size := by
  have hstep := h.propagate hspace.indexed hspace.below
  unfold round
  dsimp only
  split
  · rename_i b hb
    rw [hb] at hstep
    split
    · rename_i t ht
      obtain ⟨-, counters, source, rfl⟩ := decide?_eq_none ht
      exact InStep.within hstep
    · rename_i l t ht
      obtain ⟨hmem, counters, source, rfl⟩ := decide?_eq_some ht
      exact InStep.within (hstep.choose (Valuation.mem_openAtoms.1 hmem).2 false)
  · rename_i key b hb
    rw [hb] at hstep
    split
    · rename_i w hw
      -- with every decision taken back, no more is left than there was
      have hback := (InStep.within hstep).backtrackThrough b.trail.decisions
      rwa [show backtrackThrough b.trail.decisions b = (none, w) from hw] at hback
    · rename_i l w hw
      exact InStep.within (InStep.backtrack hstep hspace.top hw)

/-- Rounds leave the trail about the atoms there are, however many are taken. -/
theorem within_rounds (hspace : SearchSpace s.clauses base candidate) (h : InStep base s.work) :
    (rounds optimize n s).2.work.Within base.size := by
  induction n generalizing s with
  | zero => exact h.within
  | succ n ih =>
    have hround : (s.round optimize).2.work.Within base.size := within_round hspace h
    unfold rounds
    split
    · rename_i t ht
      obtain ⟨hspace, hstep⟩ := searchSpace_round hspace h ht
      exact ih hspace hstep
    · rename_i ended t hne ht
      rwa [ht] at hround

omit [RandomSource ρ] in
/-- A search replaces the assignment that is held, and leaves the rest. -/
theorem Held.continues (h : s.Held) (hcont : Continues s t) (hwork : t.work.Within s.atoms.count) :
    t.Held := by
  obtain ⟨counters, work, source, rfl⟩ := hcont
  exact ⟨hwork, h.size_fixed, h.completion⟩

/-- However far a solve comes, it leaves an assignment within the atoms. -/
theorem Held.advance (h : s.Held) (hs : s.WellFormed) (optimize : Bool) (n : Nat) :
    (s.advance optimize n).2.Held := by
  obtain ⟨hwf, hcurrent⟩ := hs.prepared
  have hprepared := h.prepared hs
  have hstep := hwf.inStep_begin hcurrent
  have hspace := hwf.searchSpace_begin hcurrent
  have hwork : (s.advance optimize n).2.work.Within s.prepared.fixed.size :=
    advance_induction (P := fun t => t.work.Within s.prepared.fixed.size)
      (hprepared.size_fixed ▸ hprepared.work) hstep.within (within_rounds hspace hstep)
  rw [hprepared.size_fixed] at hwork
  exact hprepared.continues (advance_continues optimize n s) hwork

/-- What is held endures: each of the steps keeps it fitting. -/
theorem enduring_held : Enduring (Held (ρ := ρ)) where
  makeAtom _ name h := h.makeAtom name
  store _ c h := h.store c
  note _ _ _ _ _ h := h.of_eq rfl rfl rfl rfl
  reset _ h := h.reset
  refresh _ hs h := h.refresh hs
  advance _ optimize n hs h := h.advance hs optimize n

/-! ### Solvers that are attained -/

/-- In every solver that is attained what is held fits the atoms. -/
theorem Attained.held (hs : s.Attained) : s.Held := enduring_held.attained held_ofConfig hs

/-- A solve that is broken off makes no atom. -/
theorem atoms_interrupted (optimize : Bool) (n : Nat) (s : Solver ρ) :
    (s.interrupted optimize n).atoms = s.atoms := by
  obtain ⟨_, _, _, hcont⟩ := interrupted_continues optimize n s
  obtain ⟨_, _, _, _, _, hprepared, -⟩ := prepared_frame s
  rw [hcont, hprepared]

/-- **Names and the atoms that have them correspond**, also after solves that were broken off. -/
theorem Attained.indexed (hs : s.Attained) : s.atoms.Indexed := by
  induction hs with
  | start config source =>
    intro a x ha
    rw [name?_ofConfig] at ha
    cases ha
  | move hs m ih =>
    exact atoms_perform Atoms.padding_indexed (fun x _ => indexed_proposition ih x) ih
  | interrupt hs optimize n ih =>
    rw [atoms_interrupted]
    exact ih

/-- **Whatever a solver stores is in range.** -/
theorem Attained.ranged (hs : s.Attained) : s.Ranged := by
  have hwf := hs.wellFormed
  have hheld := hs.held
  exact
    { size_valuation := hheld.work.size
      size_fixed := hheld.size_fixed
      named := fun p a => ⟨hwf.atoms.named p a, hs.indexed a p⟩
      asserted := fun c hc => (hwf.clauses c (Array.mem_toList_iff.1 hc)).2
      completion := hheld.completion
      heads := hwf.rules.heads
      supports := hwf.rules.supports
      assumptions := hwf.assumptions
      trail := hheld.work.trail }

end Solver

end Storyworld
