import Storyworld.Proofs.Solver.Attained

namespace Storyworld

/-!
# What a search goes back to

A decision stores the length of the trail and nothing else, and the way back cuts the trail there
and takes the values of what is cut off away. That this leads back to the very assignment in which
the decision was made, with the same consequences drawn, is not seen from the way back alone: it
holds as decisions are made when nothing waits on the trail.

* `Recalls made` is the invariant: to go back to a decision that has been tried one way only leads
  to an assignment in which that decision was made. It is kept by propagation
  (`Recalls.propagate`), by a decision that is made when nothing waits (`Recalls.choose`), and on
  the way back (`Recalls.undo`).
* `Made` is the relation it is used with: the decision was made in one of the rounds so far.
* `Underway.recalls` puts them together by induction on the rounds.
-/

namespace Assignment

variable {base : Valuation} {clauses : Clauses} {a b : Assignment} {l : Literal}
  {made made' : Assignment → Literal → Prop}

/-! ### Going back to what was there -/

/-- What the trail has gained since does not matter when the search goes back. -/
theorem undo_of_grown (ha : InStep base a) (hb : InStep base b) (htop : ¬ base.Open Atom.top)
    (hab : a.trail.toList <+: b.trail.toList) {position : Nat}
    (hle : position ≤ a.trail.toList.length) (ds : List Decision) :
    b.undo position ds = a.undo position ds := by
  obtain ⟨gained, hgained⟩ := hab
  -- the cut is made where the shorter trail still reaches, so what the longer gained is all cut off
  have htake : b.trail.toList.take position = a.trail.toList.take position := by
    rw [← hgained, List.take_append_of_le_length hle]
  have hval : (b.undo position ds).valuation = (a.undo position ds).valuation := by
    rw [valuation_undo hb htop, valuation_undo ha htop, valuationAt, valuationAt, htake]
  have hlits : (b.undo position ds).trail.literals = (a.undo position ds).trail.literals := by
    apply Array.toList_inj.1
    show (b.undo position ds).trail.toList = (a.undo position ds).trail.toList
    rw [toList_undo, toList_undo, htake]
  have htrail : (b.undo position ds).trail = (a.undo position ds).trail := by
    show Trail.mk (b.undo position ds).trail.literals ds position =
      Trail.mk (a.undo position ds).trail.literals ds position
    rw [hlits]
  exact ext hval htrail

theorem InStep.propagated_eq (h : InStep base a) (hwait : a.trail.waiting = []) :
    a.trail.propagated = a.trail.literals.size := by
  have hle := h.propagated_le
  rw [Trail.waiting, List.drop_eq_nil_iff] at hwait
  rw [← Trail.length_toList]
  omega

/-- To cut the trail at its end is to do nothing, if nothing waits there. -/
theorem InStep.undo_end (h : InStep base a) (htop : ¬ base.Open Atom.top)
    (hwait : a.trail.waiting = []) : a.undo a.trail.literals.size a.trail.decisions = a := by
  have hval : (a.undo a.trail.literals.size a.trail.decisions).valuation = a.valuation := by
    rw [valuation_undo h htop, ← Trail.length_toList, h.valuationAt_length]
  have htrail : (a.undo a.trail.literals.size a.trail.decisions).trail = a.trail := by
    show Trail.mk (a.trail.literals.extract 0 a.trail.literals.size) a.trail.decisions
      a.trail.literals.size = a.trail
    rw [Array.extract_size, ← h.propagated_eq hwait]
  exact ext hval htrail

/-! ### What is recalled -/

/-- To go back to a decision that has been tried one way only leads to an assignment in which that
decision was made. -/
def Recalls (made : Assignment → Literal → Prop) (a : Assignment) : Prop :=
  ∀ later d earlier, a.trail.decisions = later ++ d :: earlier → d.flipped = false →
    made (a.undo d.position earlier) d.literal

/-- Where nothing is decided there is nothing to recall. -/
theorem recalls_of_undecided (hds : a.trail.decisions = []) : Recalls made a := by
  intro later d earlier hsplit
  rw [hds] at hsplit
  simp at hsplit

/-- What is recalled as made in one way is recalled as made in any weaker way. -/
theorem Recalls.mono (h : Recalls made a) (hmade : ∀ b m, made b m → made' b m) :
    Recalls made' a :=
  fun later d earlier hsplit hflip => hmade _ _ (h later d earlier hsplit hflip)

/-- As long as the trail only grows and no decision is made, the same is recalled. -/
theorem Recalls.grow (h : Recalls made a) (ha : InStep base a) (hb : InStep base b)
    (htop : ¬ base.Open Atom.top) (hab : a.trail.toList <+: b.trail.toList)
    (hds : b.trail.decisions = a.trail.decisions) : Recalls made b := by
  intro later d earlier hsplit hflip
  rw [hds] at hsplit
  have hlt := ha.position_lt (d := d) (by simp [hsplit])
  rw [undo_of_grown ha hb htop hab (Nat.le_of_lt hlt)]
  exact h later d earlier hsplit hflip

theorem Recalls.propagate (h : Recalls made a) {candidate : Interpretation → Prop}
    (hspace : SearchSpace clauses base candidate) (ha : InStep base a) :
    Recalls made (Assignment.propagate clauses a).2 :=
  h.grow ha (ha.propagate hspace.indexed hspace.below) hspace.top
    (prefix_propagate hspace.indexed) (decisions_propagate hspace.indexed)

/-- A decision that is made when nothing waits can be gone back to, and those before it as before.
-/
theorem Recalls.choose (h : Recalls made a) (ha : InStep base a) (htop : ¬ base.Open Atom.top)
    (hopen : a.valuation.Open l.atom) {flipped : Bool}
    (hnew : flipped = false → a.trail.waiting = [] ∧ made a l) :
    Recalls made (a.choose l flipped) := by
  have hb := ha.choose hopen flipped
  have hab : a.trail.toList <+: (a.choose l flipped).trail.toList := by
    show _ <+: (a.trail.pushDecision l flipped).toList
    rw [Trail.toList_pushDecision]
    exact List.prefix_append _ _
  intro later d earlier hsplit hflip
  have hsplit : ⟨a.trail.literals.size, l, flipped⟩ :: a.trail.decisions =
      later ++ d :: earlier := hsplit
  cases later with
  | nil =>
    -- the latest decision is the one that is made now
    obtain ⟨rfl, rfl⟩ := List.cons.inj hsplit
    obtain ⟨hwait, hmade⟩ := hnew hflip
    have hend := undo_of_grown ha hb htop hab
      (Nat.le_of_eq (Trail.length_toList a.trail).symm) a.trail.decisions
    show made ((a.choose l flipped).undo a.trail.literals.size a.trail.decisions) l
    rw [hend, ha.undo_end htop hwait]
    exact hmade
  | cons e later =>
    have hsplit : a.trail.decisions = later ++ d :: earlier := (List.cons.inj hsplit).2
    have hlt := ha.position_lt (d := d) (by simp [hsplit])
    rw [undo_of_grown ha hb htop hab (Nat.le_of_lt hlt)]
    exact h later d earlier hsplit hflip

/-- From where the search has gone back to, what comes before is recalled as before. -/
theorem Recalls.undo (h : Recalls made a) (ha : InStep base a) (htop : ¬ base.Open Atom.top)
    {d : Decision} {later earlier : List Decision}
    (hds : a.trail.decisions = later ++ d :: earlier) :
    Recalls made (a.undo d.position earlier) := by
  intro between e first hsplit hflip
  have hsplit : earlier = between ++ e :: first := hsplit
  rw [undo_undo ha htop hds (by simp [hsplit])]
  exact h (later ++ d :: between) e first (by rw [hds, hsplit]; simp) hflip

end Assignment

namespace Solver

open Assignment

variable {ρ : Type} [RandomSource ρ] {s t u : Solver ρ} {optimize : Bool} {n : Nat}

/-! ### What rounds do to the assignment -/

/-- A round that goes on has decided where propagation has left nothing to draw, or has gone back
from a conflict. -/
theorem round_cases (h : t.round optimize = (.searching, u)) :
    (∃ b l, t.work.propagate t.clauses = (none, b) ∧ l.atom ∈ b.valuation.openAtoms ∧
      u.work = b.choose l false) ∨
      ∃ key a b l, t.work.propagate t.clauses = (some key, a) ∧ a.backtrack = (some l, b) ∧
        u.work = b.choose l true := by
  unfold round at h
  dsimp only at h
  split at h
  · rename_i b hb
    split at h
    · cases h
    · rename_i l v hv
      -- no conflict, so the round made a new decision
      obtain ⟨hmem, counters, source, rfl⟩ := decide?_eq_some hv
      cases h
      exact Or.inl ⟨b, l, hb, hmem, rfl⟩
  · rename_i key a ha
    split at h
    · cases h
    · rename_i l b hb
      cases h
      exact Or.inr ⟨key, a, b, l, ha, hb, rfl⟩

/-- In one of the first `n` rounds of a solve the consequences were drawn without a conflict, which
ended in the assignment, and then the literal was decided. -/
def Made (optimize : Bool) (s : Solver ρ) (n : Nat) (b : Assignment) (l : Literal) : Prop :=
  ∃ m t u, m < n ∧ Underway optimize s m t ∧ t.work.propagate t.clauses = (none, b) ∧
    Underway optimize s (m + 1) u ∧ u.work = b.choose l false

theorem Made.mono {b : Assignment} {l : Literal} (h : Made optimize s n b l) :
    Made optimize s (n + 1) b l := by
  obtain ⟨m, t, u, hlt, h⟩ := h
  exact ⟨m, t, u, Nat.lt_succ_of_lt hlt, h⟩

/-- A round keeps the trail in step, and what it recalls. -/
theorem Underway.round (h : Underway optimize s n t) (hs : s.WellFormed)
    (hround : t.round optimize = (.searching, u)) (hstep : InStep t.fixed t.work)
    (hrecalls : Recalls (Made optimize s n) t.work) :
    InStep t.fixed u.work ∧ Recalls (Made optimize s (n + 1)) u.work := by
  have hspace := h.searchSpace hs
  have hnext : Underway optimize s (n + 1) u := underway_succ_iff.2 ⟨t, h, hround⟩
  have hpropagated := hstep.propagate hspace.indexed hspace.below
  have hrecalled := (hrecalls.mono fun _ _ => Made.mono).propagate hspace hstep
  refine ⟨(round_searching hspace hstep hround).1, ?_⟩
  rcases round_cases hround with ⟨b, l, hb, hopen, hwork⟩ | ⟨key, a, b, l, ha, hb, hwork⟩
  · have hwait := waiting_propagate hstep hspace.indexed hspace.below hb
    rw [hb] at hpropagated hrecalled
    rw [hwork]
    -- the decision of this round is the only one that is new
    refine hrecalled.choose hpropagated hspace.top (Valuation.mem_openAtoms.1 hopen).2 fun _ => ?_
    exact ⟨hwait, n, t, u, Nat.lt_succ_self n, h, hb, hnext, hwork⟩
  · rw [ha] at hpropagated hrecalled
    obtain ⟨between, d, earlier, hds, -, -, rfl, rfl⟩ :=
      backtrack_eq_some (a := a) hpropagated hspace.top hb
    rw [hwork]
    refine (hrecalled.undo hpropagated hspace.top hds).choose
      (hpropagated.undo hspace.top hds) hspace.top ?_ nofun
    exact open_undo hpropagated hspace.top (by simp [hds]) earlier

/-- **The trail stays in step, and recalls all decisions**, in every round of a solve. -/
theorem Underway.recalls (h : Underway optimize s n t) (hs : s.WellFormed) :
    InStep t.fixed t.work ∧ Recalls (Made optimize s n) t.work := by
  induction n generalizing t with
  | zero =>
    -- at the start there are the assumptions, and nothing is decided
    rw [underway_zero h]
    exact ⟨hs.prepared.1.inStep_begin hs.prepared.2,
      recalls_of_undecided (decisions_assume _ _)⟩
  | succ n ih =>
    obtain ⟨u, hu, hround⟩ := underway_succ_iff.1 h
    obtain ⟨hstep, hrecalls⟩ := ih hu
    have hcont := round_continues optimize u
    rw [hround] at hcont
    have hfixed : t.fixed = u.fixed := by
      obtain ⟨counters, work, source, rfl⟩ := hcont
      rfl
    rw [hfixed]
    exact hu.round hs hround hstep hrecalls

/-- **Trail and valuation stay in step.** Between any two rounds of a solve, the valuation is the
fixed one with the literals of the trail made true, which have atoms of their own that the fixed
valuation leaves open; what has been propagated is a part of the trail; and the decisions stand at
their positions, one after the other. When a conflict then leads back to a decision, the assignment
is the very one that it was made in: there was an earlier round in which the consequences were drawn
without a conflict, which ended in this assignment, and then the decision was made. So nothing waits
on the trail. -/
theorem Attained.search_in_step (hs : s.Attained) (h : Underway optimize s n t) :
    InStep t.fixed t.work ∧
      ∀ key a l b, t.work.propagate t.clauses = (some key, a) → a.backtrack = (some l, b) →
        b.trail.waiting = [] ∧
          ∃ m v u, m < n ∧ Underway optimize s m v ∧ v.work.propagate v.clauses = (none, b) ∧
            Underway optimize s (m + 1) u ∧ u.work = b.choose l.negate false := by
  have hwf := hs.wellFormed
  obtain ⟨hstep, hrecalls⟩ := h.recalls hwf
  have hspace := h.searchSpace hwf
  refine ⟨hstep, fun key a l b ha hb => ?_⟩
  have hpropagated := hstep.propagate hspace.indexed hspace.below
  have hrecalled := hrecalls.propagate hspace hstep
  rw [ha] at hpropagated hrecalled
  obtain ⟨between, d, earlier, hds, -, hflip, rfl, rfl⟩ :=
    backtrack_eq_some (a := a) hpropagated hspace.top hb
  obtain ⟨m, v, u, hlt, hv, hend, hu, hwork⟩ := hrecalled between d earlier hds hflip
  -- in that round the trail was in step too, and propagation left nothing waiting
  have hspace' := hv.searchSpace hwf
  have hwait := waiting_propagate (hv.recalls hwf).1 hspace'.indexed hspace'.below hend
  refine ⟨hwait, m, v, u, hlt, hv, hend, hu, ?_⟩
  rwa [Literal.negate_negate]

/-- Two clauses that refute the first decision, next to an atom that is assumed. -/
theorem search_in_step_refuted :
    let s : Solver Pcg := [Move.freshAtom none, .freshAtom none, .freshAtom none,
      .addClause [Literal.pos 1, Literal.pos 2], .addClause [Literal.pos 1, Literal.neg 2],
      .force (Literal.pos 3)].foldl (fun s m => m.perform s) (ofConfig {} (Pcg.ofSeed 0))
    let t := (s.advance true 1).2
    let a := (t.work.propagate t.clauses).2
    s.Attained ∧ Underway true s 1 t ∧ InStep t.fixed t.work ∧
      t.work.propagate t.clauses = (some (.asserted 1), a) ∧
      a.backtrack = (some (Literal.pos 1), a.backtrack.2) ∧ a.backtrack.2.trail.waiting = [] ∧
      ∃ m v u, m < 1 ∧ Underway true s m v ∧
        v.work.propagate v.clauses = (none, a.backtrack.2) ∧ Underway true s (m + 1) u ∧
        u.work = a.backtrack.2.choose (Literal.pos 1).negate false := by
  intro s t a
  have hpair {α β : Type} {p : α × β} {x : α} (h : p.1 = x) : p = (x, p.2) := Prod.ext h rfl
  have hs : s.Attained := ((Reachable.start {} (Pcg.ofSeed 0)).moves _).attained
  have hunderway : Underway true s 1 t := hpair (by decide +kernel)
  have hconflict : t.work.propagate t.clauses = (some (.asserted 1), a) :=
    hpair (by decide +kernel)
  have hback : a.backtrack = (some (Literal.pos 1), a.backtrack.2) := hpair (by decide +kernel)
  -- from here on it does not matter what the solvers are
  clear_value a t s
  obtain ⟨hstep, hrestored⟩ := hs.search_in_step hunderway
  exact ⟨hs, hunderway, hstep, hconflict, hback, hrestored _ _ _ _ hconflict hback⟩

end Solver

end Storyworld
