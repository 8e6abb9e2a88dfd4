import Storyworld.Proofs.Solver.Values
import Storyworld.Solver.Assignment

namespace Storyworld

/-!
# The trail and the valuation in step

During a search the valuation is what the trail makes of the valuation the search began
from. `Assignment.InStep` says so, and each move of a search keeps it. It is what makes
going back exact: taking back the literals from a position on gives the valuation and
the trail as they were when that position was reached.
-/

namespace Trail

/-- The literals made true so far, in order. -/
def toList (t : Trail) : List Literal := t.literals.toList

/-- The literals whose consequences are still to be drawn, in order. -/
def waiting (t : Trail) : List Literal := t.toList.drop t.propagated

@[simp] theorem toList_push (t : Trail) (l : Literal) : (t.push l).toList = t.toList ++ [l] :=
  Array.toList_push

@[simp] theorem toList_pushDecision (t : Trail) (l : Literal) (flipped : Bool) :
    (t.pushDecision l flipped).toList = t.toList ++ [l] := Array.toList_push

theorem length_toList (t : Trail) : t.toList.length = t.literals.size := Array.length_toList

theorem length_waiting (t : Trail) : t.waiting.length = t.pending := by
  rw [waiting, List.length_drop, length_toList, pending]

/-- What is pushed waits behind the others, if no more have been drawn from than there are. -/
theorem waiting_push {t : Trail} (h : t.propagated ≤ t.toList.length) (l : Literal) :
    (t.push l).waiting = t.waiting ++ [l] := by
  show (t.push l).toList.drop t.propagated = _
  rw [toList_push, List.drop_append_of_le_length h, waiting]

/-- A decision waits like any other literal. -/
theorem waiting_pushDecision {t : Trail} (h : t.propagated ≤ t.toList.length) (l : Literal)
    (flipped : Bool) : (t.pushDecision l flipped).waiting = t.waiting ++ [l] := by
  show (t.pushDecision l flipped).toList.drop t.propagated = _
  rw [toList_pushDecision, List.drop_append_of_le_length h, waiting]

/-- There is no next literal exactly when none is waiting. -/
theorem next?_eq_none_iff {t : Trail} : t.next? = none ↔ t.waiting = [] := by
  rw [next?, Option.map_eq_none_iff, waiting, List.drop_eq_nil_iff, length_toList,
    Array.getElem?_eq_none_iff]

/-- The literal that comes next is the first of those that wait, and the others go on
waiting. -/
theorem next?_eq_some {t u : Trail} {l : Literal} (h : t.next? = some (l, u)) :
    t.waiting = l :: u.waiting ∧ u = { t with propagated := t.propagated + 1 } ∧
      t.propagated < t.toList.length := by
  obtain ⟨m, hm, he⟩ := Option.map_eq_some_iff.1 h
  obtain ⟨rfl, rfl⟩ := Prod.mk.inj he
  have hget : t.toList[t.propagated]? = some m := by rwa [toList, Array.getElem?_toList]
  obtain ⟨hlt, hval⟩ := List.getElem?_eq_some_iff.1 hget
  refine ⟨?_, rfl, hlt⟩
  show t.toList.drop t.propagated = m :: t.toList.drop (t.propagated + 1)
  rw [List.drop_eq_getElem_cons hlt, hval]

end Trail

namespace Assignment

variable {base : Valuation} {a : Assignment} {l : Literal}

/-- An assignment is its valuation and its trail. -/
theorem ext {a b : Assignment} (hv : a.valuation = b.valuation) (ht : a.trail = b.trail) :
    a = b := by
  cases a
  cases b
  exact congr (congrArg Assignment.mk hv) ht

/-- The valuation is what the trail makes of the valuation at its start, and the trail
knows where its decisions are. -/
structure InStep (base : Valuation) (a : Assignment) : Prop where
  valuation_eq : a.valuation = base.assignAll a.trail.toList
  fits : base.Fits a.trail.toList
  propagated_le : a.trail.propagated ≤ a.trail.toList.length
  placed : ∀ d ∈ a.trail.decisions, a.trail.toList[d.position]? = some d.literal
  descending : a.trail.decisions.Pairwise fun d e => e.position < d.position

/-- The valuation as it was when the trail had reached a position. -/
def valuationAt (base : Valuation) (a : Assignment) (position : Nat) : Valuation :=
  base.assignAll (a.trail.toList.take position)

/-! ### Moves that keep the trail in step -/

/-- A search begins in step, with nothing on the trail. -/
theorem inStep_empty (base : Valuation) : InStep base ⟨base, {}⟩ where
  valuation_eq := rfl
  fits := Valuation.fits_nil base
  propagated_le := Nat.le_refl 0
  placed := by simp
  descending := List.Pairwise.nil

/-- A search makes the valuation neither longer nor shorter. -/
theorem InStep.size (h : InStep base a) : a.valuation.size = base.size := by
  rw [h.valuation_eq, Valuation.size_assignAll]

/-- Every decision is on the trail. -/
theorem InStep.position_lt (h : InStep base a) {d : Decision} (hd : d ∈ a.trail.decisions) :
    d.position < a.trail.toList.length :=
  (List.getElem?_eq_some_iff.1 (h.placed d hd)).1

/-- Each literal on the trail takes one atom from those that were open at the start. -/
theorem InStep.openCount (h : InStep base a) :
    a.valuation.openCount + a.trail.toList.length = base.openCount := by
  rw [h.valuation_eq, Valuation.openCount_assignAll h.fits]

/-- A literal without a value fits on the trail. -/
theorem InStep.fits_push (h : InStep base a) (hl : a.valuation.Open l.atom) :
    base.Fits (a.trail.toList ++ [l]) := by
  rw [Valuation.fits_append, Valuation.fits_singleton, ← h.valuation_eq]
  exact ⟨h.fits, hl⟩

/-- To assign a literal is to put it at the end of the trail. -/
theorem InStep.valuation_push (h : InStep base a) :
    a.valuation.assign l = base.assignAll (a.trail.toList ++ [l]) := by
  rw [Valuation.assignAll_append, ← h.valuation_eq]
  rfl

/-- Decisions stay at their positions when the trail gets longer. -/
theorem InStep.placed_push (h : InStep base a) {d : Decision} (hd : d ∈ a.trail.decisions) :
    (a.trail.toList ++ [l])[d.position]? = some d.literal := by
  rw [List.getElem?_append_left (h.position_lt hd)]
  exact h.placed d hd

/-- A literal without a value is assigned in step. -/
theorem InStep.assign (h : InStep base a) (hl : a.valuation.Open l.atom) :
    InStep base (a.assign l) where
  valuation_eq := by
    show a.valuation.assign l = base.assignAll (a.trail.push l).toList
    rw [Trail.toList_push]
    exact h.valuation_push
  fits := by
    show base.Fits (a.trail.push l).toList
    rw [Trail.toList_push]
    exact h.fits_push hl
  propagated_le := by
    show a.trail.propagated ≤ (a.trail.push l).toList.length
    rw [Trail.toList_push, List.length_append]
    -- the trail gets longer, and what has been propagated does not
    have := h.propagated_le
    omega
  placed := by
    intro d hd
    show (a.trail.push l).toList[d.position]? = some d.literal
    rw [Trail.toList_push]
    exact h.placed_push hd
  descending := h.descending

/-- A decision is made in step: its position is the last one. -/
theorem InStep.choose (h : InStep base a) (hl : a.valuation.Open l.atom) (flipped : Bool) :
    InStep base (a.choose l flipped) where
  valuation_eq := by
    show a.valuation.assign l = base.assignAll (a.trail.pushDecision l flipped).toList
    rw [Trail.toList_pushDecision]
    exact h.valuation_push
  fits := by
    show base.Fits (a.trail.pushDecision l flipped).toList
    rw [Trail.toList_pushDecision]
    exact h.fits_push hl
  propagated_le := by
    show a.trail.propagated ≤ (a.trail.pushDecision l flipped).toList.length
    rw [Trail.toList_pushDecision, List.length_append]
    have := h.propagated_le
    omega
  placed := by
    intro d hd
    show (a.trail.pushDecision l flipped).toList[d.position]? = some d.literal
    rw [Trail.toList_pushDecision]
    rcases List.mem_cons.1 hd with rfl | hd
    · -- the new decision stands at the end of the trail
      show (a.trail.toList ++ [l])[a.trail.literals.size]? = some l
      rw [← Trail.length_toList, List.getElem?_concat_length]
    · exact h.placed_push hd
  descending := by
    refine List.pairwise_cons.2 ⟨fun d hd => ?_, h.descending⟩
    show d.position < a.trail.literals.size
    rw [← Trail.length_toList]
    exact h.position_lt hd

/-- To take the next literal changes neither the valuation nor where the decisions are. -/
theorem InStep.dequeue (h : InStep base a) {t : Trail} (ht : a.trail.next? = some (l, t)) :
    InStep base { a with trail := t } := by
  obtain ⟨-, rfl, hlt⟩ := Trail.next?_eq_some ht
  exact ⟨h.valuation_eq, h.fits, hlt, h.placed, h.descending⟩

/-! ### Going back -/

/-- A beginning of the trail fits the valuation at the start as well. -/
theorem fits_take (h : InStep base a) (position : Nat) :
    base.Fits (a.trail.toList.take position) := by
  have hfits := h.fits
  rw [← List.take_append_drop position a.trail.toList, Valuation.fits_append] at hfits
  exact hfits.1

@[simp] theorem toList_undo (a : Assignment) (position : Nat) (ds : List Decision) :
    (a.undo position ds).trail.toList = a.trail.toList.take position := by
  show (a.trail.literals.extract 0 position).toList = _
  rw [Array.toList_extract, List.extract_eq_take_drop, List.drop_zero, Nat.sub_zero, Trail.toList]

/-- Going back to a position restores the valuation that there was when the trail had
reached it. Top is never taken back, since it is never on the trail. -/
theorem valuation_undo (h : InStep base a) (htop : ¬ base.Open Atom.top) (position : Nat)
    (ds : List Decision) : (a.undo position ds).valuation = a.valuationAt base position := by
  have hfits := h.fits
  rw [← List.take_append_drop position a.trail.toList, Valuation.fits_append] at hfits
  have hval : a.valuation =
      (a.valuationAt base position).assignAll (a.trail.toList.drop position) := by
    rw [valuationAt, ← Valuation.assignAll_append, List.take_append_drop]
    exact h.valuation_eq
  -- what is taken back is what the trail has from the position on
  show (a.trail.toList.drop position).foldl (fun v l => v.release l.atom) a.valuation = _
  rw [hval]
  refine Valuation.release_assignAll hfits.2 fun l hl e => htop ?_
  have := h.fits.isOpen l (List.mem_of_mem_drop hl)
  rwa [e] at this

/-- To go back to a decision keeps step: what is left of the trail is what the valuation is made of,
and the decisions that are left are on it. -/
theorem InStep.undo (h : InStep base a) (htop : ¬ base.Open Atom.top) {d : Decision}
    {later ds : List Decision} (hds : a.trail.decisions = later ++ d :: ds) :
    InStep base (a.undo d.position ds) := by
  have hd : d ∈ a.trail.decisions := by simp [hds]
  have hdesc := h.descending
  rw [hds, List.pairwise_append, List.pairwise_cons] at hdesc
  have hlen : (a.trail.toList.take d.position).length = d.position := by
    rw [List.length_take]
    exact Nat.min_eq_left (Nat.le_of_lt (h.position_lt hd))
  constructor
  · rw [valuation_undo h htop, toList_undo, valuationAt]
  · rw [toList_undo]
    exact fits_take h d.position
  · rw [toList_undo, hlen]
    exact Nat.le_refl d.position
  · intro e he
    -- a decision that is kept stands before the position
    have hlt : e.position < d.position := hdesc.2.1.1 e he
    rw [toList_undo, List.getElem?_take_of_lt hlt]
    exact h.placed e (by rw [hds]; simp [show e ∈ ds from he])
  · exact hdesc.2.1.2

/-- Going back twice is going back to the earlier position. -/
theorem undo_undo (h : InStep base a) (htop : ¬ base.Open Atom.top) {d e : Decision}
    {later ds es : List Decision} (hds : a.trail.decisions = later ++ d :: ds) (he : e ∈ ds) :
    (a.undo d.position ds).undo e.position es = a.undo e.position es := by
  have hdesc := h.descending
  rw [hds, List.pairwise_append, List.pairwise_cons] at hdesc
  -- `e` is the earlier of the two, and what is cut off twice is cut off at its position
  have hlt : e.position < d.position := hdesc.2.1.1 e he
  have hval : ((a.undo d.position ds).undo e.position es).valuation =
      (a.undo e.position es).valuation := by
    rw [valuation_undo (h.undo htop hds) htop, valuation_undo h htop, valuationAt, valuationAt,
      toList_undo, List.take_take, Nat.min_eq_left (Nat.le_of_lt hlt)]
  have htrail : ((a.undo d.position ds).undo e.position es).trail =
      (a.undo e.position es).trail := by
    show Trail.mk ((a.trail.literals.extract 0 d.position).extract 0 e.position) es e.position =
      Trail.mk (a.trail.literals.extract 0 e.position) es e.position
    rw [Array.extract_extract, Nat.zero_add, Nat.zero_add, Nat.min_eq_left (Nat.le_of_lt hlt)]
  exact ext hval htrail

/-- The way back leads to the latest decision that has been tried one way only; every later
one has been tried both ways. -/
theorem backtrackThrough_eq_some (h : InStep base a) (htop : ¬ base.Open Atom.top)
    {a' : Assignment} {later ds : List Decision} (hds : a.trail.decisions = later ++ ds)
    (hb : backtrackThrough ds a = (some l, a')) :
    ∃ between d earlier, ds = between ++ d :: earlier ∧ (∀ e ∈ between, e.flipped = true) ∧
      d.flipped = false ∧ l = d.literal.negate ∧ a' = a.undo d.position earlier := by
  induction ds generalizing a later with
  | nil => simp [backtrackThrough] at hb
  | cons d ds ih =>
    simp only [backtrackThrough] at hb
    split at hb
    · rename_i hflip
      -- both ways of `d` have been tried: the way back goes on from before it
      have hrest : (a.undo d.position ds).trail.decisions = [] ++ ds := rfl
      obtain ⟨between, e, earlier, rfl, hbetween, he, hl, ha'⟩ := ih (h.undo htop hds) hrest hb
      refine ⟨d :: between, e, earlier, rfl, ?_, he, hl, ?_⟩
      · intro f hf
        rcases List.mem_cons.1 hf with rfl | hf
        · exact hflip
        · exact hbetween f hf
      · rw [ha', undo_undo h htop hds (by simp)]
    · rename_i hflip
      -- the other way of `d` is still to be tried
      obtain ⟨hl, ha'⟩ := Prod.mk.inj hb
      exact ⟨[], d, ds, rfl, by simp, by simpa using hflip, (Option.some.inj hl).symm, ha'.symm⟩

/-- There is nowhere to go back to only when every decision has been tried both ways. -/
theorem backtrackThrough_eq_none {a' : Assignment} {ds : List Decision}
    (hb : backtrackThrough ds a = (none, a')) : ∀ d ∈ ds, d.flipped = true := by
  induction ds generalizing a with
  | nil => simp
  | cons d ds ih =>
    simp only [backtrackThrough] at hb
    split at hb
    · rename_i hflip
      intro e he
      rcases List.mem_cons.1 he with rfl | he
      · exact hflip
      · exact ih hb e he
    · cases hb

/-- To go back is to go to the latest decision that has been tried one way only, past those that
have been tried both ways, and to give the other value there. -/
theorem backtrack_eq_some (h : InStep base a) (htop : ¬ base.Open Atom.top) {a' : Assignment}
    (hb : a.backtrack = (some l, a')) :
    ∃ between d earlier, a.trail.decisions = between ++ d :: earlier ∧
      (∀ e ∈ between, e.flipped = true) ∧ d.flipped = false ∧ l = d.literal.negate ∧
      a' = a.undo d.position earlier :=
  have hds : a.trail.decisions = [] ++ a.trail.decisions := rfl
  backtrackThrough_eq_some h htop hds hb

theorem backtrack_eq_none {a' : Assignment} (hb : a.backtrack = (none, a')) :
    ∀ d ∈ a.trail.decisions, d.flipped = true := backtrackThrough_eq_none hb

/-- The literal of a decision is off the trail once the search has gone back to before it. -/
theorem open_undo (h : InStep base a) (htop : ¬ base.Open Atom.top) {d : Decision}
    (hd : d ∈ a.trail.decisions) (ds : List Decision) :
    (a.undo d.position ds).valuation.Open d.literal.atom := by
  obtain ⟨hlt, hget⟩ := List.getElem?_eq_some_iff.1 (h.placed d hd)
  have hfits := h.fits
  rw [← List.take_append_drop d.position a.trail.toList, Valuation.fits_append] at hfits
  rw [valuation_undo h htop]
  refine hfits.2.isOpen d.literal ?_
  rw [List.drop_eq_getElem_cons hlt, hget]
  exact List.mem_cons_self

/-- The search goes on from where the way back leads with the other literal of the decision. -/
theorem InStep.backtrack (h : InStep base a) (htop : ¬ base.Open Atom.top) {b : Assignment}
    (hb : a.backtrack = (some l, b)) : InStep base (b.choose l true) := by
  obtain ⟨between, d, earlier, hds, -, -, rfl, rfl⟩ := backtrack_eq_some h htop hb
  have hopen : (a.undo d.position earlier).valuation.Open d.literal.negate.atom :=
    open_undo h htop (by simp [hds]) earlier
  exact (h.undo htop hds).choose hopen true

/-! ### Assuming literals

`assume` makes some of the given literals true and nothing else, so whatever such a move
keeps is kept by the whole. -/

/-- Assumptions are made one after the other, so what each literal without a value keeps is kept by
them all. -/
theorem assume_induction {P : Assignment → Prop} {ls : List Literal}
    (hstep : ∀ b, ∀ l ∈ ls, b.valuation.value? l.atom = none → P b → P (b.assign l))
    (ha : P a) : P (assume ls a).2 := by
  induction ls generalizing a with
  | nil => exact ha
  | cons l ls ih =>
    have hrest : ∀ b, ∀ m ∈ ls, b.valuation.value? m.atom = none → P b → P (b.assign m) :=
      fun b m hm => hstep b m (List.mem_cons_of_mem _ hm)
    unfold assume
    split
    · -- a literal with a value is either true already or ends the assumptions
      rename_i hnone
      exact ih hrest (hstep a l List.mem_cons_self hnone ha)
    · split
      · exact ih hrest ha
      · exact ha

/-- Assumptions are made in step. -/
theorem InStep.assume (h : InStep base a) {ls : List Literal}
    (hls : ∀ l ∈ ls, l.atom < base.size) : InStep base (assume ls a).2 := by
  refine assume_induction (fun b l hl hnone hb => ?_) h
  exact hb.assign (Valuation.open_of_value? (by rw [hb.size]; exact hls l hl) hnone)

/-- An assumption is no decision. -/
theorem decisions_assume (ls : List Literal) (a : Assignment) :
    (assume ls a).2.trail.decisions = a.trail.decisions :=
  assume_induction (P := fun b => b.trail.decisions = a.trail.decisions)
    (fun _ _ _ _ hb => hb) rfl

/-- Assumptions wait to be drawn from. -/
theorem propagated_assume (ls : List Literal) (a : Assignment) :
    (assume ls a).2.trail.propagated = a.trail.propagated :=
  assume_induction (P := fun b => b.trail.propagated = a.trail.propagated)
    (fun _ _ _ _ hb => hb) rfl

/-- What is on the trail after an assumption was there before or has been assumed. -/
theorem mem_toList_assume {ls : List Literal} {m : Literal}
    (hm : m ∈ (assume ls a).2.trail.toList) : m ∈ a.trail.toList ∨ m ∈ ls := by
  refine assume_induction (P := fun b => ∀ m ∈ b.trail.toList, m ∈ a.trail.toList ∨ m ∈ ls)
    (fun b l hl _ hb m hm => ?_) (fun m hm => Or.inl hm) m hm
  rw [show (b.assign l).trail.toList = b.trail.toList ++ [l] from Trail.toList_push b.trail l,
    List.mem_append, List.mem_singleton] at hm
  rcases hm with hm | rfl
  · exact hb m hm
  · exact Or.inr hl

/-- A value stays when other literals are assumed. -/
theorem value?_assume {ls : List Literal} {x : Atom} {b : Bool}
    (h : a.valuation.value? x = some b) : (assume ls a).2.valuation.value? x = some b := by
  refine assume_induction (P := fun c => c.valuation.value? x = some b) (fun c l _ hnone hc => ?_) h
  have hne : x ≠ l.atom := fun e => by rw [e, hnone] at hc; cases hc
  exact (Valuation.value?_assign_of_ne c.valuation hne).trans hc

/-- Assumptions that can all be made are all true afterwards. -/
theorem value?_of_assume_eq_true (h : InStep base a) {ls : List Literal}
    (hls : ∀ l ∈ ls, l.atom < base.size) (ht : (assume ls a).1 = true) :
    ∀ l ∈ ls, (assume ls a).2.valuation.value? l.atom = some l.positive := by
  induction ls generalizing a with
  | nil => simp
  | cons l ls ih =>
    have hl : l.atom < a.valuation.size := by rw [h.size]; exact hls l List.mem_cons_self
    have hrest : ∀ m ∈ ls, m.atom < base.size := fun m hm => hls m (List.mem_cons_of_mem _ hm)
    unfold assume at ht ⊢
    split at ht
    · rename_i hnone
      -- `l` was open and is made true now
      have hstep : InStep base (a.assign l) := h.assign (Valuation.open_of_value? hl hnone)
      intro m hm
      rcases List.mem_cons.1 hm with rfl | hm
      · exact value?_assume (Valuation.value?_assign_self hl)
      · exact ih hstep hrest ht m hm
    · rename_i b hb
      split at ht
      · rename_i hpos
        -- `l` had the right value before
        rw [if_pos hpos]
        intro m hm
        rcases List.mem_cons.1 hm with rfl | hm
        · exact value?_assume (hpos ▸ hb)
        · exact ih h hrest ht m hm
      · cases ht

/-- An assumption that is not possible is false under the values found up to it. -/
theorem value?_of_assume_eq_false {ls : List Literal} (hf : (assume ls a).1 = false) :
    ∃ l ∈ ls, (assume ls a).2.valuation.value? l.atom = some (!l.positive) := by
  induction ls generalizing a with
  | nil => cases hf
  | cons l ls ih =>
    unfold assume at hf ⊢
    split at hf
    · obtain ⟨m, hm, hv⟩ := ih hf
      exact ⟨m, List.mem_cons_of_mem _ hm, hv⟩
    · rename_i b hb
      split at hf
      · rename_i hpos
        rw [if_pos hpos]
        obtain ⟨m, hm, hv⟩ := ih hf
        exact ⟨m, List.mem_cons_of_mem _ hm, hv⟩
      · rename_i hpos
        rw [if_neg hpos]
        refine ⟨l, List.mem_cons_self, ?_⟩
        rw [hb]
        -- its value is not the one that is assumed, so it is the other
        cases b <;> cases hp : l.positive <;> simp_all

end Assignment

end Storyworld
