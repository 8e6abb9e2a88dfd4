import Storyworld.Proofs.Solver.Propagation

namespace Storyworld

/-!
# What a search keeps

A search looks for one of some candidates: interpretations in which every clause is true
and which agree with the valuation the search begins from. Between two rounds five things
hold of its assignment, put together in `Searching`:

* the valuation and the trail are in step;
* every literal on the trail follows from the decisions before it that have been tried one
  way only (`Justified`), so a decision tried both ways is no longer a choice;
* a clause that is false is still to be looked at (`Alert`);
* no clause was false when a decision was made (`Calm`), so none is after going back to it;
* the literals the search began with are still the first on the trail (`Rooted`).

A decision after propagation (`Searching.choose`) and the way back from a conflict
(`searching_backtrack`) keep all of them, and both lower a budget of rounds: `budget_choose`
and `budget_backtrack`.
-/

namespace Assignment

variable {clauses : Clauses} {base : Valuation} {candidate : Interpretation → Prop}
  {root : List Literal} {a b c : Assignment} {l : Literal}

/-- The clauses are over the atoms of the valuation and their index is right; the candidates
make every clause true, and agree with the valuation, in which top has a value. -/
structure SearchSpace (clauses : Clauses) (base : Valuation) (candidate : Interpretation → Prop) :
    Prop where
  indexed : clauses.Indexed base.size
  below : Clause.Below base.size clauses.all
  top : ¬ base.Open Atom.top
  isTrue : ∀ i, candidate i → ∀ c ∈ clauses.all, i.IsTrue c
  agrees : ∀ i, candidate i → i.Extends base

/-- The decisions up to a position that have been tried one way only are true. -/
def Chosen (i : Interpretation) (ds : List Decision) (position : Nat) : Prop :=
  ∀ d ∈ ds, d.flipped = false → d.position < position → i.Satisfies d.literal

/-- In each candidate the trail up to any position follows from the decisions before it. -/
def Justified (candidate : Interpretation → Prop) (a : Assignment) : Prop :=
  ∀ i, candidate i → ∀ n, Chosen i a.trail.decisions n → i.SatisfiesAll (a.trail.toList.take n)

/-- Something holds of every decision and of the valuation there was when it was made. -/
def AtDecisions (P : Valuation → Decision → Prop) (base : Valuation) (a : Assignment) : Prop :=
  ∀ d ∈ a.trail.decisions, P (a.valuationAt base d.position) d

/-- No clause was false when a decision was made. -/
def Calm (clauses : Clauses) (base : Valuation) (a : Assignment) : Prop :=
  ∀ d ∈ a.trail.decisions, ∀ c ∈ clauses.all,
    c.standing (a.valuationAt base d.position) ≠ .falsified

/-- The trail begins with some literals, and every decision comes after them. -/
def Rooted (root : List Literal) (a : Assignment) : Prop :=
  root <+: a.trail.toList ∧ ∀ d ∈ a.trail.decisions, root.length ≤ d.position

/-- What holds of an assignment between two rounds of a search. -/
structure Searching (clauses : Clauses) (base : Valuation) (candidate : Interpretation → Prop)
    (root : List Literal) (a : Assignment) : Prop where
  inStep : InStep base a
  justified : Justified candidate a
  alert : Alert clauses a
  calm : Calm clauses base a
  rooted : Rooted root a

/-! ### What follows from the decisions -/

/-- A candidate in which all decisions are true, but for those tried both ways, agrees with
the valuation. -/
theorem Justified.extends (h : Justified candidate a) (hspace : SearchSpace clauses base candidate)
    (hstep : InStep base a) {i : Interpretation} (hi : candidate i)
    (hchosen : Chosen i a.trail.decisions a.trail.toList.length) : i.Extends a.valuation := by
  rw [hstep.valuation_eq]
  have hall := h i hi _ hchosen
  rw [List.take_length] at hall
  exact Interpretation.extends_assignAll (hspace.agrees i hi) hall

/-- A literal that is put at the end counts only for those who look so far. -/
theorem satisfiesAll_take_concat {i : Interpretation} {ls : List Literal} {n : Nat}
    (hls : i.SatisfiesAll (ls.take n)) (hl : ls.length < n → i.Satisfies l) :
    i.SatisfiesAll ((ls ++ [l]).take n) := by
  rcases Nat.lt_or_ge ls.length n with hlt | hle
  · -- the literal added is among those taken
    rw [List.take_of_length_le (by rw [List.length_append, List.length_singleton]; exact hlt)]
    rw [List.take_of_length_le (Nat.le_of_lt hlt)] at hls
    intro m hm
    rcases List.mem_append.1 hm with hm | hm
    · exact hls m hm
    · rw [List.mem_singleton.1 hm]
      exact hl hlt
  · rwa [List.take_append_of_le_length hle]

/-- What a clause forces follows from what the trail holds already. -/
theorem Justified.assign (h : Justified candidate a) (hspace : SearchSpace clauses base candidate)
    (hstep : InStep base a) {cl : Clause} (hcl : cl ∈ clauses.all)
    (hl : cl.standing a.valuation = .forces l) : Justified candidate (a.assign l) := by
  intro i hi n hchosen
  show i.SatisfiesAll ((a.trail.push l).toList.take n)
  rw [Trail.toList_push]
  refine satisfiesAll_take_concat (h i hi n hchosen) fun hlt => ?_
  -- the position is past the end of the trail, so every decision is before it
  have hext : i.Extends a.valuation :=
    h.extends hspace hstep hi fun d hd hf hp => hchosen d hd hf (Nat.lt_trans hp hlt)
  exact Interpretation.satisfies_of_forces hext (hspace.isTrue i hi cl hcl) hl

/-- Propagation adds only what follows. -/
theorem Justified.propagate (h : Justified candidate a)
    (hspace : SearchSpace clauses base candidate) (hstep : InStep base a) : Justified candidate (propagate clauses a).2 := by
  refine (propagate_induction (P := fun b => InStep base b ∧ Justified candidate b)
    hspace.indexed (fun b cl hcl l hl hb => ?_) (fun b l t ht hb => ?_) ⟨hstep, h⟩).2
  · have hopen := hb.1.open_of_forces hspace.below hcl hl
    exact ⟨hb.1.assign hopen, hb.2.assign hspace hb.1 hcl hl⟩
  · refine ⟨hb.1.dequeue ht, ?_⟩
    obtain ⟨-, rfl, -⟩ := Trail.next?_eq_some ht
    exact hb.2

/-- A clause that is false rules out every candidate in which the decisions are true. -/
theorem Justified.not_chosen (h : Justified candidate a)
    (hspace : SearchSpace clauses base candidate) (hstep : InStep base a) {cl : Clause} (hcl : cl ∈ clauses.all)
    (hfalse : cl.standing a.valuation = .falsified) {i : Interpretation} (hi : candidate i) :
    ¬ ∀ d ∈ a.trail.decisions, d.flipped = false → i.Satisfies d.literal := by
  intro hall
  have hext : i.Extends a.valuation :=
    h.extends hspace hstep hi fun d hd hf _ => hall d hd hf
  exact Interpretation.not_isTrue_of_falsified hext hfalse (hspace.isTrue i hi cl hcl)

/-! ### What held at each decision

Between a decision and the way back from it the trail only grows, so the valuation at its
position stays the one it was made in. -/

section AtDecisions

variable {P : Valuation → Decision → Prop}

/-- A decision changes nothing of what was before it. -/
theorem valuationAt_choose (flipped : Bool) {position : Nat}
    (hp : position ≤ a.trail.toList.length) :
    (a.choose l flipped).valuationAt base position = a.valuationAt base position := by
  rw [valuationAt, valuationAt,
    show (a.choose l flipped).trail.toList = a.trail.toList ++ [l] from
      Trail.toList_pushDecision ..,
    List.take_append_of_le_length hp]

/-- At the end of the trail the valuation is the one that there is. -/
theorem InStep.valuationAt_length (h : InStep base a) :
    a.valuationAt base a.trail.toList.length = a.valuation := by
  rw [valuationAt, List.take_length, h.valuation_eq]

/-- Propagation makes no decision, and leaves what was there when one was made. -/
theorem AtDecisions.propagate (h : AtDecisions P base a) (hindexed : clauses.Indexed base.size)
    (hstep : InStep base a) : AtDecisions P base (propagate clauses a).2 := by
  intro d hd
  rw [decisions_propagate hindexed] at hd
  obtain ⟨more, hmore⟩ := prefix_propagate (a := a) hindexed
  have hlt := hstep.position_lt hd
  have hsame : (a.propagate clauses).2.valuationAt base d.position =
      a.valuationAt base d.position := by
    rw [valuationAt, valuationAt, ← hmore, List.take_append_of_le_length (Nat.le_of_lt hlt)]
  rw [hsame]
  exact h d hd

/-- A decision is made in the valuation that there is. -/
theorem AtDecisions.choose (h : AtDecisions P base a) (hstep : InStep base a) {flipped : Bool}
    (hnew : P a.valuation ⟨a.trail.literals.size, l, flipped⟩) :
    AtDecisions P base (a.choose l flipped) := by
  intro d hd
  rcases List.mem_cons.1 hd with rfl | hd
  · -- the new decision is made now
    show P ((a.choose l flipped).valuationAt base a.trail.literals.size) _
    rw [← Trail.length_toList, valuationAt_choose flipped (Nat.le_refl _), hstep.valuationAt_length,
      Trail.length_toList]
    exact hnew
  · rw [valuationAt_choose flipped (Nat.le_of_lt (hstep.position_lt hd))]
    exact h d hd

/-- The decisions that are left when one is taken back are those before it, where they were made. -/
theorem AtDecisions.undo (h : AtDecisions P base a) (hstep : InStep base a)
    {between earlier : List Decision} {d : Decision}
    (hds : a.trail.decisions = between ++ d :: earlier) :
    AtDecisions P base (a.undo d.position earlier) := by
  have hdesc := hstep.descending
  rw [hds, List.pairwise_append, List.pairwise_cons] at hdesc
  intro e he
  have he' : e ∈ earlier := he
  -- what is taken back comes after the earlier decisions
  have hle : e.position ≤ d.position := Nat.le_of_lt (hdesc.2.1.1 e he)
  rw [valuationAt, toList_undo, List.take_take, Nat.min_eq_left hle]
  exact h e (by simp [hds, he'])

end AtDecisions

/-! ### A search at its start -/

/-- At the start no decision has been made, so everything on the trail has to hold in every
candidate. -/
theorem searching_of_undecided (hstep : InStep base a) (hds : a.trail.decisions = [])
    (hjust : ∀ i, candidate i → i.SatisfiesAll a.trail.toList) (halert : Alert clauses a) :
    Searching clauses base candidate a.trail.toList a where
  inStep := hstep
  justified := fun i hi n _ l hl => hjust i hi l (List.mem_of_mem_take hl)
  alert := halert
  calm := by simp [Calm, hds]
  rooted := ⟨List.prefix_refl _, by simp [hds]⟩

/-! ### A round without a conflict -/

/-- Propagation looks back at no decision. -/
theorem calm_propagate (h : Calm clauses base a) (hspace : SearchSpace clauses base candidate)
    (hstep : InStep base a) : Calm clauses base (propagate clauses a).2 :=
  AtDecisions.propagate (P := fun v _ => ∀ c ∈ clauses.all, c.standing v ≠ .falsified) h
    hspace.indexed hstep

/-- Propagation only adds at the end of the trail. -/
theorem Rooted.propagate (h : Rooted root a) (hspace : SearchSpace clauses base candidate) :
    Rooted root (propagate clauses a).2 := by
  refine ⟨h.1.trans (prefix_propagate hspace.indexed), ?_⟩
  rw [decisions_propagate hspace.indexed]
  exact h.2

/-- When propagation meets no conflict, nothing waits and no clause is false. -/
theorem Searching.propagate (h : Searching clauses base candidate root a)
    (hspace : SearchSpace clauses base candidate) (hb : propagate clauses a = (none, b)) :
    Searching clauses base candidate root b ∧ b.trail.waiting = [] ∧
      ∀ cl ∈ clauses.all, cl.standing b.valuation ≠ .falsified := by
  have hstep := h.inStep.propagate hspace.indexed hspace.below
  have hjust := h.justified.propagate hspace h.inStep
  have hcalm := calm_propagate h.calm hspace h.inStep
  have hroot := h.rooted.propagate hspace
  have hnone := not_falsified_of_propagate h.alert h.inStep hspace.indexed hspace.below hb
  rw [hb] at hstep hjust hcalm hroot
  refine ⟨⟨hstep, hjust, ?_, hcalm, hroot⟩,
    waiting_propagate h.inStep hspace.indexed hspace.below hb, hnone⟩
  -- no clause is false, so there is none to be alert to
  intro cl hcl hfalse
  exact absurd hfalse (hnone cl hcl)

/-- A literal chosen when no clause is false and nothing waits is the only one that waits, and
the only one that a clause can have become false by. -/
theorem alert_choose (hstep : InStep base a) (hopen : a.valuation.Open l.atom)
    (hnone : ∀ cl ∈ clauses.all, cl.standing a.valuation ≠ .falsified) (flipped : Bool) :
    Alert clauses (a.choose l flipped) := by
  intro cl hcl hfalse
  rcases Clause.falsified_assign hopen hfalse with hold | hnew
  · exact absurd hold (hnone cl hcl)
  · refine ⟨l.negate, hnew, ?_⟩
    show l.negate.negate ∈ (a.trail.pushDecision l flipped).waiting
    rw [Trail.waiting_pushDecision hstep.propagated_le, Literal.negate_negate]
    simp

/-- A decision is made when no clause is false. -/
theorem calm_choose (h : Calm clauses base a) (hstep : InStep base a)
    (hnone : ∀ cl ∈ clauses.all, cl.standing a.valuation ≠ .falsified) (flipped : Bool) :
    Calm clauses base (a.choose l flipped) :=
  AtDecisions.choose (P := fun v _ => ∀ c ∈ clauses.all, c.standing v ≠ .falsified) h hstep hnone

/-- A decision comes after the literals that the search began with. -/
theorem Rooted.choose (h : Rooted root a) (l : Literal) (flipped : Bool) :
    Rooted root (a.choose l flipped) := by
  constructor
  · show root <+: (a.trail.pushDecision l flipped).toList
    rw [Trail.toList_pushDecision]
    exact h.1.trans (List.prefix_append _ _)
  · intro d hd
    rcases List.mem_cons.1 hd with rfl | hd
    · show root.length ≤ a.trail.literals.size
      rw [← Trail.length_toList]
      exact h.1.length_le
    · exact h.2 d hd

/-- A decision may be made freely: in a candidate in which it is not true there is nothing
to justify. -/
theorem Searching.choose (h : Searching clauses base candidate root a)
    (hopen : a.valuation.Open l.atom)
    (hnone : ∀ cl ∈ clauses.all, cl.standing a.valuation ≠ .falsified) :
    Searching clauses base candidate root (a.choose l false) where
  inStep := h.inStep.choose hopen false
  justified := by
    intro i hi n hchosen
    show i.SatisfiesAll ((a.trail.pushDecision l false).toList.take n)
    rw [Trail.toList_pushDecision]
    -- the literal itself is justified as a decision that has been tried one way only
    refine satisfiesAll_take_concat (h.justified i hi n fun d hd => ?_) fun hlt => ?_
    · exact hchosen d (List.mem_cons_of_mem _ hd)
    · rw [Trail.length_toList] at hlt
      exact hchosen ⟨a.trail.literals.size, l, false⟩ List.mem_cons_self rfl hlt
  alert := alert_choose h.inStep hopen hnone false
  calm := calm_choose h.calm h.inStep hnone false
  rooted := h.rooted.choose l false

/-! ### A round with a conflict -/

/-- After a conflict the opposite of the latest decision follows from the decisions before it:
those after it have been tried both ways. -/
theorem Justified.flip (h : Justified candidate a) (hspace : SearchSpace clauses base candidate)
    (hstep : InStep base a) {cl : Clause} (hcl : cl ∈ clauses.all)
    (hfalse : cl.standing a.valuation = .falsified) {between earlier : List Decision} {d : Decision}
    (hds : a.trail.decisions = between ++ d :: earlier)
    (hbetween : ∀ e ∈ between, e.flipped = true) :
    Justified candidate ((a.undo d.position earlier).choose d.literal.negate true) := by
  have hdesc := hstep.descending
  rw [hds, List.pairwise_append, List.pairwise_cons] at hdesc
  have hlen : (a.trail.toList.take d.position).length = d.position := by
    rw [List.length_take]
    exact Nat.min_eq_left (Nat.le_of_lt (hstep.position_lt (by simp [hds])))
  intro i hi n hchosen
  show i.SatisfiesAll (((a.undo d.position earlier).trail.pushDecision _ true).toList.take n)
  rw [Trail.toList_pushDecision, toList_undo]
  have hleft : Chosen i earlier n := fun e he => hchosen e (List.mem_cons_of_mem _ he)
  refine satisfiesAll_take_concat ?_ fun hlt => ?_
  · -- up to the position of `d` the decisions are the earlier ones
    rw [List.take_take]
    refine h i hi _ fun e he hf hp => ?_
    rw [hds, List.mem_append, List.mem_cons] at he
    rcases he with he | rfl | he
    · have := hdesc.2.2 e he d List.mem_cons_self
      omega
    · omega
    · exact hleft e he hf (by omega)
  · rw [hlen] at hlt
    -- a candidate with `d` as it was would have no decision that the conflict can be due to
    rw [Interpretation.satisfies_negate]
    intro hsat
    refine h.not_chosen hspace hstep hcl hfalse hi fun e he hf => ?_
    rw [hds, List.mem_append, List.mem_cons] at he
    rcases he with he | rfl | he
    · rw [hbetween e he] at hf
      cases hf
    · exact hsat
    · exact hleft e he hf (Nat.lt_trans (hdesc.2.1.1 e he) hlt)

/-- No clause was false when the decisions were made that are left. -/
theorem Calm.undo (h : Calm clauses base a) (hstep : InStep base a)
    {between earlier : List Decision} {d : Decision}
    (hds : a.trail.decisions = between ++ d :: earlier) :
    Calm clauses base (a.undo d.position earlier) :=
  AtDecisions.undo (P := fun v _ => ∀ c ∈ clauses.all, c.standing v ≠ .falsified) h hstep hds

/-- To go back to a decision keeps the literals that the search began with, as the decision came
after them. -/
theorem Rooted.undo (h : Rooted root a) {between earlier : List Decision} {d : Decision}
    (hds : a.trail.decisions = between ++ d :: earlier) :
    Rooted root (a.undo d.position earlier) := by
  refine ⟨?_, fun e he => h.2 e (by simp [hds, show e ∈ earlier from he])⟩
  rw [toList_undo, List.prefix_take_iff]
  exact ⟨h.1, h.2 d (by simp [hds])⟩

/-- A search goes on after a conflict with the opposite of the decision it has gone back to.
Nothing waits there, and no clause is false, as when the decision was made. -/
theorem searching_backtrack (hstep : InStep base a) (hjust : Justified candidate a)
    (hcalm : Calm clauses base a) (hroot : Rooted root a)
    (hspace : SearchSpace clauses base candidate) {cl : Clause} (hcl : cl ∈ clauses.all)
    (hfalse : cl.standing a.valuation = .falsified) (hb : a.backtrack = (some l, b)) :
    Searching clauses base candidate root (b.choose l true) := by
  obtain ⟨between, d, earlier, hds, hbetween, -, rfl, rfl⟩ :=
    backtrack_eq_some hstep hspace.top hb
  have hmem : d ∈ a.trail.decisions := by simp [hds]
  have hback := hstep.undo hspace.top hds
  have hopen : (a.undo d.position earlier).valuation.Open d.literal.negate.atom :=
    open_undo hstep hspace.top hmem earlier
  -- it was calm when `d` was made
  have hnone : ∀ e ∈ clauses.all,
      e.standing (a.undo d.position earlier).valuation ≠ .falsified := by
    rw [valuation_undo hstep hspace.top]
    exact hcalm d hmem
  exact ⟨hback.choose hopen true, hjust.flip hspace hstep hcl hfalse hds hbetween,
    alert_choose hback hopen hnone true, calm_choose (hcalm.undo hstep hds) hback hnone true,
    (hroot.undo hds).choose _ true⟩

/-- When every decision has been tried both ways there is no candidate. -/
theorem Justified.no_candidate (h : Justified candidate a)
    (hspace : SearchSpace clauses base candidate) (hstep : InStep base a) {cl : Clause}
    (hcl : cl ∈ clauses.all) (hfalse : cl.standing a.valuation = .falsified)
    (hb : a.backtrack = (none, b)) : ∀ i, ¬ candidate i := by
  intro i hi
  refine h.not_chosen hspace hstep hcl hfalse hi fun d hd hf => ?_
  rw [backtrack_eq_none hb d hd] at hf
  cases hf

/-! ### The budget of a search -/

/-- The rounds that may be needed when that many atoms are open: one, and then those for each
of the two values of an atom. -/
def treeSize (n : Nat) : Nat := Nat.pow 2 (n + 1) - 1

/-- One round is needed in any case. -/
theorem treeSize_pos (n : Nat) : 0 < treeSize n := by
  have hpow : 1 < Nat.pow 2 (n + 1) := Nat.one_lt_two_pow (Nat.succ_ne_zero n)
  rw [treeSize]
  omega

/-- A further atom doubles the rounds and adds the one in which it is decided. -/
theorem treeSize_succ (n : Nat) : treeSize (n + 1) = treeSize n + treeSize n + 1 := by
  have hpow : 1 < Nat.pow 2 (n + 1) := Nat.one_lt_two_pow (Nat.succ_ne_zero n)
  have hsucc : Nat.pow 2 (n + 1 + 1) = Nat.pow 2 (n + 1) * 2 := rfl
  rw [treeSize, treeSize, hsucc]
  omega

/-- More open atoms need no fewer rounds. -/
theorem treeSize_mono {m n : Nat} (h : m ≤ n) : treeSize m ≤ treeSize n :=
  Nat.sub_le_sub_right (Nat.pow_le_pow_right (by omega) (by omega)) 1

/-- The rounds that may be needed for the decisions that are still to be tried the other way. -/
def leftOver (n : Nat) : List Decision → Nat
  | [] => 0
  | d :: ds => (if d.flipped then 0 else treeSize (n - d.position - 1)) + leftOver n ds

/-- The rounds that may still be needed, in a search that began with that many open atoms. -/
def budget (n : Nat) (a : Assignment) : Nat :=
  treeSize (n - a.trail.toList.length) + leftOver n a.trail.decisions

/-- The rounds that are left over add up. -/
theorem leftOver_append (n : Nat) (ds es : List Decision) :
    leftOver n (ds ++ es) = leftOver n ds + leftOver n es := by
  induction ds with
  | nil => rw [List.nil_append, leftOver, Nat.zero_add]
  | cons d ds ih => rw [List.cons_append, leftOver, leftOver, ih, Nat.add_assoc]

/-- There is always a round to go. -/
theorem budget_pos (n : Nat) (a : Assignment) : 0 < budget n a :=
  Nat.add_pos_left (treeSize_pos _) _

/-- With nothing decided yet, the budget is that of the atoms that are open. -/
theorem budget_of_undecided (h : InStep base a) (hds : a.trail.decisions = []) :
    budget base.openCount a = treeSize a.valuation.openCount := by
  have hcount := h.openCount
  rw [budget, hds, leftOver, Nat.add_zero,
    show base.openCount - a.trail.toList.length = a.valuation.openCount by omega]

/-- Propagation closes atoms, and so does not raise the budget. -/
theorem budget_propagate (hspace : SearchSpace clauses base candidate) (n : Nat) :
    budget n (Assignment.propagate clauses a).2 ≤ budget n a := by
  have hlen := (prefix_propagate (a := a) hspace.indexed).length_le
  rw [budget, budget, decisions_propagate hspace.indexed]
  exact Nat.add_le_add_right (treeSize_mono (by omega)) _

/-- A decision takes one round, and leaves those for both values of its atom. -/
theorem budget_choose (h : InStep base a) (hopen : a.valuation.Open l.atom) :
    budget base.openCount (a.choose l false) < budget base.openCount a := by
  have hcount := h.openCount
  have hassign := Valuation.openCount_assign hopen
  have hsucc := treeSize_succ (base.openCount - a.trail.toList.length - 1)
  rw [show base.openCount - a.trail.toList.length - 1 + 1 =
    base.openCount - a.trail.toList.length by omega] at hsucc
  have hlen : (a.choose l false).trail.toList.length = a.trail.toList.length + 1 := by
    show (a.trail.pushDecision l false).toList.length = _
    rw [Trail.toList_pushDecision, List.length_append, List.length_singleton]
  have hds : leftOver base.openCount (a.choose l false).trail.decisions =
      treeSize (base.openCount - a.trail.toList.length - 1) +
        leftOver base.openCount a.trail.decisions := by
    rw [Trail.length_toList]
    rfl
  -- one tree is split into the two of the next depth, and one round is spent
  rw [budget, budget, hlen, hds, Nat.sub_add_eq]
  omega

/-- Going back to a decision spends what the conflict had left, and takes what the decision
had kept for its other value. -/
theorem budget_backtrack (h : InStep base a) (htop : ¬ base.Open Atom.top)
    (hb : a.backtrack = (some l, b)) :
    budget base.openCount (b.choose l true) < budget base.openCount a := by
  obtain ⟨between, d, earlier, hds, -, hd, -, rfl⟩ := backtrack_eq_some h htop hb
  have hmem : d ∈ a.trail.decisions := by simp [hds]
  have hlen : ((a.undo d.position earlier).choose l true).trail.toList.length = d.position + 1 := by
    show ((a.undo d.position earlier).trail.pushDecision l true).toList.length = _
    rw [Trail.toList_pushDecision, toList_undo, List.length_append, List.length_take,
      List.length_singleton, Nat.min_eq_left (Nat.le_of_lt (h.position_lt hmem))]
  -- a decision tried both ways keeps nothing
  have hleft : leftOver base.openCount ((a.undo d.position earlier).choose l true).trail.decisions =
      leftOver base.openCount earlier := Nat.zero_add _
  have hpos := treeSize_pos (base.openCount - a.trail.toList.length)
  have hkept : leftOver base.openCount (d :: earlier) =
      treeSize (base.openCount - d.position - 1) + leftOver base.openCount earlier := by
    rw [leftOver, hd]
    rfl
  rw [budget, budget, hlen, hleft, hds, leftOver_append, hkept, Nat.sub_add_eq]
  omega

end Assignment

end Storyworld
