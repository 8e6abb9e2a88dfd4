import Mathlib.Data.Set.Lattice
import Mathlib.Order.Bounds.Basic
import Mathlib.Order.CompletePartialOrder
import Mathlib.Order.Fin.Basic
import Mathlib.Order.PiLex
import Storyworld.Proofs.Solver.Attained

namespace Storyworld

/-!
# Which model a search finds

A search keeps deciding by the same rule, and everything on its trail follows from the
decisions that have been tried one way only (`Justified`). So the model it finds is the only
one in which those decisions are true (`Ended.extends`), and what the rule says of them
tells which model that is:

* when decisions make their atoms false, no model has a smaller set of true atoms
  (`Attained.solve_minimal`), however the atoms are picked;
* when decisions are on the lowest open atom and always give it the same value, the model is
  the first or the last one in the lexicographic order (`Reachable.solve_extremal`).

The second needs more than the decisions that stand at the end: a decision has to be on a
lower atom than all that comes after it on the trail, and this is seen in the valuation in
which it was made (`AtDecisions`).
-/

namespace Valuation

/-- The first of the open atoms is the lowest. -/
theorem le_of_head?_openAtoms {v : Valuation} {x y : Atom} (hx : v.openAtoms.head? = some x)
    (htop : y ≠ Atom.top) (hy : v.Open y) : x ≤ y := by
  have hsorted : v.openAtoms.Pairwise (· < ·) := List.pairwise_lt_range.filter _
  have hmem : y ∈ v.openAtoms := mem_openAtoms.2 ⟨htop, hy⟩
  obtain ⟨rest, hrest⟩ := List.head?_eq_some_iff.1 hx
  rw [hrest, List.pairwise_cons] at hsorted
  rw [hrest, List.mem_cons] at hmem
  rcases hmem with rfl | hmem
  · exact Nat.le_refl y
  · exact Nat.le_of_lt (hsorted.1 y hmem)

end Valuation

/-! ### Decisions that follow a rule -/

namespace Assignment

variable {clauses : Clauses} {base : Valuation} {candidate : Interpretation → Prop}
  {root : List Literal} {rule : Valuation → Literal → Prop} {a : Assignment}

/-- The rule allows each decision that has been tried one way only. -/
def Made (rule : Valuation → Literal → Prop) (base : Valuation) (a : Assignment) : Prop :=
  AtDecisions (fun v d => d.flipped = false → rule v d.literal) base a

/-- How a search by a rule ends that has found a valuation. -/
structure Ended (clauses : Clauses) (base : Valuation) (candidate : Interpretation → Prop)
    (rule : Valuation → Literal → Prop) (a : Assignment) : Prop where
  space : SearchSpace clauses base candidate
  inStep : InStep base a
  justified : Justified candidate a
  made : Made rule base a
  filled : a.valuation.openAtoms = []

/-- Where a search has ended with a model every atom has a value. -/
theorem Ended.exists_value? (h : Ended clauses base candidate rule a) {x : Atom}
    (hx : x < base.size) : ∃ b, a.valuation.value? x = some b := by
  cases hval : a.valuation.value? x with
  | some b => exact ⟨b, rfl⟩
  | none =>
    exfalso
    have hopen : a.valuation.Open x := Valuation.open_of_value? (by rwa [h.inStep.size]) hval
    have hnot : x ∉ a.valuation.openAtoms := by
      rw [h.filled]
      exact List.not_mem_nil
    -- only top may be open and not be among the open atoms
    have htop : x = Atom.top := by
      by_contra hne
      exact hnot (Valuation.mem_openAtoms.2 ⟨hne, hopen⟩)
    subst htop
    have hbase : base.value? Atom.top = none := by
      cases hb : base.value? Atom.top with
      | none => rfl
      | some b => rw [h.inStep.value?_of_base hb] at hval; cases hval
    exact h.space.top (Valuation.open_of_value? hx hbase)

/-- A candidate in which the decisions are true that have been tried one way only agrees with
the valuation that was found. -/
theorem Ended.extends (h : Ended clauses base candidate rule a) {i : Interpretation}
    (hi : candidate i)
    (hall : ∀ d ∈ a.trail.decisions, d.flipped = false → i.Satisfies d.literal) :
    i.Extends a.valuation :=
  h.justified.extends h.space h.inStep hi fun d hd hf _ => hall d hd hf

/-- The literal of a decision on the trail is true. -/
theorem InStep.value?_decision (h : InStep base a) {d : Decision} (hd : d ∈ a.trail.decisions) :
    a.valuation.value? d.literal.atom = some d.literal.positive :=
  h.value?_of_mem (List.mem_of_getElem? (h.placed d hd))

/-- An atom whose value is on the trail from some position on was open when the trail had reached
that position. -/
theorem InStep.open_valuationAt (h : InStep base a) {l : Literal} {k position : Nat}
    (hk : a.trail.toList[k]? = some l) (hle : position ≤ k) :
    (a.valuationAt base position).Open l.atom := by
  have hfits := h.fits
  rw [← List.take_append_drop position a.trail.toList, Valuation.fits_append] at hfits
  refine hfits.2.isOpen l (List.mem_of_getElem? (i := k - position) ?_)
  rw [List.getElem?_drop, Nat.add_sub_cancel' hle, hk]

/-! ### The first atom on which a candidate differs -/

/-- Decisions are on an atom below all others that are open, and give it that value. -/
def LowestFirst (preferred : Bool) (v : Valuation) (l : Literal) : Prop :=
  l.positive = preferred ∧ ∀ x, x ≠ Atom.top → v.Open x → l.atom ≤ x

/-- When decisions are on the lowest open atom, a value other than the preferred one follows from
the values of the atoms below. So a candidate has it too that agrees on those. -/
theorem Ended.value_of_agrees {preferred : Bool}
    (h : Ended clauses base candidate (LowestFirst preferred) a) {i : Interpretation}
    (hi : candidate i) {x : Atom} (hx : a.valuation.value? x = some !preferred)
    (hagrees : ∀ y < x, ∀ b, a.valuation.value? y = some b → i y = b) : i x = !preferred := by
  have hval := hx
  rw [h.inStep.valuation_eq] at hval
  rcases Valuation.value?_assignAll_cases hval with hbase | hmem
  · exact h.space.agrees i hi x _ hbase
  · obtain ⟨k, hk⟩ := List.getElem?_of_mem hmem
    -- `x` has no value yet in the base, so it is not top
    have htop : x ≠ Atom.top := fun e => h.space.top (e ▸ h.inStep.fits.isOpen _ hmem)
    have hchosen : Chosen i a.trail.decisions (k + 1) := by
      intro d hd hf hp
      have hrule := h.made d hd hf
      have hopen : (a.valuationAt base d.position).Open x :=
        h.inStep.open_valuationAt hk (Nat.le_of_lt_succ hp)
      have hdval := h.inStep.value?_decision hd
      -- `x` was open when the decision was made, and it is not the atom of the decision
      have hne : d.literal.atom ≠ x := by
        intro e
        rw [e, hx, hrule.1] at hdval
        exact Bool.not_ne_self preferred (Option.some.inj hdval)
      exact hagrees _ (Nat.lt_of_le_of_ne (hrule.2 x htop hopen) hne) _ hdval
    refine h.justified i hi _ hchosen ⟨x, !preferred⟩ ?_
    exact List.mem_of_getElem? ((List.getElem?_take_of_lt (Nat.lt_succ_self k)).trans hk)

end Assignment

/-! ### What decisions are like -/

namespace Solver

open Assignment

variable {ρ : Type} [RandomSource ρ] {s : Solver ρ} {optimize : Bool}
  {rule : Valuation → Literal → Prop}

/-- The rule allows whatever a solver with that configuration decides. -/
def Follows (ρ : Type) [RandomSource ρ] (rule : Valuation → Literal → Prop) (optimize : Bool)
    (config : Config) : Prop :=
  ∀ (s t : Solver ρ) (l : Literal), decide? optimize s = (some l, t) → s.config = config →
    rule s.work.valuation l

/-- A decision is on the open atom that is picked, with the value that is drawn for it. -/
theorem decide?_literal {t : Solver ρ} {l : Literal} (h : decide? optimize s = (some l, t)) :
    (openAtom? s).1 = some l.atom ∧
      ∃ u : Solver ρ, u.config = s.config ∧ l.positive = (polarity optimize u).1 := by
  obtain ⟨source, hsource⟩ := openAtom?_snd s
  unfold decide? at h
  split at h
  · cases h
  · rename_i x u hx
    rw [hx] at hsource ⊢
    have hu : u = { s with source } := hsource
    subst hu
    obtain ⟨hl, -⟩ := Prod.mk.inj h
    cases hl
    -- the polarity is drawn after the atom, with one decision more counted
    let counters := { s.counters with decisions := s.counters.decisions + 1 }
    exact ⟨rfl, { s with source, counters }, rfl, rfl⟩

/-- Without a bias for random atoms the lowest open one is picked. -/
theorem openAtom?_of_zero (h : (s.config.randomDecisionBias.value == 0) = true) :
    (openAtom? s).1 = s.work.valuation.openAtoms.head? := by
  have hcoin := RandomSource.coin_of_zero h s.source
  unfold openAtom?
  dsimp only
  rw [hcoin, if_neg Bool.false_ne_true]

/-- A polarity that never leans to true makes atoms false. -/
theorem polarity_of_zero (h : (s.config.polarityLean.value == 0) = true) :
    (polarity optimize s).1 = false := by
  cases optimize with
  | true => rfl
  | false => exact RandomSource.coin_of_zero h s.source

/-- A polarity that always leans to true makes atoms true, unless the search optimizes. -/
theorem polarity_of_one (h : (s.config.polarityLean.value == 1) = true) :
    (polarity false s).1 = true := RandomSource.coin_of_one h s.source

/-- When optimizing, decisions make their atoms false, whichever these are. -/
theorem follows_optimize (config : Config) :
    Follows ρ (fun _ l => l.positive = false) true config := by
  intro s t l h _
  obtain ⟨-, u, -, hl⟩ := decide?_literal h
  exact hl

/-- Decisions are on the lowest open atom, and the value they give it is certain. -/
def Prefers (config : Config) (optimize : Bool) : Bool → Prop
  | false => (config.randomDecisionBias.value == 0) = true ∧
      (optimize = true ∨ (config.polarityLean.value == 0) = true)
  | true => (config.randomDecisionBias.value == 0) = true ∧
      optimize = false ∧ (config.polarityLean.value == 1) = true

/-- Where nothing is left to chance, the lowest open atom is given the value that is preferred. -/
theorem follows_lowestFirst {config : Config} {preferred : Bool}
    (h : Prefers config optimize preferred) :
    Follows ρ (LowestFirst preferred) optimize config := by
  intro s t l hl hs
  subst hs
  obtain ⟨hatom, u, hu, hpos⟩ := decide?_literal hl
  -- atoms are never picked at random, so the first open one is taken
  have hbias : (s.config.randomDecisionBias.value == 0) = true := by
    cases preferred with
    | false => exact h.1
    | true => exact h.1
  rw [openAtom?_of_zero hbias] at hatom
  refine ⟨?_, fun x htop hopen => Valuation.le_of_head?_openAtoms hatom htop hopen⟩
  rw [hpos]
  -- the polarity is what is preferred: by optimizing, or by a bias that leaves no choice
  cases preferred with
  | true =>
    obtain ⟨-, rfl, hlean⟩ := h
    exact polarity_of_one (hu ▸ hlean)
  | false =>
    rcases h.2 with rfl | hlean
    · rfl
    · exact polarity_of_zero (hu ▸ hlean)

/-! ### Rounds -/

/-- A round makes at most one decision, which the rule allows, and keeps those before. -/
theorem round_made {base : Valuation} {root : List Literal} {candidate : Interpretation → Prop}
    (hspace : SearchSpace s.clauses base candidate)
    (h : Searching s.clauses base candidate root s.work) (hmade : Assignment.Made rule base s.work)
    (hrule : Follows ρ rule optimize s.config) (hended : (s.round optimize).1 ≠ .exhausted) :
    Assignment.Made rule base (s.round optimize).2.work := by
  have hstep := h.inStep.propagate hspace.indexed hspace.below
  have hmade := hmade.propagate hspace.indexed h.inStep
  unfold round at hended ⊢
  dsimp only at hended ⊢
  split
  · rename_i b hb
    rw [hb] at hstep hmade
    split
    · rename_i t ht
      obtain ⟨-, counters, source, rfl⟩ := decide?_eq_none ht
      exact hmade
    · rename_i l t ht
      have hallowed : rule b.valuation l := hrule _ t l ht rfl
      obtain ⟨-, counters, source, rfl⟩ := decide?_eq_some ht
      exact hmade.choose hstep fun _ => hallowed
  · rename_i key b hb
    rw [hb] at hstep hmade hended
    dsimp only at hended
    split
    · rename_i w hw
      rw [hw] at hended
      exact absurd rfl hended
    · rename_i l w hw
      -- the decision that the search has gone back to is now tried both ways
      obtain ⟨between, d, earlier, hds, -, -, -, rfl⟩ := backtrack_eq_some hstep hspace.top hw
      exact (hmade.undo hstep hds).choose (hstep.undo hspace.top hds) nofun

/-- Whatever rounds a search takes, the rule allows the decisions that stand. -/
theorem rounds_made {base : Valuation} {root : List Literal} {candidate : Interpretation → Prop}
    {n : Nat} (hspace : SearchSpace s.clauses base candidate)
    (h : Searching s.clauses base candidate root s.work) (hmade : Assignment.Made rule base s.work)
    (hrule : Follows ρ rule optimize s.config) (hended : (rounds optimize n s).1 = .found) :
    Assignment.Made rule base (rounds optimize n s).2.work := by
  induction n generalizing s with
  | zero => cases hended
  | succ n ih =>
    have hcont := round_continues optimize s
    have hout := round_spec optimize hspace h
    have hround := round_made hspace h hmade hrule
    unfold rounds at hended ⊢
    split at hended
    · rename_i t ht
      rw [ht] at hcont hout hround
      obtain ⟨counters, work, source, rfl⟩ := hcont
      -- the rule depends on the configuration only, which a round leaves alone
      exact ih (s := { s with counters, work, source }) hspace hout (hround nofun) hrule hended
    · rename_i ended t hne ht
      rw [ht] at hround
      exact hround (by rw [show ended = .found from hended]; nofun)

/-! ### How a search ends that finds a model -/

/-- A search that finds a model has ended by the rule, with the model as its valuation. -/
theorem search_ended (hs : s.WellFormed) (hcurrent : s.UpToDate)
    (htop : s.rules.supportsOf Atom.top = []) (hrule : Follows ρ rule optimize s.config) {m : Model}
    (hm : (search optimize s).1 = some m) :
    ∃ a, Ended s.clauses s.fixed (fun i => i.IsModel s.formula ∧ i.SatisfiesAll s.assumptions)
        rule a ∧
      s.fixed.size = s.atoms.count ∧ m = Model.ofValuation a.valuation s.atoms.count := by
  obtain ⟨hsearch, -⟩ | ⟨hsettles, a, b, t, ha, ht, rfl, hout, hsearch⟩ :=
    search_ends hs hcurrent (hs.seen (.inl htop)) optimize
  · rw [hsearch] at hm
    cases hm
  · have hspace := searchSpace_fixed hs hcurrent hsettles
    have hsearching := (searching_assumed hs hcurrent hsettles ha).1
    -- no decision has been made where the rounds begin
    have hstart : Assignment.Made rule s.fixed a := by
      have hundecided := decisions_assume s.assumptions ⟨s.fixed, {}⟩
      rw [ha] at hundecided
      intro d hd
      rw [show a.trail.decisions = [] from hundecided] at hd
      cases hd
    have hmade := rounds_made (s := { s with work := a }) (n := roundLimit a.valuation)
      hspace hsearching hstart hrule (by rw [ht])
    rw [ht] at hmade
    obtain ⟨hfound, hfilled, -⟩ := hout
    rw [hsearch] at hm
    exact ⟨t.work, ⟨hspace, hfound.inStep, hfound.justified, hmade, hfilled⟩,
      hsettles.size, (Option.some.inj hm).symm⟩

/-- So has a solve that finds a model, once what the constraints fix is known. -/
theorem WellFormed.solve_ended (hs : s.WellFormed) (htop : s.rules.supportsOf Atom.top = [])
    (hrule : Follows ρ rule optimize s.config) {m : Model} (hm : (s.solve optimize).1 = some m) :
    ∃ clauses base a,
      Ended clauses base (fun i => i.IsModel s.formula ∧ i.SatisfiesAll s.assumptions) rule a ∧
        base.size = s.atoms.count ∧ m = Model.ofValuation a.valuation s.atoms.count := by
  obtain ⟨t, ht, hcurrent, hsolve, hconfig, hatoms, hrules, hassumptions, hformula⟩ :=
    hs.solve_eq optimize
  rw [hsolve] at hm
  rw [← hconfig] at hrule
  rw [← hatoms, ← hassumptions, ← hformula]
  obtain ⟨a, hended⟩ := search_ended ht hcurrent (by rw [hrules]; exact htop) hrule hm
  exact ⟨t.clauses, t.fixed, a, hended⟩

/-- The model that is found has the values of the valuation in which the search has ended. -/
theorem value?_ended {clauses : Clauses} {base : Valuation} {candidate : Interpretation → Prop}
    {a : Assignment} {count : Nat} (h : Ended clauses base candidate rule a)
    (hsize : base.size = count) {x : Atom} (hx : x < count) :
    a.valuation.value? x = some ((Model.ofValuation a.valuation count).interpretation x) := by
  obtain ⟨b, hb⟩ := h.exists_value? (hsize.symm ▸ hx)
  have hsat : (Model.ofValuation a.valuation count).interpretation.Satisfies ⟨x, b⟩ :=
    Model.satisfies_ofValuation hx hb
  rw [hb, show _ = b from hsat]

end Solver

/-! ### The least set of true atoms -/

/-- The atoms below a bound that are true. -/
def Interpretation.trueAtoms (count : Nat) (i : Interpretation) : Set Atom :=
  {x | x < count ∧ i x = true}

namespace Solver

open Assignment

variable {ρ : Type} [RandomSource ρ] {s : Solver ρ}

/-- An interpretation that satisfies everything has all true atoms of an optimized model, if it has
no others. -/
theorem WellFormed.trueAtoms_subset (hs : s.WellFormed) (htop : s.rules.supportsOf Atom.top = [])
    {m : Model} (hm : (s.solve true).1 = some m) {i : Interpretation} (hi : i.IsModel s.formula)
    (hls : i.SatisfiesAll s.assumptions)
    (hsub : i.trueAtoms s.atoms.count ⊆ m.interpretation.trueAtoms s.atoms.count) :
    m.interpretation.trueAtoms s.atoms.count ⊆ i.trueAtoms s.atoms.count := by
  obtain ⟨clauses, base, a, hended, hsize, rfl⟩ :=
    hs.solve_ended htop (follows_optimize s.config) hm
  -- an atom that a decision has made false is false in `i` as well, which has no more true atoms
  have hext : i.Extends a.valuation := by
    refine hended.extends ⟨hi, hls⟩ fun d hd hf => ?_
    have hfalse : d.literal.positive = false := hended.made d hd hf
    have hdval := hended.inStep.value?_decision hd
    have hlt : d.literal.atom < s.atoms.count := by
      rw [← hsize]
      exact (hended.inStep.fits.isOpen _ (List.mem_of_getElem? (hended.inStep.placed d hd))).lt
    rw [value?_ended hended hsize hlt, hfalse] at hdval
    rw [Interpretation.Satisfies, hfalse, Bool.eq_false_iff]
    intro htrue
    have hmem := (hsub (show d.literal.atom ∈ i.trueAtoms s.atoms.count from ⟨hlt, htrue⟩)).2
    rw [Option.some.inj hdval] at hmem
    cases hmem
  refine fun x hx => ⟨hx.1, ?_⟩
  rw [← hx.2]
  exact hext x _ (value?_ended hended hsize hx.1)

/-- **An optimized model is minimal.** Whatever the configuration is, however the atoms to decide
are picked and whatever solves were broken off before: in no interpretation that satisfies the
asserted clauses, the completion clauses and the assumptions do the true atoms form a proper subset
of those of the model that an optimizing search finds. -/
theorem Attained.solve_minimal (hs : s.Attained)
    (htop : ∀ rule ∈ s.rules.recorded, rule.1 ≠ Atom.top) {m : Model}
    (hm : (s.solve true).1 = some m) {i : Interpretation} (hi : i.IsModel s.formula)
    (hls : i.SatisfiesAll s.assumptions) :
    ¬ i.trueAtoms s.atoms.count ⊂ m.interpretation.trueAtoms s.atoms.count := by
  have hwf := hs.wellFormed
  rintro ⟨hsub, hnot⟩
  exact hnot (hwf.trueAtoms_subset (hwf.supportsOf_eq_nil htop) hm hi hls hsub)

/-- One of two atoms has to be true. A solve was broken off after its first decision. In the next
one the atom that is made false is again picked at random, and a model in which it is true and the
other false is no better. -/
theorem solve_minimal_clause :
    let bias : Setting Float := ⟨"random_decision_bias", 0, 1, 1⟩
    let s : Solver Pcg := happen [.move (.freshAtom none), .move (.freshAtom none),
      .move (.addClause [Literal.pos 1, Literal.pos 2]), .interrupt true 1]
        (ofConfig { randomDecisionBias := bias } (Pcg.ofSeed 0))
    let i : Interpretation := fun x => x != 1
    s.Attained ∧ (∀ rule ∈ s.rules.recorded, rule.1 ≠ Atom.top) ∧
      (s.solve true).1 = some ⟨#[true, true, false]⟩ ∧ i.IsModel s.formula ∧
      i.SatisfiesAll s.assumptions ∧
      ¬ i.trueAtoms s.atoms.count ⊂
        (Model.interpretation ⟨#[true, true, false]⟩).trueAtoms s.atoms.count := by
  intro bias s i
  have hs : s.Attained := (Attained.start _ (Pcg.ofSeed 0)).happen _
  have htop : ∀ rule ∈ s.rules.recorded, rule.1 ≠ Atom.top := by decide +kernel
  have hm : (s.solve true).1 = some ⟨#[true, true, false]⟩ := by decide +kernel
  have hclauses : ∀ c ∈ s.formula, ∃ l ∈ c, i.Satisfies l := by decide +kernel
  have hi : i.IsModel s.formula := ⟨rfl, hclauses⟩
  have hls : i.SatisfiesAll s.assumptions := by decide +kernel
  exact ⟨hs, htop, hm, hi, hls, hs.solve_minimal htop hm hi hls⟩

end Solver

/-! ### The first and the last model -/

/-- The values of the atoms below a bound, compared in the order of the atoms and with false before
true. -/
def Interpretation.values (count : Nat) (i : Interpretation) : Lex (Fin count → Bool) :=
  toLex fun x => i x

namespace Interpretation

/-- Of two interpretations that one comes first which is false in the first atom on which they
differ. -/
theorem values_lt_iff {count : Nat} {i j : Interpretation} :
    i.values count < j.values count ↔
      ∃ x < count, (∀ y < x, i y = j y) ∧ i x = false ∧ j x = true := by
  constructor
  · rintro ⟨x, hsame, hlt⟩
    exact ⟨x, x.isLt, fun y hy => hsame ⟨y, Nat.lt_trans hy x.isLt⟩ hy, Bool.lt_iff.1 hlt⟩
  · rintro ⟨x, hx, hsame, hlt⟩
    exact ⟨⟨x, hx⟩, fun y hy => hsame y hy, Bool.lt_iff.2 hlt⟩

end Interpretation

/-- A model is known by the values of its atoms. -/
theorem Model.eq_of_values {m n : Model} {count : Nat} (hm : m.atomCount = count)
    (hn : n.atomCount = count)
    (h : m.interpretation.values count = n.interpretation.values count) : m = n := by
  -- the interpretation of a model reads its values, so it has them all
  have hval : ∀ (k : Model) (x : Nat) (hx : x < k.values.size),
      k.values[x] = k.interpretation x := by
    intro k x hx
    rw [interpretation, value?, Array.getElem?_eq_getElem hx]
    rfl
  have hvalues : m.values = n.values := by
    refine Array.ext (hm.trans hn.symm) fun x hx hx' => ?_
    rw [hval m x hx, hval n x hx']
    exact congrFun h ⟨x, hm ▸ hx⟩
  cases m
  cases n
  exact congrArg Model.mk hvalues

namespace Solver

open Assignment

variable {ρ : Type} {s : Solver ρ} {optimize : Bool}

/-- The values of the interpretations that satisfy the asserted clauses, the completion clauses and
the assumptions. -/
def models (count : Nat) (s : Solver ρ) : Set (Lex (Fin count → Bool)) :=
  Interpretation.values count '' {i | i.IsModel s.formula ∧ i.SatisfiesAll s.assumptions}

variable [RandomSource ρ]

/-- A solve finds no model exactly when there is none. -/
theorem WellFormed.solve_eq_none_iff (hs : s.WellFormed) (htop : s.rules.supportsOf Atom.top = []) :
    (s.solve optimize).1 = none ↔ s.models s.atoms.count = ∅ := by
  have hspec := hs.solve_spec (hs.seen (.inl htop)) optimize
  rw [models, Set.image_eq_empty]
  cases h : (s.solve optimize).1 with
  | none =>
    rw [h] at hspec
    exact iff_of_true rfl (Set.eq_empty_of_forall_notMem fun i hi => hspec i hi.1 hi.2)
  | some m =>
    rw [h] at hspec
    -- the model that is found is one of the models
    refine iff_of_false nofun fun hempty => ?_
    have hmem : m.interpretation ∈
        {i : Interpretation | i.IsModel s.formula ∧ i.SatisfiesAll s.assumptions} := hspec.2
    rw [hempty] at hmem
    exact hmem

/-- What is found has the preferred value at the first atom on which an interpretation differs from
it. -/
theorem WellFormed.solve_first (hs : s.WellFormed) (htop : s.rules.supportsOf Atom.top = [])
    {preferred : Bool} (hprefers : Prefers s.config optimize preferred) {m : Model}
    (hm : (s.solve optimize).1 = some m) {i : Interpretation} (hi : i.IsModel s.formula)
    (hls : i.SatisfiesAll s.assumptions) {x : Atom} (hx : x < s.atoms.count)
    (hsame : ∀ y < x, i y = m.interpretation y) (hmx : m.interpretation x = !preferred) :
    i x = !preferred := by
  obtain ⟨clauses, base, a, hended, hsize, rfl⟩ :=
    hs.solve_ended htop (follows_lowestFirst hprefers) hm
  refine hended.value_of_agrees ⟨hi, hls⟩ ?_ fun y hy b hb => ?_
  · rw [value?_ended hended hsize hx, hmx]
  · rw [value?_ended hended hsize (Nat.lt_trans hy hx)] at hb
    rw [hsame y hy]
    exact Option.some.inj hb

/-- What a solve finds is a model. -/
theorem WellFormed.mem_models (hs : s.WellFormed) (htop : s.rules.supportsOf Atom.top = [])
    {m : Model} (hm : (s.solve optimize).1 = some m) :
    m.atomCount = s.atoms.count ∧
      m.interpretation.values s.atoms.count ∈ s.models s.atoms.count := by
  have hspec := hs.solve_spec (hs.seen (.inl htop)) optimize
  rw [hm] at hspec
  exact ⟨hspec.1, m.interpretation, hspec.2, rfl⟩

/-- If a solve finds nothing but the one best of the models, it finds that one. -/
theorem WellFormed.solve_eq_some_iff (hs : s.WellFormed)
    (htop : s.rules.supportsOf Atom.top = []) {best : Lex (Fin s.atoms.count → Bool) → Prop}
    (hmem : ∀ u, best u → u ∈ s.models s.atoms.count) (hunique : ∀ u v, best u → best v → u = v)
    (hbest : ∀ m, (s.solve optimize).1 = some m → best (m.interpretation.values s.atoms.count))
    (m : Model) :
    (s.solve optimize).1 = some m ↔
      m.atomCount = s.atoms.count ∧ best (m.interpretation.values s.atoms.count) := by
  constructor
  · intro hm
    exact ⟨(hs.mem_models htop hm).1, hbest m hm⟩
  · rintro ⟨hcount, hm⟩
    -- there is a model, so something is found, and it is the best one too
    cases h : (s.solve optimize).1 with
    | none =>
      have hnone := hmem _ hm
      rw [(hs.solve_eq_none_iff htop).1 h] at hnone
      exact absurd hnone (Set.notMem_empty _)
    | some n =>
      have hvalues := hunique _ _ (hbest n h) hm
      rw [Model.eq_of_values (hs.mem_models htop h).1 hcount hvalues]

/-- A solve that prefers false finds the first model in the order of the atoms, and nothing but
it. -/
theorem WellFormed.solve_isLeast (hs : s.WellFormed) (htop : s.rules.supportsOf Atom.top = [])
    (hprefers : Prefers s.config optimize false) (m : Model) :
    (s.solve optimize).1 = some m ↔ m.atomCount = s.atoms.count ∧
      IsLeast (s.models s.atoms.count) (m.interpretation.values s.atoms.count) := by
  refine hs.solve_eq_some_iff htop (fun u hu => hu.1)
    (fun u v (hu : IsLeast _ u) hv => hu.unique hv)
    (fun n hn => ⟨(hs.mem_models htop hn).2, ?_⟩) m
  rintro _ ⟨i, ⟨hi, hls⟩, rfl⟩
  refine not_lt.1 fun hlt => ?_
  obtain ⟨x, hx, hsame, hix, hnx⟩ := Interpretation.values_lt_iff.1 hlt
  -- where `i` is false and the model true, the value true was not preferred
  have htrue := hs.solve_first htop hprefers hn hi hls hx hsame hnx
  rw [hix] at htrue
  cases htrue

/-- A solve that prefers true finds the last model in the order of the atoms, and nothing but it. -/
theorem WellFormed.solve_isGreatest (hs : s.WellFormed) (htop : s.rules.supportsOf Atom.top = [])
    (hprefers : Prefers s.config optimize true) (m : Model) :
    (s.solve optimize).1 = some m ↔ m.atomCount = s.atoms.count ∧
      IsGreatest (s.models s.atoms.count) (m.interpretation.values s.atoms.count) := by
  refine hs.solve_eq_some_iff htop (fun u hu => hu.1)
    (fun u v (hu : IsGreatest _ u) hv => hu.unique hv)
    (fun n hn => ⟨(hs.mem_models htop hn).2, ?_⟩) m
  rintro _ ⟨i, ⟨hi, hls⟩, rfl⟩
  refine not_lt.1 fun hlt => ?_
  obtain ⟨x, hx, hsame, hnx, hix⟩ := Interpretation.values_lt_iff.1 hlt
  have hfalse := hs.solve_first htop hprefers hn hi hls hx (fun y hy => (hsame y hy).symm) hnx
  rw [hix] at hfalse
  cases hfalse

/-- **Decisions on the lowest open atom find the first or the last model.** With no random
decisions a solve finds a model exactly when it is the lexicographically least of the
interpretations that satisfy the asserted clauses, the completion clauses and the
assumptions, if decisions are false, and the greatest one if they are true; it finds none
exactly when there is none. So two solvers over the same atoms find the same model if the
same interpretations satisfy them, whatever their constraints, their sources of random
draws and what they have been through. -/
theorem Reachable.solve_extremal (hs : s.Reachable)
    (htop : ∀ rule ∈ s.rules.recorded, rule.1 ≠ Atom.top) (optimize : Bool) :
    (Prefers s.config optimize false → ∀ m, (s.solve optimize).1 = some m ↔
        m.atomCount = s.atoms.count ∧
          IsLeast (s.models s.atoms.count) (m.interpretation.values s.atoms.count)) ∧
      (Prefers s.config optimize true → ∀ m, (s.solve optimize).1 = some m ↔
        m.atomCount = s.atoms.count ∧
          IsGreatest (s.models s.atoms.count) (m.interpretation.values s.atoms.count)) ∧
      ((s.solve optimize).1 = none ↔ s.models s.atoms.count = ∅) ∧
      ∀ (σ : Type) [RandomSource σ] (t : Solver σ) (optimize' preferred : Bool), t.Reachable →
        (∀ rule ∈ t.rules.recorded, rule.1 ≠ Atom.top) → t.atoms.count = s.atoms.count →
        t.models s.atoms.count = s.models s.atoms.count →
        Prefers s.config optimize preferred → Prefers t.config optimize' preferred →
        (t.solve optimize').1 = (s.solve optimize).1 := by
  have hwf := hs.wellFormed
  have htop := hwf.supportsOf_eq_nil htop
  refine ⟨hwf.solve_isLeast htop, hwf.solve_isGreatest htop, hwf.solve_eq_none_iff htop, ?_⟩
  intro σ _ t optimize' preferred ht httop hcount hmodels hs' ht'
  have htwf := ht.wellFormed
  have httop := htwf.supportsOf_eq_nil httop
  -- the first and the last model are known by the set of models, whatever found them
  refine Option.ext fun m => ?_
  cases preferred with
  | false => rw [htwf.solve_isLeast httop ht', hwf.solve_isLeast htop hs', hcount, hmodels]
  | true => rw [htwf.solve_isGreatest httop ht', hwf.solve_isGreatest htop hs', hcount, hmodels]

/-- One of two atoms has to be true: the second one if false is preferred, and both of them if true
is, before and after a search for the other model. -/
theorem solve_extremal_clause :
    let s : Solver Pcg := [Move.freshAtom none, .freshAtom none,
      .addClause [Literal.pos 1, Literal.pos 2]].foldl (fun s m => m.perform s)
        (ofConfig {} (Pcg.ofSeed 0))
    s.Reachable ∧ (∀ rule ∈ s.rules.recorded, rule.1 ≠ Atom.top) ∧
      Prefers s.config true false ∧ Prefers s.config false true ∧
      IsLeast (s.models s.atoms.count)
        ((Model.interpretation ⟨#[true, false, true]⟩).values s.atoms.count) ∧
      IsGreatest (s.models s.atoms.count)
        ((Model.interpretation ⟨#[true, true, true]⟩).values s.atoms.count) ∧
      ((s.solve true).2.solve false).1 = (s.solve false).1 := by
  intro s
  have hs : s.Reachable := (Reachable.start {} (Pcg.ofSeed 0)).moves _
  have htop : ∀ rule ∈ s.rules.recorded, rule.1 ≠ Atom.top := by decide +kernel
  have hfalse : Prefers s.config true false := ⟨by decide +kernel, Or.inl rfl⟩
  have htrue : Prefers s.config false true := ⟨by decide +kernel, rfl, by decide +kernel⟩
  have hleast : (s.solve true).1 = some ⟨#[true, false, true]⟩ := by decide +kernel
  have hgreatest : (s.solve false).1 = some ⟨#[true, true, true]⟩ := by decide +kernel
  -- the solver after the first of the two searches
  have ht : (s.solve true).2.Reachable := hs.move (.solve true)
  have httop : ∀ rule ∈ (s.solve true).2.rules.recorded, rule.1 ≠ Atom.top := by decide +kernel
  have hcount : (s.solve true).2.atoms.count = s.atoms.count := by decide +kernel
  have hsame : (s.solve true).2.formula = s.formula ∧
      (s.solve true).2.assumptions = s.assumptions := by decide +kernel
  have hmodels : (s.solve true).2.models s.atoms.count = s.models s.atoms.count := by
    rw [models, models, hsame.1, hsame.2]
  have hprefers : Prefers (s.solve true).2.config false true :=
    ⟨by decide +kernel, rfl, by decide +kernel⟩
  obtain ⟨hspec, -, -, -⟩ := hs.solve_extremal htop true
  obtain ⟨-, hspec', -, hagain⟩ := hs.solve_extremal htop false
  exact ⟨hs, htop, hfalse, htrue, ((hspec hfalse _).1 hleast).2, ((hspec' htrue _).1 hgreatest).2,
    hagain Pcg (s.solve true).2 false true ht httop hcount hmodels htrue hprefers⟩

end Solver

end Storyworld
