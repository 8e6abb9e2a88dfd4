import Storyworld.Proofs.Solver.Question
import Storyworld.Proofs.Solver.Reordering

namespace Storyworld

/-!
# What a search leaves behind does not show

Two solvers are twins when they have the same settings, atoms, rules and asserted clauses. They
may differ in all that searches leave behind: the counters, what is known to be fixed, the
latest assignment, the assumptions and the source. A search, a question or an assumption leaves
a solver a twin of what it was, and what is asserted of twins leaves them twins, with the same
answer. Where no decision is left to chance, twins also find the same model.
-/

namespace Solver

open Action

variable {ρ : Type} {config : Config} {s s' t : Solver ρ}

/-- The settings are those given, and the atoms, the rules and the asserted clauses are the same. -/
structure Twin (config : Config) (s s' : Solver ρ) : Prop where
  left : s.config = config
  right : s'.config = config
  atoms : s.atoms = s'.atoms
  rules : s.rules = s'.rules
  asserted : s.clauses.asserted = s'.clauses.asserted

/-- A solver with the settings given is its own twin. -/
theorem Twin.refl (h : s.config = config) : Twin config s s := ⟨h, h, rfl, rfl, rfl⟩

theorem Twin.symm (h : Twin config s s') : Twin config s' s :=
  ⟨h.right, h.left, h.atoms.symm, h.rules.symm, h.asserted.symm⟩

theorem Twin.trans (h : Twin config s s') (h' : Twin config s' t) : Twin config s t :=
  ⟨h.left, h'.right, h.atoms.trans h'.atoms, h.rules.trans h'.rules,
    h.asserted.trans h'.asserted⟩

/-- Twins have the same models: what is asserted and what completes the rules is the same. -/
theorem Twin.formula (h : Twin config s s') : s.formula = s'.formula := by
  rw [Solver.formula, Solver.formula, h.rules, h.asserted]

/-- Twins know the same atoms, so they refuse the same literals, with the same error. -/
theorem Twin.checkKnown (h : Twin config s s') (ls : List Literal) :
    s.checkKnown ls = s'.checkKnown ls := by
  rw [Solver.checkKnown, Solver.checkKnown, h.atoms]

/-- The same clauses are known, although the sets of known clauses may be built differently. -/
theorem Twin.mem_known (h : Twin config s s') (c : Clause) :
    c ∈ s.clauses.known ↔ c ∈ s'.clauses.known := by
  rw [s.clauses.known_iff, s'.clauses.known_iff, h.asserted]

/-! ### What is asserted of twins -/

/-- Twins give the same number to the atom that is made next. -/
theorem Twin.makeAtom (h : Twin config s s') (name : Option Proposition) :
    (s.makeAtom name).1 = (s'.makeAtom name).1 ∧
      Twin config (s.makeAtom name).2 (s'.makeAtom name).2 := by
  unfold Solver.makeAtom
  dsimp only
  rw [h.atoms]
  exact ⟨rfl, h.left, h.right, rfl, h.rules, h.asserted⟩

theorem Twin.invalidate (h : Twin config s s') : Twin config s.invalidate s'.invalidate :=
  ⟨h.left, h.right, h.atoms, h.rules, h.asserted⟩

theorem Twin.auxiliary (h : Twin config s s') :
    s.auxiliary.1 = s'.auxiliary.1 ∧ Twin config s.auxiliary.2 s'.auxiliary.2 :=
  ⟨(h.makeAtom none).1, (h.makeAtom none).2.invalidate⟩

/-- A proposition has an atom in both twins or in neither, and then is given one. -/
theorem Twin.proposition (h : Twin config s s') (p : Proposition) :
    (s.proposition p).1 = (s'.proposition p).1 ∧
      Twin config (s.proposition p).2 (s'.proposition p).2 := by
  unfold Solver.proposition
  rw [h.atoms]
  split
  · exact ⟨rfl, h⟩
  · exact ⟨(h.makeAtom (some p)).1, (h.makeAtom (some p)).2.invalidate⟩

/-- A fresh atom leaves twins twins, whatever name it has. -/
theorem Twin.freshAtom (h : Twin config s s') (name : Option Proposition) :
    Twin config (s.freshAtom name).2 (s'.freshAtom name).2 := by
  cases name with
  | none => exact h.auxiliary.2
  | some p => exact (h.proposition p).2

/-- A clause that is stored is new in both twins or in neither. -/
theorem Twin.store (h : Twin config s s') (c : Clause) :
    (s.store c).1 = (s'.store c).1 ∧ Twin config (s.store c).2 (s'.store c).2 := by
  unfold Solver.store
  split
  · exact ⟨rfl, h⟩
  · unfold Clauses.store
    by_cases hmem : c.canonical ∈ s.clauses.known
    · rw [if_pos hmem, if_pos ((h.mem_known _).1 hmem)]
      exact ⟨rfl, h.left, h.right, h.atoms, h.rules, h.asserted⟩
    · rw [if_neg hmem, if_neg fun hmem' => hmem ((h.mem_known _).2 hmem')]
      -- both have stored as many clauses before, so the clause gets the same key
      exact ⟨congrArg (fun cs : Array Clause => Stored.added (.asserted cs.size)) h.asserted,
        h.left, h.right, h.atoms, h.rules, congrArg (Array.push · c.canonical) h.asserted⟩

/-- Clauses that are stored one after the other leave twins twins. -/
theorem Twin.storeAll (h : Twin config s s') (cs : List Clause) :
    Twin config (storeAll cs s) (storeAll cs s') := by
  induction cs generalizing s s' with
  | nil => exact h
  | cons c cs ih => exact ih (h.store c).2

/-- A body has the same support in twins, and where it has none yet the same one is defined. -/
theorem Twin.support (h : Twin config s s') (body : Clause) :
    (s.support body).1 = (s'.support body).1 ∧
      Twin config (s.support body).2 (s'.support body).2 := by
  unfold Solver.support
  split
  · exact ⟨rfl, h⟩
  · rw [h.rules]
    split
    · exact ⟨rfl, h⟩
    · dsimp only
      -- no atom stands for the body yet, and both twins make the same one
      have hstored := h.auxiliary.2.storeAll
        (definingClauses (Literal.pos s'.auxiliary.1) body)
      rw [h.auxiliary.1]
      refine ⟨rfl, hstored.left, hstored.right, hstored.atoms, ?_, hstored.asserted⟩
      exact congrArg (Rules.define · body s'.auxiliary.1) hstored.rules

/-- A rule that is stored is new in both twins or in neither. -/
theorem Twin.storeRule (h : Twin config s s') (head : Atom) (body : Clause) :
    (s.storeRule head body).1 = (s'.storeRule head body).1 ∧
      Twin config (s.storeRule head body).2 (s'.storeRule head body).2 := by
  unfold Solver.storeRule
  dsimp only
  rw [h.rules]
  split
  · exact ⟨rfl, h⟩
  · split
    · exact ⟨rfl, h⟩
    · -- the rule is new: both twins find the same support for its body
      obtain ⟨hsupport, ht⟩ := h.support body.canonical
      rw [hsupport]
      obtain ⟨hstored, hu⟩ := ht.store [(s'.support body.canonical).1.negate, Literal.pos head]
      refine ⟨hstored, hu.left, hu.right, hu.atoms, ?_, hu.asserted⟩
      exact congrArg (Rules.record · head body.canonical (s'.support body.canonical).1) hu.rules

/-- Whether a clause is new, a tautology or refused is the same in twins. -/
theorem blind_addClause (c : Clause) : Blind (Twin config) (addClause (ρ := ρ) c) := by
  intro s s' h
  unfold Agree answer Action.stateAfter addClause
  rw [h.checkKnown]
  cases s'.checkKnown c with
  | error e => exact ⟨rfl, h⟩
  | ok _ => exact ⟨congrArg Except.ok (h.store c).1, (h.store c).2⟩

/-- Whether a rule is new, a tautology or refused is the same in twins. -/
theorem blind_addRule (head : Atom) (body : Clause) :
    Blind (Twin config) (addRule (ρ := ρ) head body) := by
  intro s s' h
  unfold Agree answer Action.stateAfter addRule
  by_cases hempty : body.isEmpty
  · rw [if_pos hempty, if_pos hempty]
    exact ⟨rfl, h⟩
  · rw [if_neg hempty, if_neg hempty, h.checkKnown]
    cases s'.checkKnown (Literal.pos head :: body) with
    | error e => exact ⟨rfl, h⟩
    | ok _ => exact ⟨congrArg Except.ok (h.storeRule head body).1, (h.storeRule head body).2⟩

theorem blind_addHead (head : Atom) : Blind (Twin config) (addHead (ρ := ρ) head) := by
  intro s s' h
  unfold Agree answer Action.stateAfter addHead
  rw [h.checkKnown]
  cases s'.checkKnown [Literal.pos head] with
  | error e => exact ⟨rfl, h⟩
  | ok _ =>
    exact ⟨rfl, h.left, h.right, h.atoms, congrArg (Rules.declareHead · head) h.rules,
      h.asserted⟩

/-- Every kind of constraint is asserted alike in twins. -/
theorem blind_assert (c : Constraint) : Blind (Twin config) (assert (ρ := ρ) c) := by
  cases c with
  | clause c => exact (blind_addClause c).bind fun _ => blind_pure _
  | implication body head => exact (blind_addClause _).bind fun _ => blind_pure _
  | rule head body => exact (blind_addRule head body).bind fun _ => blind_pure _

theorem blind_addClauses (cs : List Clause) : Blind (Twin config) (addClauses (ρ := ρ) cs) :=
  blind_forM fun c _ => (blind_addClause c).bind fun _ => blind_pure _

theorem blind_registers (n : Nat) : Blind (Twin config) (registers (ρ := ρ) n) := by
  induction n with
  | zero => exact blind_pure _
  | succ n ih =>
    exact (blind_modifyGet fun s s' h => h.auxiliary).bind fun a => ih.bind fun _ => blind_pure _

/-- The registers that count along a list are made alike in twins, with the same numbers. -/
theorem blind_countAlong (bound : Nat) (before : Option (List Literal)) (ls : List Literal) :
    Blind (Twin config) (countAlong (ρ := ρ) bound before ls) := by
  induction ls generalizing before with
  | nil => exact blind_pure _
  | cons x xs ih =>
    cases xs with
    | nil => exact blind_addClauses _
    | cons y ys =>
      refine (blind_registers bound).bind fun now => ?_
      exact (blind_addClauses _).bind fun _ => ih (some now)

/-- A bound is asserted alike in twins, its registers included. -/
theorem blind_addAtMost (bound : Nat) (ls : List Literal) :
    Blind (Twin config) (addAtMost (ρ := ρ) bound ls) := by
  unfold addAtMost
  dsimp only
  split
  · exact blind_pure _
  · split
    · exact blind_addClauses _
    · exact blind_addClauses _
    · exact blind_countAlong _ _ _

theorem blind_unique (ls : List Literal) : Blind (Twin config) (unique (ρ := ρ) ls) :=
  (blind_assert _).bind fun _ => blind_addAtMost 1 ls

/-! ### What leaves a solver a twin of itself -/

/-- To find out what is fixed changes nothing that a twin has. -/
theorem twin_refresh (h : s.config = config) : Twin config s s.refresh := by
  obtain ⟨_, _, _, _, hframe, hasserted⟩ := refresh_frame s
  rw [hframe]
  exact ⟨h, h, rfl, rfl, hasserted.symm⟩

/-- To drop the assumptions leaves a solver a twin of what it was. -/
theorem Twin.reset (h : Twin config t s) : Twin config t s.reset :=
  h.trans ⟨h.right, h.right, rfl, rfl, rfl⟩

/-- An assumption leaves a solver a twin of what it was, also where it is refused. -/
theorem preserves_twin_force (l : Literal) : Preserves (Twin config t) (force (ρ := ρ) l) := by
  intro s h
  refine (after_force l s).mono (fun _ u hu => ?_) fun _ _ hu => hu.1 ▸ h
  obtain ⟨-, rfl⟩ := hu
  exact h.trans ⟨h.right, h.right, rfl, rfl, rfl⟩

/-- To ask for a fixed value leaves a solver a twin of what it was. -/
theorem preserves_twin_fixedValue (a : Atom) :
    Preserves (Twin config t) (fixedValue (ρ := ρ) a) := by
  intro s h
  refine (after_fixedValue a s).mono (fun _ u hu => ?_) fun _ _ hu => hu.1 ▸ h
  obtain ⟨-, rfl, -⟩ := hu
  exact h.trans (twin_refresh h.right)

/-- What is done apart leaves a solver a twin of what it was if it does so within. -/
theorem preserves_twin_apart {α : Type} {act : EStateM Error (Solver ρ) α}
    (h : Preserves (Twin config t) act) : Preserves (Twin config t) (apart act) := fun s hs =>
  after_apart.2 ((h s.reset hs.reset).mono (fun _ _ hu => Twin.reset hu) fun _ _ hu => Twin.reset hu)

/-- An action that is taken apart answers as it does without the assumptions. -/
theorem answer_apart {α : Type} (act : EStateM Error (Solver ρ) α) (s : Solver ρ) :
    answer (apart act) s = answer act s.reset := by
  unfold answer apart
  cases act s.reset <;> rfl

section Search

variable [RandomSource ρ]

/-- A search leaves a solver a twin of what it was. -/
theorem Twin.solve (h : Twin config t s) (optimize : Bool) :
    Twin config t (s.solve optimize).2 := by
  obtain ⟨_, _, _, hcont⟩ := solve_continues optimize s
  have hrefresh := h.trans (twin_refresh h.right)
  rw [hcont]
  exact hrefresh.trans ⟨hrefresh.right, hrefresh.right, rfl, rfl, rfl⟩

theorem preserves_twin_solve (optimize : Bool) :
    Preserves (Twin config t) (modifyGet (solve optimize) : EStateM Error (Solver ρ) _) :=
  preserves_modifyGet fun _ h => h.solve optimize

/-- To ask whether literals are consistent leaves a solver a twin of what it was. -/
theorem preserves_twin_consistentWith (ls : List Literal) :
    Preserves (Twin config t) (consistentWith (ρ := ρ) ls) := by
  induction ls with
  | nil => exact (preserves_twin_solve false).bind fun _ => preserves_pure _
  | cons l ls ih =>
    refine (preserves_twin_fixedValue l.atom).bind fun b => ?_
    cases b with
    | none => exact (preserves_twin_force l).bind fun _ => ih
    | some b =>
      dsimp only
      split
      · exact ih
      · exact preserves_pure _

/-- A probe changes nothing but what searches leave behind. -/
theorem preserves_twin_probe (ls : List Literal) :
    Preserves (Twin config t) (probe (ρ := ρ) ls) :=
  preserves_twin_apart (preserves_twin_consistentWith ls)

/-- To ask for a model leaves a solver a twin of what it was. -/
theorem preserves_twin_modelWith (optimize : Bool) (ls : List Literal) :
    Preserves (Twin config t) (modelWith (ρ := ρ) optimize ls) :=
  preserves_twin_apart
    ((preserves_forM fun l _ => preserves_twin_force l).bind fun _ => preserves_twin_solve optimize)

/-- A probe leaves a solver a twin of what it was, so it does not show later. -/
theorem twin_probe (h : s.config = config) (ls : List Literal) :
    Twin config s (stateAfter (probe ls) s) :=
  (preserves_twin_probe ls).stateAfter (Twin.refl h)

theorem twin_modelWith (h : s.config = config) (optimize : Bool) (ls : List Literal) :
    Twin config s (stateAfter (modelWith optimize ls) s) :=
  (preserves_twin_modelWith optimize ls).stateAfter (Twin.refl h)

/-- Whatever is done to twins, they stay twins. -/
theorem Twin.perform (h : Twin config s s') (m : Move) :
    Twin config (m.perform s) (m.perform s') := by
  have hboth : ∀ {u u' : Solver ρ}, Twin config s u → Twin config s' u' → Twin config u u' :=
    fun hu hu' => hu.symm.trans (h.trans hu')
  cases m with
  | freshAtom name => exact h.freshAtom name
  | addClause c => exact (blind_addClause c s s' h).2
  | addRule head body => exact (blind_addRule head body s s' h).2
  | addHead head => exact (blind_addHead head s s' h).2
  | addAtMost bound ls => exact (blind_addAtMost bound ls s s' h).2
  -- what asks leaves each of the two a twin of what it was
  | force l =>
    exact hboth ((preserves_twin_force l).stateAfter (Twin.refl h.left))
      ((preserves_twin_force l).stateAfter (Twin.refl h.right))
  | reset => exact hboth (Twin.refl h.left).reset (Twin.refl h.right).reset
  | fixedValue a =>
    exact hboth ((preserves_twin_fixedValue a).stateAfter (Twin.refl h.left))
      ((preserves_twin_fixedValue a).stateAfter (Twin.refl h.right))
  | solve optimize =>
    exact hboth ((Twin.refl h.left).solve optimize) ((Twin.refl h.right).solve optimize)

/-! ### Where nothing is left to chance -/

omit [RandomSource ρ] in
/-- The lowest open atom is always decided first, and always in the same way. -/
def Certain (optimize : Bool) (config : Config) : Prop :=
  (config.randomDecisionBias.value == 0) = true ∧
    (optimize = true ∨ (config.polarityLean.value == 0) = true ∨
      (config.polarityLean.value == 1) = true)

omit [RandomSource ρ] in
instance (optimize : Bool) (config : Config) : Decidable (Certain optimize config) :=
  inferInstanceAs (Decidable (_ ∧ _))

/-- Where nothing is left to chance, a decision does not depend on the source. -/
theorem steers_of_certain {optimize : Bool} (h : Certain optimize config) :
    Steers optimize config fun _ _ : ρ => True := by
  -- no coin is tossed for the atom, and none that could fall either way for its value
  have hopen : ∀ u : Solver ρ, u.config = config →
      (openAtom? u).1 = u.work.valuation.openAtoms.head? ∧ (openAtom? u).2.config = config := by
    intro u hu
    unfold openAtom?
    dsimp only
    rw [hu, RandomSource.coin_of_zero h.1]
    exact ⟨rfl, rfl⟩
  have hpolarity : ∀ u u' : Solver ρ, u.config = config → u'.config = config →
      (polarity optimize u).1 = (polarity optimize u').1 := by
    intro u u' hu hu'
    unfold polarity
    split
    · rfl
    · rename_i hopt
      dsimp only
      rw [hu, hu']
      rcases h.2 with e | e | e
      · exact absurd e hopt
      · rw [RandomSource.coin_of_zero e, RandomSource.coin_of_zero e]
      · rw [RandomSource.coin_of_one e, RandomSource.coin_of_one e]
  -- so the same literal is decided when the valuations are the same
  intro u u' hu hu' hval _
  refine ⟨?_, trivial⟩
  obtain ⟨hatom, hconfig⟩ := hopen u hu
  obtain ⟨hatom', hconfig'⟩ := hopen u' hu'
  rw [← hval, ← hatom] at hatom'
  unfold decide?
  cases hx : u.openAtom? with
  | mk x v =>
    cases hx' : u'.openAtom? with
    | mk x' v' =>
      rw [hx, hx'] at hatom'
      rw [hx] at hconfig
      rw [hx'] at hconfig'
      obtain rfl : x' = x := hatom'
      cases x' with
      | none => rfl
      | some x =>
        show some (Literal.mk x _) = some (Literal.mk x _)
        rw [hpolarity { v with counters.decisions := v.counters.decisions + 1 }
          { v' with counters.decisions := v'.counters.decisions + 1 } hconfig hconfig']

omit [RandomSource ρ] in
/-- Twins that are well formed and have the same assumptions. -/
structure TwinAssumed (config : Config) (s s' : Solver ρ) : Prop where
  twin : Twin config s s'
  assumptions : s.assumptions = s'.assumptions
  wellFormed : s.WellFormed
  wellFormed' : s'.WellFormed

omit [RandomSource ρ] in
/-- Twins with the same assumptions are the same constraints in the same order, so what is shown for
any order applies to them. -/
theorem TwinAssumed.reordered (h : TwinAssumed config s s') : Reordered s s' where
  names := congrArg Atoms.names h.twin.atoms
  config := h.twin.left.trans h.twin.right.symm
  assumptions l := by rw [h.assumptions]
  asserted := by
    rw [h.twin.asserted]
    exact Clause.Rearranged.refl _
  rules := by
    rw [h.twin.rules]
    exact Rules.Reordered.refl _

omit [RandomSource ρ] in
/-- The same assumption is made in both twins, or is refused in both. -/
theorem blind_force (l : Literal) : Blind (TwinAssumed config) (force (ρ := ρ) l) := by
  intro s s' h
  have hwf := ((preserves_force l).stateAfter h.wellFormed.grown).1
  have hwf' := ((preserves_force l).stateAfter h.wellFormed'.grown).1
  unfold Action.stateAfter force at hwf hwf'
  unfold Agree answer Action.stateAfter force
  rw [h.twin.checkKnown] at hwf ⊢
  cases hknown : s'.checkKnown [l] with
  | error e => exact ⟨rfl, h⟩
  | ok _ =>
    rw [hknown] at hwf hwf'
    exact ⟨rfl, ⟨h.twin.left, h.twin.right, h.twin.atoms, h.twin.rules, h.twin.asserted⟩,
      congrArg (· ++ [l]) h.assumptions, hwf, hwf'⟩

omit [RandomSource ρ] in
/-- To ask for a fixed value makes no assumption. -/
theorem assumptions_fixedValue (a : Atom) (s : Solver ρ) :
    (stateAfter (fixedValue a) s).assumptions = s.assumptions :=
  After.stateAfter ((after_fixedValue a s).mono (fun _ _ h => h.2.1 ▸ refresh_assumptions s)
    fun _ _ h => by rw [h.1])

/-- A search makes no assumption. -/
theorem assumptions_solve (optimize : Bool) (s : Solver ρ) :
    (s.solve optimize).2.assumptions = s.assumptions := by
  obtain ⟨_, _, _, hcont⟩ := solve_continues optimize s
  rw [hcont]
  exact refresh_assumptions s

/-- Where nothing is left to chance, twins that are asked for a model give the same one. -/
theorem answer_modelWith {optimize : Bool} (hcertain : Certain optimize config)
    (h : Twin config s s') (hs : s.WellFormed) (hs' : s'.WellFormed) (ls : List Literal) :
    answer (modelWith optimize ls) s = answer (modelWith optimize ls) s' := by
  -- the searches go in lockstep, as the same decisions are made
  have hsolve : Blind (TwinAssumed config)
      (modifyGet (solve optimize) : EStateM Error (Solver ρ) _) := by
    refine blind_modifyGet fun u u' hu => ⟨?_, ?_, ?_, hu.wellFormed.solve optimize,
      hu.wellFormed'.solve optimize⟩
    · have hsteers : Steers optimize u.config fun _ _ : ρ => True :=
        hu.twin.left.symm ▸ steers_of_certain hcertain
      exact (hu.reordered.solve hu.wellFormed hu.wellFormed' trivial hsteers).1
    · exact hu.twin.perform (.solve optimize)
    · rw [assumptions_solve, assumptions_solve, hu.assumptions]
  have hreset : TwinAssumed config s.reset s'.reset :=
    ⟨h.perform .reset, rfl, hs.reset, hs'.reset⟩
  rw [modelWith, answer_apart, answer_apart]
  exact (((blind_forM fun l _ => blind_force l).bind fun _ => hsolve) _ _ hreset).1

/-! ### Whether there is a model -/

omit [RandomSource ρ] in
/-- Twins that have the same assumptions and may be asked. -/
structure TwinReady (config : Config) (s s' : Solver ρ) : Prop extends TwinAssumed config s s' where
  top : s.rules.supportsOf Atom.top = []

omit [RandomSource ρ] in
/-- An action that is blind and tells the solver nothing leaves top without a rule. -/
theorem blind_ready {α : Type} {act : EStateM Error (Solver ρ) α}
    (h : Blind (TwinAssumed config) act) (hact : ∀ t, Preserves (Twin config t) act) :
    Blind (TwinReady config) act := by
  intro s s' hs
  obtain ⟨hanswer, hafter⟩ := h s s' hs.toTwinAssumed
  have hrules := ((hact s).stateAfter (Twin.refl hs.twin.left)).rules
  exact ⟨hanswer, hafter, hrules ▸ hs.top⟩

omit [RandomSource ρ] in
/-- Twins fix the same values, as what a refresh finds depends on the constraints alone. -/
theorem blind_fixedValue (a : Atom) : Blind (TwinAssumed config) (fixedValue (ρ := ρ) a) := by
  have htwin : ∀ s : Solver ρ, s.config = config → Twin config s (stateAfter (fixedValue a) s) :=
    fun s h => (preserves_twin_fixedValue a).stateAfter (Twin.refl h)
  intro s s' h
  refine ⟨h.reordered.answer_fixedValue h.wellFormed h.wellFormed' a, ?_, ?_, ?_, ?_⟩
  · exact (htwin s h.twin.left).symm.trans (h.twin.trans (htwin s' h.twin.right))
  · rw [assumptions_fixedValue, assumptions_fixedValue, h.assumptions]
  · exact ((preserves_fixedValue a).stateAfter h.wellFormed.grown).1
  · exact ((preserves_fixedValue a).stateAfter h.wellFormed'.grown).1

/-- Whether a search finds a model is not left to chance. -/
theorem blind_isSome_solve (optimize : Bool) : Blind (TwinReady config)
    (Option.isSome <$> modifyGet (solve optimize) : EStateM Error (Solver ρ) _) := by
  refine blind_modifyGet (f := fun s : Solver ρ =>
    ((s.solve optimize).1.isSome, (s.solve optimize).2)) fun s s' h => ?_
  have hready : s.Ready := ⟨h.wellFormed, h.top⟩
  have hready' : s'.Ready := ⟨h.wellFormed', h.twin.rules ▸ h.top⟩
  have hsame := sameConstraints_solve optimize s
  refine ⟨?_, ⟨h.twin.perform (.solve optimize), ?_, h.wellFormed.solve optimize,
    h.wellFormed'.solve optimize⟩, ?_⟩
  · rw [Bool.eq_iff_iff, hready.isSome_solve, hready'.isSome_solve, h.twin.formula, h.assumptions]
  · rw [assumptions_solve, assumptions_solve, h.assumptions]
  · rw [hsame.rules]
    exact h.top

/-- Twins agree on what is consistent: both searches find a model or neither does. -/
theorem blind_consistentWith (ls : List Literal) :
    Blind (TwinReady config) (consistentWith (ρ := ρ) ls) := by
  induction ls with
  | nil => exact blind_isSome_solve false
  | cons l ls ih =>
    refine (blind_ready (blind_fixedValue _) fun _ => preserves_twin_fixedValue _).bind fun b => ?_
    cases b with
    | none => exact (blind_ready (blind_force l) fun _ => preserves_twin_force l).bind fun _ => ih
    | some b =>
      dsimp only
      split
      · exact ih
      · exact blind_pure _

omit [RandomSource ρ] in
/-- Without their assumptions twins may be asked alike. -/
theorem Twin.reset_ready (h : Twin config s s') (hs : s.WellFormed) (hs' : s'.WellFormed)
    (htop : s.rules.supportsOf Atom.top = []) : TwinReady config s.reset s'.reset :=
  ⟨⟨⟨h.left, h.right, h.atoms, h.rules, h.asserted⟩, rfl, hs.reset, hs'.reset⟩, htop⟩

/-- A probe has the same answer in twins. -/
theorem Twin.answer_probe (h : Twin config s s') (hs : s.WellFormed) (hs' : s'.WellFormed)
    (htop : s.rules.supportsOf Atom.top = []) (ls : List Literal) :
    answer (probe ls) s = answer (probe ls) s' := by
  rw [probe, answer_apart, answer_apart]
  exact (blind_consistentWith ls _ _ (h.reset_ready hs hs' htop)).1

/-- Twins that are asked for a model both have one or both have none. -/
theorem Twin.isSome_modelWith (h : Twin config s s') (hs : s.WellFormed) (hs' : s'.WellFormed)
    (htop : s.rules.supportsOf Atom.top = []) (optimize : Bool) (ls : List Literal) :
    (answer (modelWith optimize ls) s).map Option.isSome =
      (answer (modelWith optimize ls) s').map Option.isSome := by
  have hforce : ∀ l ∈ ls, Blind (TwinReady config) (force (ρ := ρ) l) :=
    fun l _ => blind_ready (blind_force l) fun _ => preserves_twin_force l
  have hasked := ((blind_forM hforce).bind fun _ => blind_isSome_solve optimize) _ _
    (h.reset_ready hs hs' htop)
  rw [modelWith, answer_apart, answer_apart, ← answer_map, ← answer_map, map_bind]
  exact hasked.1

end Search

end Solver

end Storyworld
