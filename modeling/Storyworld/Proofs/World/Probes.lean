import Storyworld.Proofs.World.Twins

namespace Storyworld

/-!
# Probes decide, and leave no trace

A probe says whether the literals of its sets can be true together with the constraints, and that
is when a commit to them goes through. The probe leaves a world a twin of what it was, so a run
of moves with probes in between leads to a twin of the world that the run without them leads to
(`Probed.twin`). Twins answer probes alike and let the same commits through.
-/

namespace World

open Action

variable {ρ : Type} [RandomSource ρ] {config : Config} {optimize : Bool} {w w' : World ρ}
  {ls : List Literal} {sets : List (List Literal)} {ms ms' : List Move}

/-! ### What probes and commits decide -/

omit [RandomSource ρ] in
/-- The literals of all the sets can be true together with the constraints. -/
def Consistent (w : World ρ) (sets : List (List Literal)) : Prop :=
  ∃ i : Interpretation, i.IsModel w.solver.formula ∧ ∀ ls ∈ sets, i.SatisfiesAll ls

omit [RandomSource ρ] in
/-- Sets are consistent when a model makes all their literals true. -/
theorem consistent_iff : w.Consistent sets ↔
    ∃ i : Interpretation, i.IsModel w.solver.formula ∧ i.SatisfiesAll sets.flatten := by
  refine exists_congr fun i => and_congr_right fun _ => ?_
  refine ⟨fun h l hl => ?_, fun h ls hls l hl => h l (List.mem_flatten_of_mem hls hl)⟩
  obtain ⟨ls, hls, hl⟩ := List.mem_flatten.1 hl
  exact h ls hls l hl

/-- Whether a commit goes through, or the reason that it does not. -/
def verdict (ls : List Literal) (w : World ρ) : Except Error Unit :=
  (answer (commit ls) w).map fun _ => ()

theorem verdict_eq_ok :
    verdict ls w = .ok () ↔ ∃ snapshot, answer (commit ls) w = .ok snapshot := by
  unfold verdict
  cases answer (commit ls) w with
  | ok snapshot => exact ⟨fun _ => ⟨snapshot, rfl⟩, fun _ => rfl⟩
  | error e => exact ⟨nofun, nofun⟩

theorem verdict_eq_error {e : Error} :
    verdict ls w = .error e ↔ answer (commit ls) w = .error e := by
  unfold verdict
  cases answer (commit ls) w with
  | ok snapshot => exact ⟨nofun, nofun⟩
  | error e' =>
    exact ⟨fun h => congrArg _ (Except.error.inj h), fun h => congrArg _ (Except.error.inj h)⟩

/-- A commit goes through when the solver has a model for it. -/
theorem verdict_eq (ls : List Literal) (w : World ρ) :
    verdict ls w =
      match (answer (Solver.modelWith w.optimize ls) w.solver).map Option.isSome with
      | .ok true => .ok ()
      | .ok false => .error .unsatisfiableCommit
      | .error e => .error e := by
  rw [verdict, (commit_spec ls w).1]
  cases answer (Solver.modelWith w.optimize ls) w.solver with
  | error e => rfl
  | ok m => cases m <;> rfl

/-- A probe answers whether the sets are consistent. -/
theorem answer_probe_eq (hw : w.solver.Ready) (hls : ∀ l ∈ sets.flatten, l.atom < w.atomCount) :
    ∃ b, answer (probe sets) w = .ok b ∧ (b = true ↔ w.Consistent sets) := by
  have hprobe := after_probe hw hls
  unfold After at hprobe
  unfold answer
  cases h : probe sets w with
  | ok b t =>
    rw [h] at hprobe
    exact ⟨b, rfl, hprobe.2.trans consistent_iff.symm⟩
  | error e t =>
    rw [h] at hprobe
    exact hprobe.elim

/-- A commit goes through exactly if the sets are consistent. -/
theorem verdict_iff (hw : w.solver.Ready) (hls : ∀ l ∈ sets.flatten, l.atom < w.atomCount) :
    ∃ b, verdict sets.flatten w = (if b then .ok () else .error .unsatisfiableCommit) ∧
      (b = true ↔ w.Consistent sets) := by
  have hmodel := hw.after_modelWith w.optimize hls
  rw [verdict_eq, consistent_iff]
  unfold After at hmodel
  unfold answer
  cases h : Solver.modelWith w.optimize sets.flatten w.solver with
  | ok m s =>
    rw [h] at hmodel
    -- a commit is refused exactly when there is no model to commit to
    obtain ⟨-, -, hanswers⟩ := hmodel
    cases m with
    | none => exact ⟨false, rfl, nofun, fun ⟨i, hi, hsat⟩ => absurd hsat (hanswers i hi)⟩
    | some m => exact ⟨true, rfl, fun _ => ⟨m.interpretation, hanswers.2⟩, fun _ => rfl⟩
  | error e s =>
    rw [h] at hmodel
    exact hmodel.elim

/-! ### What a probe leaves -/

/-- Nothing is assumed, and what was said and committed is as it was. -/
structure Untouched (w t : World ρ) : Prop where
  assumptions : t.solver.assumptions = []
  asserted : t.solver.clauses.asserted = w.solver.clauses.asserted
  rules : t.solver.rules = w.solver.rules
  atoms : t.solver.atoms = w.solver.atoms
  config : t.solver.config = w.solver.config
  base : t.base = w.base
  grammar : t.grammar = w.grammar
  optimize : t.optimize = w.optimize
  snapshot : t.snapshot? = w.snapshot?

omit [RandomSource ρ] in
/-- A solver that was asked and assumes nothing is the only thing that differs. -/
theorem untouched_of_twin {s : Solver ρ} (h : Solver.Twin w.solver.config w.solver s)
    (hassumptions : s.assumptions = []) : Untouched w { w with solver := s } where
  assumptions := hassumptions
  asserted := h.asserted.symm
  rules := h.rules.symm
  atoms := h.atoms.symm
  config := h.right
  base := rfl
  grammar := rfl
  optimize := rfl
  snapshot := rfl

/-- A probe leaves no trace. -/
theorem untouched_probe (sets : List (List Literal)) (w : World ρ) :
    Untouched w (stateAfter (probe sets) w) := by
  rw [stateAfter_probe]
  apply untouched_of_twin (Solver.twin_probe rfl sets.flatten)
  unfold stateAfter Solver.probe Solver.apart
  cases Solver.consistentWith sets.flatten w.solver.reset <;> rfl

/-! ### Probes in a run -/

/-- The world after moves, one after the other. -/
def run (w : World ρ) (ms : List Move) : World ρ := ms.foldl (fun w m => m.perform w) w

/-- The second list of moves is the first with probes put in. -/
inductive Probed : List Move → List Move → Prop where
  | nil : Probed [] []
  | kept (m : Move) {ms ms' : List Move} : Probed ms ms' → Probed (m :: ms) (m :: ms')
  | probe (sets : List (List Literal)) {ms ms' : List Move} :
    Probed ms ms' → Probed ms (.probe sets :: ms')

theorem Reachable.run (hw : w.Reachable) (ms : List Move) : (w.run ms).Reachable := by
  induction ms generalizing w with
  | nil => exact hw
  | cons m ms ih => exact ih (hw.move m)

theorem Reachable.wellFormed (hw : w.Reachable) : w.solver.WellFormed := hw.sound.solver.1

/-- Runs from twins lead to twins, when probes are put into one of them. -/
theorem Probed.twin (h : Probed ms ms') (hw : w.Reachable) (hw' : w'.Reachable)
    (htwin : Twin config optimize w w') : Twin config optimize (w.run ms) (w'.run ms') := by
  induction h generalizing w w' with
  | nil => exact htwin
  | kept m h ih =>
    exact ih (hw.move m) (hw'.move m) (htwin.perform hw.wellFormed hw'.wellFormed m)
  | probe sets h ih =>
    exact ih hw (hw'.move (.probe sets))
      (htwin.trans (Twin.probed htwin.grounding.solver.right htwin.right sets))

/-- Twins answer probes alike. -/
theorem Twin.answer_probe (h : Twin config optimize w w') (hw : w.Reachable) (hw' : w'.Reachable)
    (htop : w.solver.rules.supportsOf Atom.top = []) (sets : List (List Literal)) :
    answer (probe sets) w = answer (probe sets) w' := by
  rw [World.answer_probe, World.answer_probe]
  exact h.grounding.solver.answer_probe hw.wellFormed hw'.wellFormed htop sets.flatten

/-- Twins let the same commits through. -/
theorem Twin.verdict (h : Twin config optimize w w') (hw : w.Reachable) (hw' : w'.Reachable)
    (htop : w.solver.rules.supportsOf Atom.top = []) (ls : List Literal) :
    verdict ls w = verdict ls w' := by
  rw [verdict_eq, verdict_eq, h.left, h.right,
    h.grounding.solver.isSome_modelWith hw.wellFormed hw'.wellFormed htop optimize ls]

/-- **A probe decides consistency, agrees with commits and leaves no trace.** In a world that can be
reached, in which no rule has top as its head, a probe answers yes exactly when some model of the
constraints makes the literals of all the sets true, and no otherwise; a commit to the same
literals goes through in the first case, and in the second is refused as unsatisfiable. Nothing
is assumed afterwards, and what was said and committed is as it was. Putting probes into a run
of moves changes no answer of a probe and lets the same commits through at its end; where
nothing is left to chance it changes no snapshot either. -/
theorem Reachable.probe_exact (hw : w.Reachable)
    (htop : ∀ rule ∈ w.solver.rules.recorded, rule.1 ≠ Atom.top)
    (hsets : ∀ ls ∈ sets, ∀ l ∈ ls, l.atom < w.atomCount) :
    (answer (probe sets) w = .ok true ↔ w.Consistent sets) ∧
      (answer (probe sets) w = .ok false ↔ ¬ w.Consistent sets) ∧
      ((∃ snapshot, answer (commit sets.flatten) w = .ok snapshot) ↔ w.Consistent sets) ∧
      (answer (commit sets.flatten) w = .error .unsatisfiableCommit ↔ ¬ w.Consistent sets) ∧
      Untouched w (stateAfter (probe sets) w) ∧
      ∀ ms ms', Probed ms ms' →
        (∀ rule ∈ (w.run ms).solver.rules.recorded, rule.1 ≠ Atom.top) →
        (∀ sets, answer (probe sets) (w.run ms') = answer (probe sets) (w.run ms)) ∧
        (∀ ls, verdict ls (w.run ms') = verdict ls (w.run ms)) ∧
        (Solver.Certain w.optimize w.solver.config →
          (w.run ms').snapshot? = (w.run ms).snapshot? ∧
          ∀ ls, answer (commit ls) (w.run ms') = answer (commit ls) (w.run ms)) := by
  have hready : w.solver.Ready := ⟨hw.wellFormed, hw.wellFormed.supportsOf_eq_nil htop⟩
  have hknown : ∀ l ∈ sets.flatten, l.atom < w.atomCount := by
    intro l hl
    obtain ⟨ls, hls, hl⟩ := List.mem_flatten.1 hl
    exact hsets ls hls l hl
  obtain ⟨b, hprobe, hb⟩ := answer_probe_eq hready hknown
  obtain ⟨c, hcommit, hc⟩ := verdict_iff hready hknown
  -- probe and commit each answer by a truth value, and both mean consistency
  rw [← verdict_eq_ok, ← verdict_eq_error, hprobe, hcommit]
  refine ⟨?yes, ?no, ?through, ?refused, untouched_probe sets w, fun ms ms' hms htop' => ?run⟩
  case yes => exact ⟨fun h => hb.1 (Except.ok.inj h), fun h => congrArg _ (hb.2 h)⟩
  case no =>
    rw [← hb, Bool.not_eq_true]
    exact ⟨Except.ok.inj, congrArg _⟩
  case through =>
    rw [← hc]
    cases c <;> simp
  case refused =>
    rw [← hc]
    cases c <;> simp
  case run =>
    have hrun := hw.run ms
    have hrun' := hw.run ms'
    -- the runs with and without probes lead to twins
    have htwin := hms.twin hw hw (Twin.refl rfl rfl)
    have hnil := hrun.wellFormed.supportsOf_eq_nil htop'
    refine ⟨fun sets => (htwin.answer_probe hrun hrun' hnil sets).symm,
      fun ls => (htwin.verdict hrun hrun' hnil ls).symm, fun hcertain => ?_⟩
    refine ⟨(htwin.snapshot hcertain).symm, fun ls => ?_⟩
    exact (htwin.answer_commit hrun.wellFormed hrun'.wellFormed hcertain ls).symm

/-- Rain is said to come from wind; both are possible together, and a run has two probes put in. -/
theorem probe_exact_rain :
    let w := (World.empty "entity" {}).run
      [.literal "rain", .literal "wind", .solver (.addRule 1 [Literal.pos 2])]
    let sets := [[Literal.pos 1], [Literal.pos 2]]
    let ms := [Move.commit [Literal.pos 2]]
    let ms' := [Move.probe [[Literal.neg 1]], .commit [Literal.pos 2], .probe sets]
    w.Reachable ∧ (∀ rule ∈ w.solver.rules.recorded, rule.1 ≠ Atom.top) ∧
      (∀ ls ∈ sets, ∀ l ∈ ls, l.atom < w.atomCount) ∧ Probed ms ms' ∧
      (∀ rule ∈ (w.run ms).solver.rules.recorded, rule.1 ≠ Atom.top) ∧
      Solver.Certain w.optimize w.solver.config ∧
      (answer (probe sets) w = .ok true ↔ w.Consistent sets) ∧
      (∃ snapshot, answer (commit sets.flatten) w = .ok snapshot) ∧
      (∀ sets, answer (probe sets) (w.run ms') = answer (probe sets) (w.run ms)) ∧
      (w.run ms').snapshot? = (w.run ms).snapshot? := by
  intro w sets ms ms'
  have hstart : (World.empty "entity" {}).Reachable := World.Reachable.start
    (KnowledgeBase.Declared.start "entity") (Solver.Reachable.start {} _) {} false
  have hw : w.Reachable := hstart.run _
  have hrecorded : w.solver.rules.recorded = [(1, [Literal.pos 2])] ∧
      (w.run ms).solver.rules.recorded = [(1, [Literal.pos 2])] ∧ w.atomCount = 3 := by
    decide +kernel
  have htop : ∀ rule ∈ w.solver.rules.recorded, rule.1 ≠ Atom.top := by
    rw [hrecorded.1]
    decide
  have htop' : ∀ rule ∈ (w.run ms).solver.rules.recorded, rule.1 ≠ Atom.top := by
    rw [hrecorded.2.1]
    decide
  have hsets : ∀ ls ∈ sets, ∀ l ∈ ls, l.atom < w.atomCount := by
    rw [hrecorded.2.2]
    decide
  have hms : Probed ms ms' := .probe _ (.kept _ (.probe _ .nil))
  have hcertain : Solver.Certain w.optimize w.solver.config := by decide +kernel
  have hprobe : answer (probe sets) w = .ok true := by decide +kernel
  obtain ⟨hyes, -, hthrough, -, -, hrun⟩ := hw.probe_exact htop hsets
  obtain ⟨hprobes, -, hsnapshot⟩ := hrun ms ms' hms htop'
  exact ⟨hw, htop, hsets, hms, htop', hcertain, hyes, hthrough.2 (hyes.1 hprobe), hprobes,
    (hsnapshot hcertain).1⟩

end World

end Storyworld
