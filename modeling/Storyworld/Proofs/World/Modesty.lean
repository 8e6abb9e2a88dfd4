import Storyworld.Proofs.Knowledge.Modesty
import Storyworld.Proofs.Solver.Preference
import Storyworld.Proofs.World.Probes

namespace Storyworld

/-!
# Worlds in which nothing has to hold

Where a knowledge base has only been compiled, whatever was refused on the way, no proposition has
to hold. So a probe of nothing is answered with yes, and a commit to nothing that prefers
propositions to be false records no fact.
-/

open Action

theorem Model.mem_trueAtoms {m : Model} {a : Atom} :
    a ∈ m.trueAtoms ↔ a ≠ Atom.top ∧ a < m.atomCount ∧ m.interpretation a = true := by
  unfold trueAtoms interpretation value?
  simp only [List.mem_filter, List.mem_range, Bool.and_eq_true, bne_iff_ne, beq_iff_eq]
  show a < m.atomCount ∧ _ ↔ _
  cases m.values[a]? <;> simp [and_left_comm]

namespace Solver

variable {ρ : Type} [RandomSource ρ] {s : Solver ρ}

/-- An optimized model of a modest solver makes no proposition true. -/
theorem Modest.solve_optimize (hs : s.Modest) (hassumed : s.assumptions = []) :
    ∃ m, (s.solve true).1 = some m ∧ m.trueAtoms = [] := by
  have hi := hs.isModel_nothing
  have hls : Interpretation.nothing.SatisfiesAll s.assumptions := by
    rw [hassumed]
    exact nofun
  obtain ⟨m, hm⟩ := Option.isSome_iff_exists.1 ((hs.ready.isSome_solve true).2 ⟨_, hi, hls⟩)
  obtain ⟨hcount, hmodel, -⟩ : Answers s.atoms.count s.formula s.assumptions (some m) := by
    rw [← hm]
    exact hs.wellFormed.solve_spec (hs.wellFormed.seen (.inl hs.ready.top)) true
  -- the model makes top true, and nothing else has to be true
  have hleast := hs.wellFormed.trueAtoms_subset hs.ready.top hm hi hls fun x hx =>
    ⟨hx.1, (beq_iff_eq.1 hx.2 : x = Atom.top) ▸ hmodel.1⟩
  refine ⟨m, hm, List.eq_nil_iff_forall_not_mem.2 fun a ha => ?_⟩
  obtain ⟨hne, hlt, htrue⟩ := Model.mem_trueAtoms.1 ha
  exact hne (beq_iff_eq.1 (hleast ⟨hcount ▸ hlt, htrue⟩).2)

/-- A model that is asked for without literals is searched for without assumptions. -/
theorem answer_modelWith_nil (optimize : Bool) (s : Solver ρ) :
    answer (modelWith optimize []) s = .ok (s.reset.solve optimize).1 := rfl

omit [RandomSource ρ] in
theorem Modest.reset (hs : s.Modest) : s.reset.Modest :=
  hs.of_same (sameConstraints_reset s) hs.wellFormed.reset

end Solver

namespace World

variable {ρ : Type} [RandomSource ρ] {w : World ρ}

/-- **Compiling alone makes no world inconsistent.** A knowledge base is put together with a new
solver and then only compiled: there are declarations, and calls and existentials that may be
refused. Then every asserted clause and every completion clause denies a named proposition, and
they all hold where no proposition does. A probe of no literals is answered with yes; and a
commit to nothing goes through without a fact, if it prefers propositions to be false. -/
theorem compiled_consistent (hw : w.toGrounding.Compiling) :
    (∀ c ∈ w.solver.formula, ∃ a p, Literal.neg a ∈ c ∧ w.solver.atoms.name? a = some p) ∧
      (∀ i : Interpretation, i Atom.top = true →
        (∀ a p, w.solver.atoms.name? a = some p → i a = false) → i.IsModel w.solver.formula) ∧
      (∀ sets : List (List Literal), sets.flatten = [] → answer (probe sets) w = .ok true) ∧
      (w.optimize = true →
        ∃ snapshot, answer (commit []) w = .ok snapshot ∧ snapshot.facts = []) := by
  have hs : w.solver.Modest := hw.modest.solver
  refine ⟨fun c => hs.denies_named, fun i => hs.isModel, fun sets hsets => ?probe,
    fun hoptimize => ?commit⟩
  case probe =>
    -- nothing is asked for, so the interpretation in which no proposition holds will do
    have hpossible : w.Consistent sets := by
      rw [consistent_iff, hsets]
      exact ⟨_, hs.isModel_nothing, nofun⟩
    obtain ⟨b, hprobe, hb⟩ := answer_probe_eq hs.ready (show ∀ l ∈ sets.flatten, _ by simp [hsets])
    rw [hprobe, hb.2 hpossible]
  case commit =>
    -- the search prefers atoms to be false, and here all of them can be
    obtain ⟨m, hm, hnone⟩ := hs.reset.solve_optimize rfl
    refine ⟨Snapshot.ofModel w.base w.solver.atoms m, ?_, ?_⟩
    · rw [(commit_spec [] w).1, hoptimize, Solver.answer_modelWith_nil, hm]
      rfl
    · show m.trueAtoms.filterMap _ = []
      rw [hnone]
      rfl

/-- Granite is a rock, and only persons hope. To wait implies to hope, and to stand excludes itself.
Granite stands, which is a reason that something does; and then it is refused to wait. -/
theorem compiled_consistent_granite :
    let g : Grounding Pcg := ⟨[.subsort "person" 0, .subsort "rock" 0, .entity "granite" 2,
      .predicate "waits" (.unary 0), .predicate "hopes" (.unary 1), .predicate "stands" (.unary 0),
      .relation .generalization 0 1, .relation .negative 2 2].foldl
        (fun kb (d : KnowledgeBase.Declaration) => d.perform kb) (KnowledgeBase.ofRoot "entity"),
      Solver.ofConfig {} (Pcg.ofSeed 0)⟩
    let s := stateAfter (Grounding.call 2 (.one "granite"))
      (stateAfter (Grounding.existential 2 0) g)
    let w : World Pcg := { stateAfter (Grounding.call 0 (.one "granite")) s with optimize := true }
    w.toGrounding.Compiling ∧ value? (Grounding.call 0 (.one "granite")) s = none ∧
      w.solver.formula.length = 8 ∧
      (∀ c ∈ w.solver.formula, ∃ a p, Literal.neg a ∈ c ∧ w.solver.atoms.name? a = some p) ∧
      answer (probe [[], []]) w = .ok true ∧
      ∃ snapshot, answer (commit []) w = .ok snapshot ∧ snapshot.facts = [] := by
  intro g s w
  have hbase : (KnowledgeBase.ofRoot "entity").WithoutTop :=
    (KnowledgeBase.Declared.start "entity").withoutTop
  have hstart : Grounding.Compiling ⟨_, Solver.ofConfig {} (Pcg.ofSeed 0)⟩ := .start hbase {} _
  have hg : g.Compiling := hstart.declarations _
  have hw : w.toGrounding.Compiling :=
    ((hg.existential 2 0).call 2 (.one "granite")).call 0 (.one "granite")
  -- a call was refused on the way, and what it had asserted until then is still there
  have hruns : value? (Grounding.call 0 (.one "granite")) s = none ∧
      w.solver.formula.length = 8 := by decide +kernel
  obtain ⟨hdenies, -, hprobe, hcommit⟩ := compiled_consistent hw
  exact ⟨hw, hruns.1, hruns.2, hdenies, hprobe _ rfl, hcommit rfl⟩

end World

end Storyworld
