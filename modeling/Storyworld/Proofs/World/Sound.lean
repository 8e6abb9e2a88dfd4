import Storyworld.Proofs.Knowledge.Grounding
import Storyworld.Proofs.Solver.Question
import Storyworld.World.Basic

namespace Storyworld

/-!
# Worlds stay sound

A world is sound when its grounding is. What is done with a world keeps it so: reading phrases,
calls, probes and commits. A literal that a world gives belongs to its language.
-/

namespace World

open Action

variable {ρ : Type} {α : Type} {w : World ρ} {count : Nat}

/-- The number of atoms in the language of the world. -/
def atomCount (w : World ρ) : Nat := w.solver.atoms.count

/-- The grounding of the world is sound, with at least so many atoms. -/
def Sound (count : Nat) (w : World ρ) : Prop := w.toGrounding.Sound count

/-- A sound world has the atoms that it has. -/
theorem Sound.now (hw : Sound count w) : Sound w.atomCount w := Grounding.Sound.now hw

theorem Sound.mono {m n : Nat} (hw : Sound n w) (hmn : m ≤ n) : Sound m w :=
  Grounding.Sound.mono hw hmn

/-- A sound world has at least the atoms that it should. -/
theorem Sound.le (hw : Sound count w) : count ≤ w.atomCount := hw.solver.2

/-! ### Actions on a part of a world -/

/-- What is done on the grounding concerns the grounding only. -/
theorem after_onGrounding {act : EStateM Error (Grounding ρ) α} {done : α → World ρ → Prop}
    {refused : Error → World ρ → Prop} :
    After (onGrounding act) w done refused ↔
      After act w.toGrounding (fun a g => done a { w with toGrounding := g })
        (fun e g => refused e { w with toGrounding := g }) := by
  unfold After onGrounding
  cases act w.toGrounding <;> rfl

/-- What is done on the solver concerns the solver only. -/
theorem after_onSolver {act : EStateM Error (Solver ρ) α} {done : α → World ρ → Prop}
    {refused : Error → World ρ → Prop} :
    After (onSolver act) w done refused ↔
      After act w.solver (fun a s => done a { w with solver := s })
        (fun e s => refused e { w with solver := s }) :=
  after_onGrounding.trans Grounding.after_onSolver

/-- What keeps groundings sound keeps worlds sound. -/
theorem preserves_onGrounding {act : EStateM Error (Grounding ρ) α}
    (h : Preserves (Grounding.Sound count) act) : Preserves (Sound count) (onGrounding act) :=
  fun w hw => after_onGrounding.2 (h w.toGrounding hw)

/-- What keeps solvers well formed keeps worlds sound. -/
theorem preserves_onSolver {act : EStateM Error (Solver ρ) α}
    (h : ∀ n, Preserves (Solver.Grown n) act) : Preserves (Sound count) (onSolver act) :=
  preserves_onGrounding (Grounding.preserves_onSolver h)

/-! ### Phrases, calls and existentials -/

/-- A phrase is read as a literal of the language. -/
theorem after_literal (text : String) (hw : Sound count w) :
    After (literal text) w (fun l t => Sound count t ∧ l.atom < t.atomCount)
      (fun _ t => Sound count t) := by
  refine after_bind.2 (after_get.2 (after_bind.2 (after_ofExcept.2 ?_)))
  cases w.grammar.read text with
  | error e => exact hw
  | ok phrase => exact after_onGrounding.2 (Grounding.after_literalOf phrase hw)

/-- A phrase keeps worlds sound, also where it is refused. -/
theorem preserves_literal (text : String) : Preserves (Sound count) (literal (ρ := ρ) text) :=
  fun _ hw => (after_literal text hw).imp_done fun _ _ ht => ht.1

/-- A call by names keeps worlds sound, also where it is refused. -/
theorem preserves_call (predicate : String) (entities : List String) :
    Preserves (Sound count) (call (ρ := ρ) predicate entities) := by
  refine preserves_get.bind fun w => (preserves_ofExcept _).bind fun p => ?_
  split
  · exact preserves_onGrounding (Grounding.yields_call p _).preserves
  · exact preserves_throw _

/-- An existential by names keeps worlds sound, also where it is refused. -/
theorem preserves_existential (predicate sort : String) :
    Preserves (Sound count) (existential (ρ := ρ) predicate sort) := by
  refine preserves_get.bind fun w => (preserves_ofExcept _).bind fun p => ?_
  refine (preserves_ofExcept _).bind fun s => ?_
  exact preserves_onGrounding (Grounding.yields_existential p s).preserves

/-! ### Probes and commits -/

variable [RandomSource ρ]

/-- A probe keeps worlds sound. -/
theorem preserves_probe (sets : List (List Literal)) :
    Preserves (Sound count) (probe (ρ := ρ) sets) :=
  preserves_onSolver fun _ => Solver.preserves_probe _

/-- A commit keeps worlds sound, whether there is a model or not. -/
theorem preserves_commit (implications : List Literal) :
    Preserves (Sound count) (commit (ρ := ρ) implications) := by
  refine preserves_get.bind fun w => ?_
  refine (preserves_onSolver fun _ => Solver.preserves_modelWith _ _).bind fun m => ?_
  cases m with
  | none => exact preserves_throw _
  | some m => exact fun t ht => ht

/-! ### What probes and commits answer -/

omit [RandomSource ρ] in
/-- The second world comes from the first by questions: the knowledge base and the constraints are
the same, and it may be asked again. -/
structure Asked (w t : World ρ) : Prop where
  base : t.base = w.base
  same : Solver.SameConstraints w.solver t.solver
  ready : t.solver.Ready

variable {t u : World ρ} {ls : List Literal}

omit [RandomSource ρ] in
theorem Asked.refl (hw : w.solver.Ready) : Asked w w := ⟨rfl, Solver.SameConstraints.refl _, hw⟩

omit [RandomSource ρ] in
theorem Asked.trans (h : Asked w t) (h' : Asked t u) : Asked w u :=
  ⟨h'.base.trans h.base, h.same.trans h'.same, h'.ready⟩

omit [RandomSource ρ] in
/-- Questions keep worlds sound, as they make no atoms. -/
theorem Asked.sound (h : Asked w t) (hw : w.Sound count) : t.Sound count := by
  have hatoms : t.solver.atoms.count = w.solver.atoms.count := by rw [h.same.atoms]
  have hgrown : Solver.Grown w.solver.atoms.count t.solver :=
    ⟨h.ready.wellFormed, Nat.le_of_eq hatoms.symm⟩
  have hsound := Grounding.Sound.withSolver hw hgrown
  have heq : ({ base := w.base, solver := t.solver } : Grounding ρ) = t.toGrounding := by
    rw [← h.base]
  rwa [heq] at hsound

/-- A probe of a world says whether its constraints have a model in which the literals are true. -/
theorem after_probe {sets : List (List Literal)} (hw : w.solver.Ready)
    (hls : ∀ l ∈ sets.flatten, l.atom < w.atomCount) :
    After (probe sets) w
      (fun b t => Asked w t ∧ (b = true ↔ ∃ i : Interpretation,
        i.IsModel w.solver.formula ∧ i.SatisfiesAll sets.flatten))
      (fun _ _ => False) := by
  refine after_onSolver.2 ((hw.after_probe hls).imp_done fun b s h => ?_)
  exact ⟨⟨rfl, h.2.1, h.1⟩, h.2.2⟩

/-- A commit goes through exactly if the literals are possible, and then they hold on the snapshot. -/
theorem after_commit (hw : w.solver.Ready) (hls : ∀ l ∈ ls, l.atom < w.atomCount) :
    After (commit ls) w
      (fun snapshot t => Asked w t ∧ t.snapshot? = some snapshot ∧
        (∃ i : Interpretation, i.IsModel w.solver.formula ∧ i.SatisfiesAll ls) ∧
        ∀ l ∈ ls, snapshot.holds l = true)
      (fun e t => e = .unsatisfiableCommit ∧ Asked w t ∧
        ¬ ∃ i : Interpretation, i.IsModel w.solver.formula ∧ i.SatisfiesAll ls) := by
  refine after_bind.2 (after_get.2 (after_bind.2 (after_onSolver.2 ?_)))
  refine (hw.after_modelWith w.optimize hls).imp fun m s h => ?_
  obtain ⟨hready, hsame, hanswers⟩ := h
  -- the commit fails for want of a model only
  cases m with
  | none =>
    refine ⟨rfl, ⟨rfl, hsame, hready⟩, ?_⟩
    rintro ⟨i, hi, hsat⟩
    exact hanswers i hi hsat
  | some m =>
    refine ⟨⟨rfl, hsame, hready⟩, rfl, ⟨m.interpretation, hanswers.2⟩, fun l hl => ?_⟩
    exact Model.satisfies_iff_holds.1 (hanswers.2.2 l hl)

end World

end Storyworld
