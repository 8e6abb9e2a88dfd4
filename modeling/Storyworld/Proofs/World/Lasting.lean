import Storyworld.Proofs.Knowledge.Steps
import Storyworld.Proofs.World.Typing

namespace Storyworld

/-!
# What every move of a world keeps

Some invariants of a grounding depend neither on sorts and predicates having numbers that exist nor
on moves going through. `Lasting` asks of them what the steps of phrases need, and one law each for
questions to the solver and for bounds. Every move keeps such an invariant (`Lasting.perform`), a
questionnaire that is read included; a declaration and a move of the solver itself are left to whoever
uses the interface.
-/

namespace Grounding

open Action KnowledgeBase

variable {ρ : Type} {P : Grounding ρ → Prop}

/-- The invariant is preserved by each step that the moves of a world are made of. -/
structure Lasting (P : Grounding ρ → Prop) : Prop extends Steps P where
  bounds : ∀ bound ls, Preserves P (onSolver (Solver.addAtMost bound ls))
  /-- A question leaves the constraints as they are, and may leave other traces. -/
  asks : ∀ g s, Solver.SameConstraints g.solver s → s.WellFormed → P g → P { g with solver := s }

namespace Lasting

theorem onGrounding {α : Type} {act : EStateM Error (Grounding ρ) α} (h : Preserves P act) :
    Preserves (fun w : World ρ => P w.toGrounding) (World.onGrounding act) :=
  fun w hw => World.after_onGrounding.2 (h w.toGrounding hw)

theorem literal (h : Lasting P) (text : String) :
    Preserves (fun w : World ρ => P w.toGrounding) (World.literal text) :=
  preserves_get.bind fun _ => (preserves_ofExcept _).bind fun phrase =>
    onGrounding (h.literalOf phrase)

theorem callNamed (h : Lasting P) (predicate : String) (entities : List String) :
    Preserves (fun w : World ρ => P w.toGrounding) (World.call predicate entities) := by
  refine preserves_get.bind fun w => (preserves_ofExcept _).bind fun p => ?_
  split
  · exact onGrounding (h.call p _)
  · exact preserves_throw _

theorem existentialNamed (h : Lasting P) (predicate sort : String) :
    Preserves (fun w : World ρ => P w.toGrounding) (World.existential predicate sort) :=
  preserves_get.bind fun _ => (preserves_ofExcept _).bind fun p => (preserves_ofExcept _).bind
    fun s => onGrounding (h.existential p s)

/-- What lasts is maintained when a questionnaire is read. -/
theorem reading (h : Lasting P) :
    Questionnaire.Reading (fun w : World ρ => P w.toGrounding) fun w => P w.toGrounding where
  refused _ hw := hw
  literal text := h.literal text
  asserts c := onGrounding (h.asserts c)
  bounds bound ls := onGrounding (h.bounds bound ls)

variable [RandomSource ρ] {w : World ρ}

/-- **Every move keeps what lasts**, if declarations and the moves of the solver do. -/
theorem perform (h : Lasting P) (hwf : w.solver.WellFormed) (hw : P w.toGrounding)
    {m : World.Move}
    (hsolver : ∀ n, m = .solver n → P { w.toGrounding with solver := n.perform w.solver })
    (hdeclare : ∀ d, m = .declare d → P { w.toGrounding with base := d.perform w.base }) :
    P (m.perform w).toGrounding := by
  cases m with
  | solver n => exact hsolver n rfl
  | declare d => exact hdeclare d rfl
  | pattern p text => exact hw
  | phrase said => exact (onGrounding (h.literalOf said)).stateAfter (s := w) hw
  | literal text => exact (h.literal text).stateAfter (s := w) hw
  | call predicate entities => exact (h.callNamed predicate entities).stateAfter (s := w) hw
  | existential predicate sort =>
    exact (h.existentialNamed predicate sort).stateAfter (s := w) hw
  -- probes and commits ask the solver, and keep all constraints and names
  | probe sets =>
    have htwin := Solver.twin_probe (s := w.solver) rfl sets.flatten
    rw [World.Move.perform, World.stateAfter_probe]
    exact h.asks w.toGrounding _ ⟨htwin.atoms.symm, htwin.rules.symm, htwin.asserted.symm⟩
      ((Solver.preserves_probe sets.flatten).stateAfter hwf.grown).1 hw
  | commit ls =>
    have htwin := Solver.twin_modelWith (s := w.solver) rfl w.optimize ls
    rw [World.Move.perform, (World.commit_spec ls w).2]
    exact h.asks w.toGrounding _ ⟨htwin.atoms.symm, htwin.rules.symm, htwin.asserted.symm⟩
      ((Solver.preserves_modelWith w.optimize ls).stateAfter hwf.grown).1 hw
  | parse text => exact Preserves.stateAfter (s := w) (h.reading.parse text) hw

end Lasting

end Grounding

end Storyworld
