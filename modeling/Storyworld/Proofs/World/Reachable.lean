import Storyworld.Proofs.Interview.Questionnaire

namespace Storyworld

/-!
# Worlds that can be reached

`World.Move` is whatever may be done with a world, and `World.Reachable` says that a world comes
by such moves from a knowledge base that was only declared and a solver that can be reached.
Every world that can be reached is sound.
-/

namespace World

open Action

variable {ρ : Type} [RandomSource ρ] {w : World ρ} {count : Nat}

/-- What may be done with a world. -/
inductive Move where
  | solver (m : Solver.Move)
  | declare (d : KnowledgeBase.Declaration)
  | pattern (p : PredicateId) (text : String)
  | phrase (phrase : Phrase)
  | literal (text : String)
  | call (predicate : String) (entities : List String)
  | existential (predicate sort : String)
  | probe (sets : List (List Literal))
  | commit (implications : List Literal)
  | parse (text : String)

/-- The world after a move, whether it was refused or not. -/
def Move.perform : Move → World ρ → World ρ
  | .solver m, w => { w with solver := m.perform w.solver }
  | .declare d, w => { w with base := d.perform w.base }
  | .pattern p text, w => { w with grammar := (w.grammar.add w.base p text).toOption.getD w.grammar }
  | .phrase said, w => stateAfter (onGrounding (Grounding.literalOf said)) w
  | .literal text, w => stateAfter (World.literal text) w
  | .call predicate entities, w => stateAfter (World.call predicate entities) w
  | .existential predicate sort, w => stateAfter (World.existential predicate sort) w
  | .probe sets, w => stateAfter (World.probe sets) w
  | .commit implications, w => stateAfter (World.commit implications) w
  | .parse text, w => stateAfter (Questionnaire.parse text) w

/-- The world comes by moves from a knowledge base that was only declared and a solver that can be
reached. -/
inductive Reachable : World ρ → Prop where
  | start {base : KnowledgeBase} {solver : Solver ρ} (hbase : base.Declared)
    (hsolver : solver.Reachable) (grammar : Grammar) (optimize : Bool) :
    Reachable { base, solver, grammar, optimize }
  | move {w : World ρ} (hw : Reachable w) (m : Move) : Reachable (m.perform w)

theorem Sound.perform (hw : w.Sound count) (m : Move) : (m.perform w).Sound count := by
  cases m with
  | solver m => exact Grounding.Sound.withSolver hw (hw.solver.1.grown.perform m)
  | declare d => exact Grounding.Sound.withBase hw fun p => d.uses_perform w.base
  | pattern p text => exact hw
  | phrase said =>
    -- the atom that a phrase leads to is sound as well, but is not asked for here
    have hphrase : Preserves (Sound count) (onGrounding (ρ := ρ) (Grounding.literalOf said)) :=
      preserves_onGrounding fun g hg =>
        (Grounding.after_literalOf said hg).imp_done fun _ _ ht => ht.1
    exact hphrase.stateAfter hw
  | literal text => exact (preserves_literal text).stateAfter hw
  | call predicate entities => exact (preserves_call predicate entities).stateAfter hw
  | existential predicate sort => exact (preserves_existential predicate sort).stateAfter hw
  | probe sets => exact (preserves_probe sets).stateAfter hw
  | commit implications => exact (preserves_commit implications).stateAfter hw
  | parse text => exact (Questionnaire.preserves_parse text).stateAfter hw

/-- The questionnaire was read into the world, just now or some moves ago. -/
inductive Parsed (q : Questionnaire) : World ρ → Prop where
  | parse {w t : World ρ} (hw : w.Reachable) (text : String)
    (h : Questionnaire.parse text w = .ok q t) : Parsed q t
  | move {w : World ρ} (hw : Parsed q w) (m : Move) : Parsed q (m.perform w)

/-- **Every world that can be reached is sound.** -/
theorem Reachable.sound (hw : w.Reachable) : w.Sound w.atomCount := by
  induction hw with
  | start hbase hsolver grammar optimize =>
    refine ⟨hsolver.wellFormed.grown, fun p e he => ?_, fun p e he => ?_⟩
    · -- nothing has been called yet
      have hempty : (_, _) = _ := hbase.uses (p := p)
      rw [(Prod.mk.inj hempty).1] at he
      cases he
    · have hempty : (_, _) = _ := hbase.uses (p := p)
      rw [(Prod.mk.inj hempty).2] at he
      cases he
  | move hw m ih => exact (ih.perform m).now

/-- A questionnaire that was read mentions atoms of the language only, also later on. -/
theorem Parsed.known {q : Questionnaire} (hw : w.Parsed q) :
    w.Sound w.atomCount ∧ ∀ l ∈ q.mentions, l.atom < w.atomCount := by
  induction hw with
  | parse hw text h =>
    have hparsed := (Questionnaire.after_parse text hw.sound).of_ok h
    exact ⟨hparsed.1.now, hparsed.2⟩
  | move hw m ih =>
    have hmoved := ih.1.perform m
    exact ⟨hmoved.now, fun l hl => Nat.lt_of_lt_of_le (ih.2 l hl) hmoved.le⟩

end World

end Storyworld
