import Storyworld.Proofs.Knowledge.Twins
import Storyworld.Proofs.World.Reachable

namespace Storyworld

/-!
# Worlds do not see what searches leave behind

Two worlds are twins when their groundings are, they read phrases in the same way and, where
nothing is left to chance, they have the same snapshot. Every move leaves twins twins
(`Twin.perform`), and a probe leaves a world a twin of what it was (`Twin.probed`). A commit is the
one move whose answer a search decides, so the twins have to be well formed for it.
-/

namespace World

open Action

variable {ρ : Type} {α : Type} {config : Config} {optimize : Bool} {w w' u : World ρ}

/-- The groundings are twins, the settings are those given, and the rest is the same. The snapshots
may differ where a decision of a search may be left to chance. -/
structure Twin (config : Config) (optimize : Bool) (w w' : World ρ) : Prop where
  grounding : Grounding.Twin config w.toGrounding w'.toGrounding
  grammar : w.grammar = w'.grammar
  left : w.optimize = optimize
  right : w'.optimize = optimize
  snapshot : Solver.Certain optimize config → w.snapshot? = w'.snapshot?

/-- A world with the settings given is its own twin. -/
theorem Twin.refl (hconfig : w.solver.config = config) (hoptimize : w.optimize = optimize) :
    Twin config optimize w w :=
  ⟨⟨rfl, Solver.Twin.refl hconfig⟩, rfl, hoptimize, hoptimize, fun _ => rfl⟩

theorem Twin.symm (h : Twin config optimize w w') : Twin config optimize w' w where
  grounding := ⟨h.grounding.base.symm, h.grounding.solver.symm⟩
  grammar := h.grammar.symm
  left := h.right
  right := h.left
  snapshot hcertain := (h.snapshot hcertain).symm

theorem Twin.trans (h : Twin config optimize w w') (h' : Twin config optimize w' u) :
    Twin config optimize w u where
  grounding :=
    ⟨h.grounding.base.trans h'.grounding.base, h.grounding.solver.trans h'.grounding.solver⟩
  grammar := h.grammar.trans h'.grammar
  left := h.left
  right := h'.right
  snapshot hcertain := (h.snapshot hcertain).trans (h'.snapshot hcertain)

/-! ### Phrases, calls and existentials -/

/-- What a grounding does blindly is done blindly in its world. -/
theorem blind_onGrounding {act : EStateM Error (Grounding ρ) α}
    (h : Blind (Grounding.Twin config) act) : Blind (Twin config optimize) (onGrounding act) := by
  intro w w' hw
  have hact := h _ _ hw.grounding
  unfold Agree answer Action.stateAfter onGrounding at *
  cases he : act w.toGrounding <;> cases he' : act w'.toGrounding <;> rw [he, he'] at hact <;>
    exact ⟨hact.1, hact.2, hw.grammar, hw.left, hw.right, hw.snapshot⟩

/-- What a solver does blindly is done blindly in its world. -/
theorem blind_onSolver {act : EStateM Error (Solver ρ) α} (h : Blind (Solver.Twin config) act) :
    Blind (Twin config optimize) (onSolver act) :=
  blind_onGrounding (Grounding.blind_onSolver h)

/-- What is done with the world that was read may depend on its knowledge base and its grammar. -/
theorem blind_read {next : World ρ → EStateM Error (World ρ) α}
    (h : ∀ w, Blind (Twin config optimize) (next w))
    (hread : ∀ w w' : World ρ, w.base = w'.base → w.grammar = w'.grammar → next w = next w' := by
      intro _ _ hbase hgrammar
      simp only [hbase, hgrammar]) : Blind (Twin config optimize) (get >>= next) :=
  blind_get fun w w' hw => hread w w' hw.grounding.base hw.grammar ▸ h w w w' hw

/-- A phrase has the same literal in twins and leaves them twins. -/
theorem blind_literal (text : String) : Blind (Twin config optimize) (literal (ρ := ρ) text) :=
  blind_read fun _ => (blind_ofExcept _).bind fun phrase =>
    blind_onGrounding (Grounding.blind_literalOf phrase)

/-- A call by names has the same answer in twins and leaves them twins. -/
theorem blind_call (predicate : String) (entities : List String) :
    Blind (Twin config optimize) (call (ρ := ρ) predicate entities) := by
  unfold call
  refine blind_read fun w => (blind_ofExcept _).bind fun p => ?_
  split
  · exact blind_onGrounding (Grounding.blind_call p _)
  · exact blind_throw _

/-- An existential by names has the same answer in twins and leaves them twins. -/
theorem blind_existential (predicate sort : String) :
    Blind (Twin config optimize) (existential (ρ := ρ) predicate sort) :=
  blind_read fun _ => (blind_ofExcept _).bind fun p => (blind_ofExcept _).bind fun s =>
    blind_onGrounding (Grounding.blind_existential p s)

end World

namespace Questionnaire

open Action

variable {ρ : Type} {config : Config} {optimize : Bool}

/-! ### Questionnaires -/

theorem blind_literalsOf (phrases : List String) :
    Blind (World.Twin config optimize) (literalsOf (ρ := ρ) phrases) := by
  induction phrases with
  | nil => exact blind_pure _
  | cons phrase phrases ih =>
    exact (World.blind_literal phrase).bind fun _ => ih.bind fun _ => blind_pure _

/-- A list of phrases is read alike in twins. -/
theorem blind_literals (list : String) :
    Blind (World.Twin config optimize) (literals (ρ := ρ) list) :=
  blind_literalsOf _

/-- A head is the same atom in twins, or is refused in both. -/
theorem blind_headAtom (head : String) :
    Blind (World.Twin config optimize) (headAtom (ρ := ρ) head) := by
  refine (World.blind_literal head).bind fun l => ?_
  split
  · exact blind_pure _
  · exact blind_throw _

/-- A line is read alike in twins: what it adds to the draft and what it asserts are the same. -/
theorem blind_readLine (d : Draft) (line : String) :
    Blind (World.Twin config optimize) (readLine (ρ := ρ) d line) := by
  have hassert : ∀ c,
      Blind (World.Twin config optimize) (World.onSolver (ρ := ρ) (Solver.assert c)) :=
    fun c => World.blind_onSolver (Solver.blind_assert c)
  -- one case for each kind of line
  unfold readLine
  split
  · exact blind_pure _
  · exact blind_pure _
  · exact blind_ofExcept _
  · exact (blind_literals _).bind fun _ => blind_ofExcept _
  · exact (blind_headAtom _).bind fun _ => (blind_literals _).bind fun _ =>
      (hassert _).bind fun _ => blind_pure _
  · exact (blind_headAtom _).bind fun _ => (blind_literals _).bind fun _ =>
      (hassert _).bind fun _ => blind_pure _
  · exact (blind_literals _).bind fun _ => (hassert _).bind fun _ => blind_pure _
  · exact (blind_literals _).bind fun ls =>
      (World.blind_onSolver (Solver.blind_unique ls)).bind fun _ => blind_pure _
  · exact (blind_literals _).bind fun ls =>
      (World.blind_onSolver (Solver.blind_addAtMost 1 ls)).bind fun _ => blind_pure _
  · exact blind_throw _

/-- Lines are read alike in twins, up to the first that is refused. -/
theorem blind_readLines (d : Draft) (number : Nat) (lines : List String) :
    Blind (World.Twin config optimize) (readLines (ρ := ρ) d number lines) := by
  induction lines generalizing d number with
  | nil => exact blind_pure _
  | cons line lines ih =>
    exact ((blind_readLine d line).tryCatch fun _ => blind_throw _).bind fun d' =>
      ih d' (number + 1)

/-- A text is read as the same questionnaire in twins, or is refused in both. -/
theorem blind_parse (text : String) : Blind (World.Twin config optimize) (parse (ρ := ρ) text) :=
  (blind_readLines {} 1 (Text.lines text)).bind fun _ => blind_pure _

end Questionnaire

namespace World

open Action

variable {ρ : Type} {config : Config} {optimize : Bool} {w w' u : World ρ} [RandomSource ρ]

/-! ### Probes and commits -/

/-- A probe of a world is one of its solver, for all the sets together. -/
theorem answer_probe (sets : List (List Literal)) (w : World ρ) :
    answer (probe sets) w = answer (Solver.probe sets.flatten) w.solver := by
  unfold answer probe onSolver onGrounding Grounding.onSolver
  cases Solver.probe sets.flatten w.solver <;> rfl

/-- A probe changes nothing of a world but its solver. -/
theorem stateAfter_probe (sets : List (List Literal)) (w : World ρ) :
    stateAfter (probe sets) w =
      { w with solver := stateAfter (Solver.probe sets.flatten) w.solver } := by
  unfold stateAfter probe onSolver onGrounding Grounding.onSolver
  cases Solver.probe sets.flatten w.solver <;> rfl

/-- A probe leaves a world a twin of what it was. -/
theorem Twin.probed (hconfig : w.solver.config = config) (hoptimize : w.optimize = optimize)
    (sets : List (List Literal)) : Twin config optimize w (stateAfter (probe sets) w) := by
  rw [stateAfter_probe]
  have hsolver := Solver.twin_probe hconfig sets.flatten
  exact ⟨⟨rfl, hsolver⟩, rfl, hoptimize, hoptimize, fun _ => rfl⟩

/-- A commit asks the solver for a model, and records the one it is given. -/
theorem commit_eq (ls : List Literal) (w : World ρ) :
    commit ls w =
      match Solver.modelWith w.optimize ls w.solver with
      | .ok none s => .error .unsatisfiableCommit { w with solver := s }
      | .ok (some m) s =>
        .ok (Snapshot.ofModel w.base s.atoms m)
          { w with solver := s, snapshot? := some (Snapshot.ofModel w.base s.atoms m) }
      | .error e s => .error e { w with solver := s } := by
  -- to ask the solver is the only step that can be refused
  have hask : ∀ next : Option Model → EStateM Error (World ρ) Snapshot,
      (onSolver (Solver.modelWith w.optimize ls) >>= next) w =
        match Solver.modelWith w.optimize ls w.solver with
        | .ok m s => next m { w with solver := s }
        | .error e s => .error e { w with solver := s } := by
    intro next
    show EStateM.bind _ next w = _
    unfold EStateM.bind onSolver onGrounding Grounding.onSolver
    cases Solver.modelWith w.optimize ls w.solver <;> rfl
  refine (hask _).trans ?_
  cases Solver.modelWith w.optimize ls w.solver with
  | error e s => rfl
  | ok m s => cases m <;> rfl

omit [RandomSource ρ] in
/-- What a commit answers, from what the solver answers. -/
def recorded (base : KnowledgeBase) (atoms : Atoms) :
    Except Error (Option Model) → Except Error Snapshot
  | .ok (some m) => .ok (Snapshot.ofModel base atoms m)
  | .ok none => .error .unsatisfiableCommit
  | .error e => .error e

/-- What a commit answers, and the world it leaves. -/
theorem commit_spec (ls : List Literal) (w : World ρ) :
    answer (commit ls) w =
        recorded w.base w.solver.atoms (answer (Solver.modelWith w.optimize ls) w.solver) ∧
      stateAfter (commit ls) w =
        { w with
          solver := stateAfter (Solver.modelWith w.optimize ls) w.solver
          snapshot? := (answer (commit ls) w).toOption <|> w.snapshot? } := by
  have hatoms := (Solver.twin_modelWith (s := w.solver) rfl w.optimize ls).atoms
  unfold answer stateAfter at *
  rw [commit_eq]
  cases hask : Solver.modelWith w.optimize ls w.solver with
  | error e s => exact ⟨rfl, rfl⟩
  | ok m s =>
    -- the search makes no atom, so facts are named as before it
    rw [hask] at hatoms
    cases m with
    | none => exact ⟨rfl, rfl⟩
    | some m => exact ⟨by rw [hatoms]; rfl, rfl⟩

/-- The same is committed in twins where nothing is left to chance. -/
theorem Twin.answer_commit (h : Twin config optimize w w') (hw : w.solver.WellFormed)
    (hw' : w'.solver.WellFormed) (hcertain : Solver.Certain optimize config)
    (ls : List Literal) : answer (commit ls) w = answer (commit ls) w' := by
  rw [(commit_spec ls w).1, (commit_spec ls w').1, h.grounding.base, h.grounding.solver.atoms,
    h.left, h.right, Solver.answer_modelWith hcertain h.grounding.solver hw hw' ls]

/-- A commit leaves twins twins, as both find a model or neither does. -/
theorem Twin.commit (h : Twin config optimize w w') (hw : w.solver.WellFormed)
    (hw' : w'.solver.WellFormed) (ls : List Literal) :
    Twin config optimize (stateAfter (World.commit ls) w) (stateAfter (World.commit ls) w') := by
  have hleft := Solver.twin_modelWith h.grounding.solver.left w.optimize ls
  have hright := Solver.twin_modelWith h.grounding.solver.right w'.optimize ls
  have hcommitted : Solver.Certain optimize config →
      ((answer (World.commit ls) w).toOption <|> w.snapshot?) =
        ((answer (World.commit ls) w').toOption <|> w'.snapshot?) := by
    intro hcertain
    rw [h.answer_commit hw hw' hcertain ls, h.snapshot hcertain]
  rw [(commit_spec ls w).2, (commit_spec ls w').2]
  exact ⟨⟨h.grounding.base, hleft.symm.trans (h.grounding.solver.trans hright)⟩, h.grammar,
    h.left, h.right, hcommitted⟩

/-! ### Moves -/

/-- Whatever is done with twins, they stay twins. -/
theorem Twin.perform (h : Twin config optimize w w') (hw : w.solver.WellFormed)
    (hw' : w'.solver.WellFormed) (m : Move) :
    Twin config optimize (m.perform w) (m.perform w') := by
  cases m with
  | solver m =>
    exact ⟨⟨h.grounding.base, h.grounding.solver.perform m⟩, h.grammar, h.left, h.right, h.snapshot⟩
  | declare d =>
    exact ⟨⟨congrArg d.perform h.grounding.base, h.grounding.solver⟩, h.grammar, h.left, h.right,
      h.snapshot⟩
  | pattern p text =>
    refine ⟨h.grounding, ?_, h.left, h.right, h.snapshot⟩
    show (w.grammar.add w.base p text).toOption.getD w.grammar = _
    rw [h.grammar, h.grounding.base]
    rfl
  | phrase said => exact (blind_onGrounding (Grounding.blind_literalOf said) _ _ h).2
  | literal text => exact (blind_literal text _ _ h).2
  | call predicate entities => exact (blind_call predicate entities _ _ h).2
  | existential predicate sort => exact (blind_existential predicate sort _ _ h).2
  -- each of the two is a twin of what it was
  | probe sets =>
    exact (Twin.probed h.grounding.solver.left h.left sets).symm.trans
      (h.trans (Twin.probed h.grounding.solver.right h.right sets))
  | commit ls => exact h.commit hw hw' ls
  | parse text => exact (Questionnaire.blind_parse text _ _ h).2

end World

end Storyworld
