import Storyworld.Proofs.Knowledge.Later
import Storyworld.Proofs.World.Typing

namespace Storyworld

/-!
# Commits are frozen and atomic

A commit records a model, and what predicates make of the model is worked out from the domains each
time it is asked for. The domains go on to grow. Still the answers stay what they were
(`Frozen`): arguments that were called stand where they stood and are of the sorts they were of, and
what is called later has an atom that the model knows nothing of.

`World.Unfailing` says that no predicate call has failed in a world, and that nobody has asked for
the proposition of a call other than by calling. `Regular.perform_beyond` is the step,
`Regular.run_beyond` the run between two commits, and `Unfailing.commit_frozen` the theorem. A commit
that is refused leaves the world untouched.
-/

namespace World

open Action KnowledgeBase

variable {ρ : Type} {w t u : World ρ} {n : Nat} {kb : KnowledgeBase}

/-! ### What an earlier model says -/

/-- What a predicate makes of a model is the same, if it makes the same of it where it was there and
made nothing of it where it was not. -/
theorem onModel_of_later {α : Type} {f f' : PredicateId → Model → List α}
    (h : Later n w.base t.base) (hw : w.base.Orderly) (ht : t.base.Orderly)
    (hsnapshot : t.snapshot? = w.snapshot?)
    (hsame : ∀ p s, w.snapshot? = some s → f' p s.model = f p s.model)
    (hnil : ∀ p m, w.base.predicates.size ≤ p → f p m = []) (predicate : String) :
    t.onModel predicate f' = w.onModel predicate f := by
  unfold onModel
  rw [hsnapshot]
  cases hs : w.snapshot? with
  | none => rfl
  | some s =>
    cases hnow : t.base.predicateNamed? predicate with
    | none =>
      cases hthen : w.base.predicateNamed? predicate with
      | none => rfl
      | some p =>
        have hp := (hw.predicateNamed?_eq_some_iff.1 hthen).1
        rw [(h.predicateNamed?_eq_some_iff hw ht hp).2 hthen] at hnow
        cases hnow
    | some p =>
      rcases Nat.lt_or_ge p w.base.predicates.size with hp | hp
      · rw [(h.predicateNamed?_eq_some_iff hw ht hp).1 hnow]
        exact hsame p s hs
      · -- a predicate that was declared since then, by a name that no predicate had
        have hnone : w.base.predicateNamed? predicate = none := by
          apply Option.eq_none_iff_forall_ne_some.2
          intro q hq
          have hlt := (hw.predicateNamed?_eq_some_iff.1 hq).1
          rw [(h.predicateNamed?_eq_some_iff hw ht hlt).2 hq] at hnow
          cases hnow
          omega
        rw [hnone]
        exact (hsame p s hs).trans (hnil p s.model hp)

/-- The snapshot is the same, and so is everything that is read off it. -/
structure Frozen (w t : World ρ) : Prop where
  snapshot : t.snapshot? = w.snapshot?
  summary : t.summary = w.summary
  extension : ∀ predicate signature, t.extension predicate signature = w.extension predicate signature
  rightRelata : ∀ predicate left, t.rightRelata predicate left = w.rightRelata predicate left
  leftRelata : ∀ predicate right, t.leftRelata predicate right = w.leftRelata predicate right

/-- Where new calls have atoms that the model knows nothing of, the snapshot says what it said. -/
theorem frozen_of_beyond (h : Grounding.Beyond n w.base t.toGrounding) (hw : w.Regular)
    (hsnapshot : t.snapshot? = w.snapshot?)
    (hmodel : ∀ s, w.snapshot? = some s → s.model.atomCount ≤ n) : Frozen w t where
  snapshot := hsnapshot
  summary := by
    unfold World.summary committed
    rw [hsnapshot]
  -- what is asked of a model is answered from the domains, which have grown by unknown atoms only
  extension predicate signature := by
    apply onModel_of_later h.later hw.typed.orderly h.typed.orderly hsnapshot
    · intro p s hs
      exact h.later.extension (hmodel s hs) hw.typed.orderly.toPlaced
        (fun _ _ ha => hw.typed.registered ha) signature
    · intro p m hp
      unfold KnowledgeBase.extension
      rw [trueArguments_of_ge hp]
      rfl
  rightRelata predicate left := by
    apply onModel_of_later h.later hw.typed.orderly h.typed.orderly hsnapshot
    · intro p s hs
      exact h.later.rightRelata (hmodel s hs) p left
    · intro p m hp
      unfold KnowledgeBase.rightRelata
      rw [trueArguments_of_ge hp]
      rfl
  leftRelata predicate right := by
    apply onModel_of_later h.later hw.typed.orderly h.typed.orderly hsnapshot
    · intro p s hs
      exact h.later.leftRelata (hmodel s hs) p right
    · intro p m hp
      unfold KnowledgeBase.leftRelata
      rw [trueArguments_of_ge hp]
      rfl

variable [RandomSource ρ] {ls : List Literal} {snapshot : Snapshot} {e : Error}

/-! ### What one commit does -/

/-- The model that is recorded speaks of the atoms there are. -/
theorem commit_eq_ok (h : commit ls w = .ok snapshot t) :
    t.snapshot? = some snapshot ∧ snapshot.model.atomCount = t.atomCount := by
  have hask := Solver.after_modelWith w.optimize ls w.solver
  rw [commit_eq] at h
  unfold After at hask
  -- a commit goes through exactly when a model is found
  cases hmodel : Solver.modelWith w.optimize ls w.solver with
  | error e s =>
    rw [hmodel] at h
    cases h
  | ok m s =>
    rw [hmodel] at h hask
    cases m with
    | none => cases h
    | some m =>
      cases h
      exact ⟨rfl, hask.2 m rfl⟩

/-- **A commit that is refused leaves the world untouched.** It is refused where there is no model,
or for a literal whose atom is not known. -/
theorem commit_eq_error (h : commit ls w = .error e t) :
    (e = .unsatisfiableCommit ∨ ∃ l ∈ ls, w.atomCount ≤ l.atom ∧ e = .unknownAtom l.atom) ∧
      Untouched w t := by
  have hask := Solver.after_modelWith w.optimize ls w.solver
  -- to ask for a model leaves a twin of the solver, whatever the answer
  have htwin := Solver.twin_modelWith (s := w.solver) rfl w.optimize ls
  rw [commit_eq] at h
  unfold After at hask
  unfold stateAfter at htwin
  cases hmodel : Solver.modelWith w.optimize ls w.solver with
  | error e' s =>
    rw [hmodel] at h hask htwin
    cases h
    exact ⟨Or.inr hask.2, untouched_of_twin htwin hask.1.2⟩
  | ok m s =>
    rw [hmodel] at h hask htwin
    cases m with
    | none =>
      cases h
      exact ⟨Or.inl rfl, untouched_of_twin htwin hask.1.2⟩
    | some m => cases h

/-! ### Moves in which no call fails -/

/-- The second world comes from the first when phrases are read, in none of which a call fails, and
solver moves are made that name no calls. -/
inductive Reads (w : World ρ) : World ρ → Prop where
  | start : Reads w w
  | literal {t : World ρ} (h : Reads w t) {text : String} (hsmooth : Harmless (World.literal text) t) :
    Reads w (stateAfter (World.literal text) t)
  | solver {t : World ρ} (h : Reads w t) {m : Solver.Move} (hm : m.Avoids Proposition.IsCall) :
    Reads w { t with solver := m.perform t.solver }

/-- A questionnaire is read phrase by phrase. -/
theorem reading_reads (w : World ρ) : Questionnaire.Reading (Reads w) (fun _ => True) where
  refused _ _ := trivial
  literal text t ht := after_of_isSome fun hsome => ht.literal (harmless_of_isSome hsome)
  -- what is read counts only if it went through, so each assertion is a move that did
  asserts c t ht := by
    apply after_onSolver.2
    cases c with
    | clause c => exact after_bind.2 (after_of_isSome fun _ => ht.solver (m := .addClause c) trivial)
    | implication body head =>
      exact after_bind.2 (after_of_isSome fun _ =>
        ht.solver (m := .addClause [body.negate, head]) trivial)
    | rule head body =>
      exact after_bind.2 (after_of_isSome fun _ => ht.solver (m := .addRule head body) trivial)
  bounds bound ls t ht :=
    after_onSolver.2 (after_of_isSome fun _ => ht.solver (m := .addAtMost bound ls) trivial)

/-- Where it goes through, no call has failed in it. -/
theorem reads_parse {text : String} (h : (value? (Questionnaire.parse text) w).isSome) :
    Reads w (stateAfter (Questionnaire.parse text) w) := by
  obtain ⟨q, hq⟩ := Option.isSome_iff_exists.1 h
  exact ((reading_reads w).parse text w .start).of_ok (eq_ok_of_value? hq)

/-- No predicate call fails in the move, and it asks for the proposition of a call by calling
only. A questionnaire may be refused for other reasons, once some phrases of it have been read. -/
def Move.Smooth (w : World ρ) : Move → Prop
  | .solver m => m.Avoids Proposition.IsCall
  | .phrase said => Harmless (onGrounding (Grounding.literalOf said)) w
  | .literal text => Harmless (World.literal text) w
  | .call predicate entities => Harmless (World.call predicate entities) w
  | .parse text => Reads w (stateAfter (Questionnaire.parse text) w)
  | .declare _ | .pattern _ _ | .existential _ _ | .probe _ | .commit _ => True

/-- The move is a commit that goes through. -/
def Move.Commits (w : World ρ) : Move → Prop
  | .commit ls => (value? (World.commit ls) w).isSome
  | _ => False

/-- In each of the moves no predicate call fails, and none of them is a commit that goes through. -/
def QuietAll : List Move → World ρ → Prop
  | [], _ => True
  | m :: ms, w => (m.Smooth w ∧ ¬ m.Commits w) ∧ QuietAll ms (m.perform w)

/-- **No smooth move gives an earlier atom to a new call**, and the snapshot is replaced by a commit
only. -/
theorem Regular.perform_beyond (hw : w.Regular) (h : Grounding.Beyond n kb w.toGrounding) {m : Move}
    (hm : m.Valid w) (hsmooth : m.Smooth w) :
    Grounding.Beyond n kb (m.perform w).toGrounding ∧
      (¬ m.Commits w → (m.perform w).snapshot? = w.snapshot?) := by
  have hstart : Onto w (Grounding.Ahead n kb w.base) w := ⟨⟨h, SameNumbers.refl _⟩, rfl⟩
  have hcarried := Grounding.carried_ahead (ρ := ρ) n kb hw.existence
  -- phrases and calls leave the snapshot alone
  have honto : ∀ {u : World ρ}, Onto w (Grounding.Ahead n kb w.base) u →
      Grounding.Beyond n kb u.toGrounding ∧ (¬ m.Commits w → u.snapshot? = w.snapshot?) :=
    fun hu => ⟨hu.1.1, fun _ => by rw [hu.2]⟩
  cases m with
  | solver m =>
    exact ⟨h.withSolver (hw.typed.backed.spares_move m) (Solver.sameNames_perform hsmooth w.solver),
      fun _ => rfl⟩
  | declare d =>
    obtain ⟨hdevelops, horder⟩ := d.develops hm hw.typed.orderly
    exact ⟨h.develops hdevelops horder, fun _ => rfl⟩
  | pattern p text => exact ⟨h, fun _ => rfl⟩
  | phrase said =>
    exact honto ((maintains_onGrounding (hcarried.literalOf hm)).harmless hstart hsmooth)
  | literal text => exact honto ((hcarried.literal hw.grammar text).harmless hstart hsmooth)
  | call predicate entities =>
    exact honto ((hcarried.call predicate entities).harmless hstart hsmooth)
  | existential predicate sort =>
    have hrequest : Preserves (Onto w (Grounding.Ahead n kb w.base))
        (World.existential predicate sort) :=
      (Grounding.requests_ahead n kb w.base).existentialNamed predicate sort
    exact honto (hrequest.stateAfter hstart)
  | probe sets =>
    have htwin := Solver.twin_probe (s := w.solver) rfl sets.flatten
    rw [Move.perform, stateAfter_probe]
    exact ⟨h.withSolver (hw.typed.backed.spares_probe sets.flatten)
      (Solver.SameNames.of_atoms htwin.atoms.symm), fun _ => rfl⟩
  | commit ls =>
    have htwin := Solver.twin_modelWith (s := w.solver) rfl w.optimize ls
    rw [Move.perform, (commit_spec ls w).2]
    refine ⟨h.withSolver (hw.typed.backed.spares_modelWith w.optimize ls)
      (Solver.SameNames.of_atoms htwin.atoms.symm), fun hfails => ?_⟩
    have hnone : (answer (World.commit ls) w).toOption = none :=
      (toOption_answer _ w).trans (Option.not_isSome_iff_eq_none.1 hfails)
    rw [hnone]
    rfl
  | parse text =>
    -- a questionnaire is read as a run of phrases and assertions, each of which went through
    have hreads : ∀ u, Reads w u → Onto w (Grounding.Ahead n kb w.base) u := by
      intro u hu
      induction hu with
      | start => exact hstart
      | literal _ hsmooth ih => exact (hcarried.literal hw.grammar _).harmless ih hsmooth
      | @solver u _ m hm ih =>
        obtain ⟨⟨hbeyond, hnumbers⟩, hframe⟩ := ih
        refine ⟨⟨hbeyond.withSolver (hbeyond.typed.backed.spares_move m)
          (Solver.sameNames_perform hm u.solver), hnumbers⟩, ?_⟩
        rw [hframe]
    exact honto (hreads _ hsmooth)

/-- Between two commits the snapshot stays, and no earlier atom is given to a new call. -/
theorem Regular.run_beyond (hw : w.Regular) (h : Grounding.Beyond n kb w.toGrounding)
    {ms : List Move} (hvalid : ValidAll ms w) (hquiet : QuietAll ms w) :
    Grounding.Beyond n kb (w.run ms).toGrounding ∧ (w.run ms).snapshot? = w.snapshot? := by
  induction ms generalizing w with
  | nil => exact ⟨h, rfl⟩
  | cons m ms ih =>
    obtain ⟨hstep, hsame⟩ := hw.perform_beyond h hvalid.1 hquiet.1.1
    obtain ⟨hrun, hsame'⟩ := ih (hw.perform hvalid.1).1 hstep hvalid.2 hquiet.2
    exact ⟨hrun, hsame'.trans (hsame hquiet.1.2)⟩

/-! ### Worlds in which no call has failed -/

/-- The world comes from one that has only a root sort and a solver without constraints, by valid
moves in which no predicate call failed. -/
inductive Unfailing : World ρ → Prop where
  | start (root : String) (config : Config) (source : ρ) (optimize : Bool) :
    Unfailing { base := KnowledgeBase.ofRoot root, solver := Solver.ofConfig config source, optimize }
  | move {w : World ρ} (hw : Unfailing w) {m : Move} (hm : m.Valid w) (hsmooth : m.Smooth w) :
    Unfailing (m.perform w)

theorem Unfailing.built (hw : w.Unfailing) : w.Built := by
  induction hw with
  | start root config source optimize => exact Built.start root (.start config source) optimize
  | move hw hm hsmooth ih => exact ih.move hm

/-- Every call whose name has an atom was made. -/
theorem Unfailing.beyond (hw : w.Unfailing) :
    Grounding.Beyond w.atomCount w.base w.toGrounding := by
  induction hw with
  | start root config source optimize =>
    refine ⟨(Unfailing.start root config source optimize).built.regular.typed, Nat.le_refl _,
      Later.refl _ _, fun name args a ha => ?_⟩
    rw [show (Solver.ofConfig config source).atoms.named? _ = none from Atoms.named?_start _] at ha
    cases ha
  | move hw hm hsmooth ih => exact (hw.built.regular.perform_beyond ih hm hsmooth).1.now

theorem Unfailing.run (hw : w.Unfailing) {ms : List Move} (hvalid : ValidAll ms w)
    (hquiet : QuietAll ms w) : (w.run ms).Unfailing := by
  induction ms generalizing w with
  | nil => exact hw
  | cons m ms ih => exact ih (hw.move hvalid.1 hquiet.1.1) hvalid.2 hquiet.2

/-- **A commit is frozen and atomic**, in every world in which no predicate call has failed and nobody
has asked for the proposition of a call other than by calling. When it goes through, its snapshot is
what is committed, and any valid moves in which no call fails, with commits among them that fail,
leave the snapshot, its summary, and all extensions and relata as they were; the next commit that
goes through replaces them. When it is refused, there is no model or an atom is not known, and
nothing is assumed, and the snapshot, the asserted clauses, the rules and the atoms are as they
were. -/
theorem Unfailing.commit_frozen (hw : w.Unfailing) (ls : List Literal) :
    (∀ snapshot t, commit ls w = .ok snapshot t →
      t.committed = .ok snapshot ∧ ∀ ms, ValidAll ms t → QuietAll ms t →
        Frozen t (t.run ms) ∧ ∀ ls' snapshot' u,
          commit ls' (t.run ms) = .ok snapshot' u → u.committed = .ok snapshot') ∧
    ∀ e t, commit ls w = .error e t →
      (e = .unsatisfiableCommit ∨ ∃ l ∈ ls, w.atomCount ≤ l.atom ∧ e = .unknownAtom l.atom) ∧
        Untouched w t := by
  refine ⟨fun snapshot t hcommit => ?_, fun e t hcommit => commit_eq_error hcommit⟩
  -- what a commit returns is what it records
  have hrecorded : ∀ {ls snapshot} {w t : World ρ}, commit ls w = .ok snapshot t →
      t.committed = .ok snapshot := fun hcommit => by
    unfold committed
    rw [(commit_eq_ok hcommit).1]
  refine ⟨hrecorded hcommit, fun ms hvalid hquiet => ⟨?_, fun _ _ _ => hrecorded⟩⟩
  obtain ⟨hsnapshot, hcount⟩ := commit_eq_ok hcommit
  have ht : t.Unfailing := by
    have hmove := hw.move (m := .commit ls) trivial trivial
    rwa [Move.perform, stateAfter, hcommit] at hmove
  -- from here on the commit that is frozen is the last one
  obtain ⟨hbeyond, hsame⟩ := ht.built.regular.run_beyond ht.beyond hvalid hquiet
  refine frozen_of_beyond hbeyond ht.built.regular hsame fun s hs => ?_
  rw [hsnapshot] at hs
  rw [← Option.some.inj hs]
  exact Nat.le_of_eq hcount

/-- Ann waits, and that is committed. Then Bob is called upon in a phrase and again in a questionnaire,
and some person in an existential; it is ruled out that Ann waits, and two commits fail. -/
theorem commit_frozen_ann :
    let made : List Move := [.declare (.subsort "person" 0),
      .declare (.predicate "waits" (.unary 0)), .pattern 0 "_ waits", .call "waits" ["Ann"]]
    let ms : List Move := [.declare (.entity "Bob" 1), .literal "Bob waits",
      .parse "Q: Who waits?\n Bob waits", .existential "waits" "person", .probe [[Literal.pos 2]],
      .solver (.addClause [Literal.neg 1]), .commit [Literal.pos 1], .commit [Literal.pos 9]]
    let w := (World.empty "entity" {}).run made
    let t := stateAfter (commit [Literal.pos 1]) w
    w.Unfailing ∧ ValidAll ms t ∧ QuietAll ms t ∧ Frozen t (t.run ms) ∧
      ((t.run ms).base.predicate 0).domain.toList = [(.one "Ann", 1), (.one "Bob", 2)] ∧
      (t.run ms).extension "waits" (.unary 0) = [.one "Ann"] ∧
      ∃ snapshot u, commit [Literal.pos 2] (t.run ms) = .ok snapshot u ∧
        u.committed = .ok snapshot ∧ u.extension "waits" (.unary 0) = [.one "Bob"] := by
  intro made ms w t
  have hvalid : ValidAll made (World.empty "entity" {}) := by decide +kernel
  have hquiet : QuietAll made (World.empty "entity" {}) := by
    refine ⟨⟨trivial, nofun⟩, ⟨trivial, nofun⟩, ⟨trivial, nofun⟩, ⟨?_, nofun⟩, trivial⟩
    exact harmless_of_isSome (by decide +kernel)
  have hw : w.Unfailing := Unfailing.run (.start "entity" {} _ false) hvalid hquiet
  have hvalid' : ValidAll ms t := by decide +kernel
  have hquiet' : QuietAll ms t := by
    refine ⟨⟨trivial, nofun⟩, ⟨?_, nofun⟩, ⟨?_, nofun⟩, ⟨trivial, nofun⟩, ⟨trivial, nofun⟩,
      ⟨trivial, nofun⟩, ⟨trivial, ?_⟩, ⟨trivial, ?_⟩, trivial⟩
    · exact harmless_of_isSome (by decide +kernel)
    · exact reads_parse (by decide +kernel)
    · show ¬ (value? _ _).isSome = true
      decide +kernel
    · show ¬ (value? _ _).isSome = true
      decide +kernel
  obtain ⟨snapshot, hsnapshot⟩ : ∃ snapshot, value? (commit [Literal.pos 1]) w = some snapshot :=
    Option.isSome_iff_exists.1 (by decide +kernel)
  have hcommit : commit [Literal.pos 1] w = .ok snapshot t := eq_ok_of_value? hsnapshot
  obtain ⟨-, hrun⟩ := (hw.commit_frozen [Literal.pos 1]).1 snapshot t hcommit
  obtain ⟨hfrozen, hnext⟩ := hrun ms hvalid' hquiet'
  have hextension : t.extension "waits" (.unary 0) = [.one "Ann"] := by decide +kernel
  obtain ⟨snapshot', hsnapshot'⟩ :
      ∃ snapshot', value? (commit [Literal.pos 2]) (t.run ms) = some snapshot' :=
    Option.isSome_iff_exists.1 (by decide +kernel)
  have hcommit' := eq_ok_of_value? hsnapshot'
  exact ⟨hw, hvalid', hquiet', hfrozen, by decide +kernel,
    (hfrozen.extension "waits" (.unary 0)).trans hextension, snapshot', _, hcommit',
    hnext _ _ _ hcommit', by decide +kernel⟩

/-- Before the commit somebody asks for the proposition that Ann waits, and does not call. Then Ann is
called upon after the commit, and what it says of waiting changes. -/
theorem not_frozen_asked_for :
    let w := (World.empty "entity" {}).run [.declare (.predicate "waits" (.unary 0)),
      .solver (.freshAtom (some (.ofEntities "waits" ["Ann"])))]
    let t := stateAfter (commit [Literal.pos 1]) w
    let u := t.run [.call "waits" ["Ann"]]
    w.Built ∧ (value? (commit [Literal.pos 1]) w).isSome ∧
      (value? (World.call "waits" ["Ann"]) t).isSome ∧ t.extension "waits" (.unary 0) = [] ∧
      u.extension "waits" (.unary 0) = [.one "Ann"] ∧ ¬ Frozen t u := by
  intro w t u
  have hw : w.Built :=
    Built.run (Built.start "entity" (Solver.Reachable.start {} _) false) (by decide +kernel)
  have hthen : t.extension "waits" (.unary 0) = [] := by decide +kernel
  have hnow : u.extension "waits" (.unary 0) = [.one "Ann"] := by decide +kernel
  refine ⟨hw, by decide +kernel, by decide +kernel, hthen, hnow, fun hfrozen => ?_⟩
  -- the atom was there before the call, so the model has a value for it
  have hsame := hfrozen.extension "waits" (.unary 0)
  rw [hthen, hnow] at hsame
  cases hsame

end World

end Storyworld
