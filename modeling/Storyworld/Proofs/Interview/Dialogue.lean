import Storyworld.Proofs.Interview.Posing

namespace Storyworld

/-!
# A dialogue never runs into a dead end

What has been accumulated can always be true together with the constraints: an answer is
offered only when a probe has found that it can be added, and that probe is about the very
literals that are accumulated once the answer is chosen. So the commit at the end always
goes through (`Interview.Conversing.no_dead_end`). Between the turns of a dialogue anything may
be done with the world that leaves the constraints as they are.
-/

namespace Dialogue

variable {d : Dialogue} {ls : List Literal}

/-- Accumulating adds the literals that are not there yet. -/
theorem mem_accumulate {l : Literal} :
    l ∈ (d.accumulate ls).implications ↔ l ∈ d.implications ∨ l ∈ ls := by
  show l ∈ ls.foldl (fun acc l => if l ∈ acc then acc else acc ++ [l]) d.implications ↔ _
  generalize d.implications = acc
  induction ls generalizing acc with
  | nil => simp
  | cons m ls ih =>
    rw [List.foldl_cons, ih, List.mem_cons]
    -- a literal that is there already is not added again
    split
    · rename_i hm
      constructor
      · exact fun h => h.imp_right Or.inr
      · rintro (h | rfl | h)
        · exact Or.inl h
        · exact Or.inl hm
        · exact Or.inr h
    · rw [List.mem_append, List.mem_singleton, or_assoc]

/-- No literal is accumulated twice. -/
theorem nodup_accumulate (h : d.implications.Nodup) : (d.accumulate ls).implications.Nodup := by
  show (ls.foldl (fun acc l => if l ∈ acc then acc else acc ++ [l]) d.implications).Nodup
  revert h
  generalize d.implications = acc
  induction ls generalizing acc with
  | nil => exact id
  | cons m ls ih =>
    intro h
    refine ih _ ?_
    dsimp only
    split
    · exact h
    · -- a literal is added only if it was not there
      rename_i hm
      refine List.nodup_append.2 ⟨h, by simp, fun a ha b hb e => hm ?_⟩
      rw [← List.mem_singleton.1 hb, ← e]
      exact ha

end Dialogue

namespace Interview

open Action

variable {ρ : Type}

/-- The asserted clauses and the rules are the same. -/
def SameWorld (w t : World ρ) : Prop :=
  t.solver.clauses.asserted = w.solver.clauses.asserted ∧ t.solver.rules = w.solver.rules

/-! ### The invariant -/

/-- What holds between turns, for a dialogue that began in the world `w`. -/
structure InHand (w : World ρ) (q : Questionnaire) (s : Interview ρ) : Prop where
  sound : s.world.Sound w.atomCount
  same : SameWorld w s.world
  questionnaire : s.dialogue.questionnaire = q
  known : ∀ l ∈ s.dialogue.implications, l.atom < w.atomCount
  nodup : s.dialogue.implications.Nodup
  possible : Possible w s.dialogue.implications
  /-- Each answer that is offered can be added to what was accumulated. -/
  offered : ∀ p, s.dialogue.posed? = some p → ∀ i ∈ s.dialogue.offered,
    ∃ a, p.answers[i]? = some a ∧
      Possible w (s.dialogue.implications ++ (p.implications ++ a.implications))
  /-- Once the world has been committed no question is left. -/
  ended : s.dialogue.finished = true → s.dialogue.current = none ∧
    q.questions.drop s.dialogue.next = []

/-- If the world has been committed, everything accumulated holds on the snapshot. -/
def Committed (s : Interview ρ) : Prop :=
  s.dialogue.finished = true → ∃ snapshot, s.world.snapshot? = some snapshot ∧
    ∀ l ∈ s.dialogue.implications, snapshot.holds l = true

variable {w : World ρ} {q : Questionnaire} {s : Interview ρ}

theorem SameWorld.formula {t : World ρ} (h : SameWorld w t) : t.solver.formula = w.solver.formula := by
  rw [Solver.formula, Solver.formula, h.1, h.2]

theorem SameWorld.trans {t u : World ρ} (h : SameWorld w t) (h' : SameWorld t u) :
    SameWorld w u := ⟨h'.1.trans h.1, h'.2.trans h.2⟩

theorem InHand.isOpen (hs : InHand w q s) (htop : w.solver.rules.supportsOf Atom.top = [])
    (hq : ∀ l ∈ q.mentions, l.atom < w.atomCount) : s.Open := by
  have hle := hs.sound.le
  refine ⟨⟨hs.sound.solver.1, by rw [hs.same.2]; exact htop⟩, fun l hl => ?_, fun l hl => ?_⟩
  · rw [hs.questionnaire] at hl
    exact Nat.lt_of_lt_of_le (hq l hl) hle
  · exact Nat.lt_of_lt_of_le (hs.known l hl) hle

/-- Questions that are put to the world leave the dialogue in hand. -/
theorem InHand.asked (hs : InHand w q s) {t : World ρ} (ht : World.Asked s.world t) :
    InHand w q { s with world := t } :=
  { hs with
    sound := ht.sound hs.sound
    same := hs.same.trans ⟨ht.same.asserted, ht.same.rules⟩ }

/-- The dialogue may go on without a question posed, as long as what it accumulates is possible. -/
theorem InHand.unposed (hs : InHand w q s) {d : Dialogue} (hquestionnaire : d.questionnaire = q)
    (hknown : ∀ l ∈ d.implications, l.atom < w.atomCount) (hnodup : d.implications.Nodup)
    (hpossible : Possible w d.implications) (hcurrent : d.current = none)
    (hended : d.finished = true → q.questions.drop d.next = []) :
    InHand w q { s with dialogue := d } where
  sound := hs.sound
  same := hs.same
  questionnaire := hquestionnaire
  known := hknown
  nodup := hnodup
  possible := hpossible
  -- nothing is posed, so nothing is offered
  offered := by
    intro p hp
    have hp : d.posed? = some p := hp
    rw [Dialogue.posed?, hcurrent] at hp
    cases hp
  ended := fun hfinished => ⟨hcurrent, hended hfinished⟩

/-- A question may be posed with answers that are possible. -/
theorem InHand.posed (hs : InHand w q s) {position : Nat} {p : Question} {offered : List Nat}
    (hp : q.questions[position]? = some p) (hopen : s.dialogue.finished ≠ true)
    (hoffered : ∀ i ∈ offered, ∃ a, p.answers[i]? = some a ∧
      Possible w (s.dialogue.implications ++ (p.implications ++ a.implications))) :
    InHand w q { s with dialogue := { s.dialogue with current := some position, offered } } where
  sound := hs.sound
  same := hs.same
  questionnaire := hs.questionnaire
  known := hs.known
  nodup := hs.nodup
  possible := hs.possible
  offered := by
    intro p' hp'
    have hp' : s.dialogue.questionnaire.questions[position]? = some p' := hp'
    rw [hs.questionnaire, hp] at hp'
    rw [← Option.some.inj hp']
    exact hoffered
  -- a question is posed only as long as the dialogue goes on
  ended := fun hfinished => absurd hfinished hopen

/-- What is accumulated by an answer that is offered is possible. -/
theorem Possible.accumulate {d : Dialogue} {ls : List Literal}
    (h : Possible w (d.implications ++ ls)) : Possible w (d.accumulate ls).implications := by
  obtain ⟨i, hi, hsat⟩ := h
  exact ⟨i, hi, fun l hl => hsat l (List.mem_append.2 (Dialogue.mem_accumulate.1 hl))⟩

variable [RandomSource ρ]

/-! ### Turns -/

/-- A turn of a dialogue: the next question is looked for, or an answer is chosen. -/
inductive Turn where
  | next
  | choose (choice : Nat)

/-- What is done in a turn. -/
def Turn.take : Turn → EStateM Error (Interview ρ) Bool
  | .next => nextQuestion
  | .choose choice => answer choice

/-- A choice has to be within the options. -/
def Turn.Offered (s : Interview ρ) : Turn → Prop
  | .next => True
  | .choose choice => choice < s.dialogue.options.length

/-- The dialogue has been carried on from its start by turns that were offered. In between,
moves may have been made that leave the constraints of the world as they are. -/
inductive Conversing (w : World ρ) (q : Questionnaire) (minOptions : Nat) : Interview ρ → Prop where
  | start : Conversing w q minOptions ⟨w, Dialogue.start q minOptions⟩
  | turn {s t : Interview ρ} {b : Bool} (hs : Conversing w q minOptions s) (turn : Turn)
    (hoffered : turn.Offered s) (h : turn.take s = .ok b t) : Conversing w q minOptions t
  | aside {s : Interview ρ} (hs : Conversing w q minOptions s) (m : World.Move)
    (h : SameWorld s.world (m.perform s.world)) :
    Conversing w q minOptions { s with world := m.perform s.world }

variable {minOptions : Nat}

/-- A question is posed with answers that can be added to what has been accumulated, or else the
world is committed. -/
theorem after_nextQuestion (htop : w.solver.rules.supportsOf Atom.top = [])
    (hq : ∀ l ∈ q.mentions, l.atom < w.atomCount) (hs : InHand w q s.unposed) :
    After nextQuestion s (fun _ t => InHand w q t ∧ Committed t) (fun _ _ => False) := by
  obtain ⟨hready, hmentions, himplications⟩ := hs.isOpen htop hq
  have hadvances := advances_nextQuestion (s := s) ⟨hready, hmentions, himplications⟩
  have hformula : s.world.solver.formula = w.solver.formula := hs.same.formula
  unfold After
  cases hr : nextQuestion s <;> rw [hr] at hadvances
  case ok b t =>
    obtain ⟨world, dialogue⟩ := t
    cases hadvances with
    | posed hle hp hskipped hoffers henough hworld hdialogue =>
      rename_i i p offered
      cases hdialogue
      have hp : q.questions[i]? = some p := by
        rw [← hs.questionnaire]
        exact hp
      have hunfinished : s.dialogue.finished ≠ true := by
        intro hfinished
        -- there is a question left
        have hlen := List.drop_eq_nil_iff.1 (hs.ended hfinished).2
        exact absurd (Nat.le_trans hlen hle) (Nat.not_le.2 (List.getElem?_eq_some_iff.1 hp).1)
      have hpast : InHand w q { s with
          dialogue := { s.dialogue with next := i + 1, current := none, offered := [] } } :=
        hs.unposed hs.questionnaire hs.known hs.nodup hs.possible rfl
          fun hfinished => absurd hfinished hunfinished
      refine ⟨(hpast.asked hworld).posed hp hunfinished fun j hj => ?_,
        fun hfinished => absurd hfinished hunfinished⟩
      exact ((hoffers.congr hformula).mem j).1 hj
    | committed hskipped hworld hsnapshot hpossible hholds hdialogue =>
      cases hdialogue
      have hpast := hs.unposed (d := { s.dialogue with
          next := max s.dialogue.next s.dialogue.questionnaire.questions.length
          current := none
          offered := []
          finished := true }) hs.questionnaire hs.known hs.nodup hs.possible rfl fun _ =>
        List.drop_eq_nil_iff.2 (hs.questionnaire ▸ Nat.le_max_right _ _)
      exact ⟨hpast.asked hworld, fun _ => ⟨_, hsnapshot, hholds⟩⟩
  case error e t =>
    cases hadvances with
    | impossible hskipped hworld himpossible hdialogue =>
      exact himpossible ((possible_congr hformula _).2 hs.possible)

theorem after_answer (htop : w.solver.rules.supportsOf Atom.top = [])
    (hq : ∀ l ∈ q.mentions, l.atom < w.atomCount) (hs : InHand w q s) {choice : Nat}
    (hchoice : choice < s.dialogue.options.length) :
    After (answer choice) s (fun _ t => InHand w q t ∧ Committed t) (fun _ _ => False) := by
  refine after_bind.2 (after_get.2 ?_)
  unfold Dialogue.options at hchoice
  dsimp only
  cases hp : s.dialogue.posed? with
  | none =>
    rw [hp] at hchoice
    cases hchoice
  | some p =>
    rw [hp] at hchoice
    -- every option is one of the answers that were offered
    have hlt : choice < s.dialogue.offered.length :=
      Nat.lt_of_lt_of_le hchoice (List.length_filterMap_le _ _)
    obtain ⟨position, hposition⟩ : ∃ i, s.dialogue.offered[choice]? = some i :=
      ⟨_, List.getElem?_eq_getElem hlt⟩
    obtain ⟨a, ha, hpossible⟩ := hs.offered p hp position (List.mem_of_getElem? hposition)
    obtain ⟨i, -, hi⟩ := Option.bind_eq_some_iff.1 hp
    rw [hs.questionnaire] at hi
    have hknown := known_of_mem hq (List.mem_of_getElem? hi)
    dsimp only
    rw [hposition]
    dsimp only
    rw [ha]
    refine after_bind.2 (after_modify.2 (after_nextQuestion htop hq ?_))
    refine hs.unposed hs.questionnaire (fun l hl => ?_) (Dialogue.nodup_accumulate hs.nodup)
      hpossible.accumulate rfl fun hfinished => (hs.ended hfinished).2
    rcases Dialogue.mem_accumulate.1 hl with hl | hl
    · exact hs.known l hl
    · rcases List.mem_append.1 hl with hl | hl
      · exact hknown.1 l hl
      · exact hknown.2 a (List.mem_of_getElem? ha) l hl

/-- A turn that is offered is never refused. -/
theorem after_take (htop : w.solver.rules.supportsOf Atom.top = [])
    (hq : ∀ l ∈ q.mentions, l.atom < w.atomCount) (hs : InHand w q s) (turn : Turn)
    (hoffered : turn.Offered s) :
    After turn.take s (fun _ t => InHand w q t ∧ Committed t) (fun _ _ => False) := by
  cases turn with
  | next =>
    refine after_nextQuestion htop hq ?_
    exact hs.unposed hs.questionnaire hs.known hs.nodup hs.possible rfl
      fun hfinished => (hs.ended hfinished).2
  | choose choice => exact after_answer htop hq hs hoffered

omit [RandomSource ρ] in
/-- At its start a dialogue is in hand, if the constraints can be met. -/
theorem inHand_start (hw : w.Sound w.atomCount)
    (hmodel : ∃ i : Interpretation, i.IsModel w.solver.formula) (minOptions : Nat) :
    InHand w q ⟨w, Dialogue.start q minOptions⟩ where
  sound := hw
  same := ⟨rfl, rfl⟩
  questionnaire := rfl
  known := nofun
  nodup := List.nodup_nil
  possible := hmodel.imp fun _ hi => ⟨hi, nofun⟩
  offered := nofun
  ended := nofun

/-- However a dialogue went, what has been accumulated is possible. -/
theorem Conversing.inHand (hw : w.Sound w.atomCount) (hq : ∀ l ∈ q.mentions, l.atom < w.atomCount)
    (htop : w.solver.rules.supportsOf Atom.top = [])
    (hmodel : ∃ i : Interpretation, i.IsModel w.solver.formula)
    (hs : Conversing w q minOptions s) : InHand w q s := by
  induction hs with
  | start => exact inHand_start hw hmodel minOptions
  | turn hs turn hoffered h ih => exact ((after_take htop hq ih turn hoffered).of_ok h).1
  | aside hs m h ih =>
    -- what is done aside leaves the dialogue and the constraints as they were
    exact { ih with
      sound := ih.sound.perform m
      same := ih.same.trans h }

/-- **A dialogue never runs into a dead end.** In a world whose constraints can be met, and in
which no rule has top as its head, let a questionnaire be gone through that was read into the
world. At every point what has been accumulated can be true together with the constraints, and
holds no literal twice. Every turn that is offered goes through, a commit at the end of the
questionnaire too, and when it leaves the dialogue finished then everything accumulated holds
on the snapshot of the commit. -/
theorem Conversing.no_dead_end (hq : w.Parsed q)
    (hmodel : ∃ i : Interpretation, i.IsModel w.solver.formula)
    (htop : ∀ rule ∈ w.solver.rules.recorded, rule.1 ≠ Atom.top)
    (hs : Conversing w q minOptions s) :
    (∃ i : Interpretation, i.IsModel s.world.solver.formula ∧
        i.SatisfiesAll s.dialogue.implications) ∧
      s.dialogue.implications.Nodup ∧
      ∀ turn : Turn, turn.Offered s → ∃ b t, turn.take s = .ok b t ∧
        (t.dialogue.finished = true → ∃ snapshot, t.world.snapshot? = some snapshot ∧
          ∀ l ∈ t.dialogue.implications, snapshot.holds l = true) := by
  obtain ⟨hsound, hknown⟩ := hq.known
  have hnil := hsound.solver.1.supportsOf_eq_nil htop
  have hin := hs.inHand hsound hknown hnil hmodel
  refine ⟨?_, hin.nodup, fun turn hoffered => ?_⟩
  · -- the world has the constraints it had when the questionnaire was read
    obtain ⟨i, hi, hsat⟩ := hin.possible
    exact ⟨i, hin.same.formula ▸ hi, hsat⟩
  · -- the turn is one that is offered, and such a turn cannot fail
    have htaken := after_take hnil hknown hin turn hoffered
    unfold After at htaken
    cases h : turn.take s with
    | ok b t =>
      rw [h] at htaken
      exact ⟨b, t, rfl, htaken.2⟩
    | error e t =>
      rw [h] at htaken
      exact htaken.elim

/-- Three questions are gone through in a world where exactly one of rain and snow is the case,
and a rule makes it slippery. After rain has been chosen the second question, which implies snow,
is passed over, and an atom is made aside. The third question implies rain once more, which is
accumulated once only, and its answer ends the dialogue. -/
theorem no_dead_end_weather :
    let text := "unique: rain, snow\nslippery <= snow\nQ: Wet?\nA: Yes\n rain\nA: White\n snow\n" ++
      "Q: Frozen?\n snow\nA: Yes\n slippery\nA: No\n !slippery\n" ++
      "Q: Umbrella?\n rain\nA: Up\n umbrella\nA: Down\n !umbrella"
    let q : Questionnaire := ⟨[
      { text := "Wet?", answers := [⟨"Yes", [Literal.pos 1]⟩, ⟨"White", [Literal.pos 2]⟩] },
      { text := "Frozen?"
        implications := [Literal.pos 2]
        answers := [⟨"Yes", [Literal.pos 3]⟩, ⟨"No", [Literal.neg 3]⟩] },
      { text := "Umbrella?"
        implications := [Literal.pos 1]
        answers := [⟨"Up", [Literal.pos 4]⟩, ⟨"Down", [Literal.neg 4]⟩] }]⟩
    ∃ (w : World Pcg) (wet umbrella ended : Interview Pcg),
      Questionnaire.parse text (World.empty "entity" {}) = .ok q w ∧ w.Parsed q ∧
      (∃ i : Interpretation, i.IsModel w.solver.formula) ∧
      w.solver.rules.recorded = [(3, [Literal.pos 2])] ∧
      (∀ rule ∈ w.solver.rules.recorded, rule.1 ≠ Atom.top) ∧
      Turn.next.take ⟨w, Dialogue.start q 2⟩ = .ok true wet ∧ wet.dialogue.current = some 0 ∧
      (Turn.choose 0).take wet = .ok true umbrella ∧ umbrella.dialogue.current = some 2 ∧
      umbrella.dialogue.implications = [Literal.pos 1] ∧
      (Turn.choose 0).take ⟨(World.Move.solver (.freshAtom none)).perform umbrella.world,
        umbrella.dialogue⟩ = .ok false ended ∧ ended.dialogue.finished = true ∧
      ended.dialogue.implications = [Literal.pos 1, Literal.pos 4] ∧
      ∀ s ∈ [umbrella, ended], Conversing w q 2 s ∧
        (∃ i : Interpretation, i.IsModel s.world.solver.formula ∧
          i.SatisfiesAll s.dialogue.implications) ∧
        s.dialogue.implications.Nodup ∧
        ∀ turn : Turn, turn.Offered s → ∃ b t, turn.take s = .ok b t ∧
          (t.dialogue.finished = true → ∃ snapshot, t.world.snapshot? = some snapshot ∧
            ∀ l ∈ t.dialogue.implications, snapshot.holds l = true) := by
  intro text q
  have hempty : (World.empty "entity" {}).Reachable :=
    .start (.start "entity") (.start {} _) {} false
  have hfacts : let w := stateAfter (Questionnaire.parse text) (World.empty "entity" {})
      let wet : Interview Pcg := stateAfter Turn.next.take ⟨w, Dialogue.start q 2⟩
      let umbrella := stateAfter (Turn.choose 0).take wet
      let paused : Interview Pcg :=
        ⟨(World.Move.solver (.freshAtom none)).perform umbrella.world, umbrella.dialogue⟩
      let ended := stateAfter (Turn.choose 0).take paused
      (value? (Questionnaire.parse text) (World.empty "entity" {}) = some q ∧
        w.solver.rules.recorded = [(3, [Literal.pos 2])] ∧
        -- with rain, and nothing that comes with snow
        ∀ c ∈ w.solver.formula, ∃ l ∈ c, Interpretation.Satisfies (fun a => a != 2 && a != 3) l) ∧
      (value? Turn.next.take (⟨w, Dialogue.start q 2⟩ : Interview Pcg) = some true ∧
        value? (Turn.choose 0).take wet = some true ∧
        value? (Turn.choose 0).take paused = some false ∧
        0 < wet.dialogue.options.length ∧ 0 < paused.dialogue.options.length) ∧
      wet.dialogue.current = some 0 ∧ umbrella.dialogue.current = some 2 ∧
      umbrella.dialogue.implications = [Literal.pos 1] ∧ ended.dialogue.finished = true ∧
      ended.dialogue.implications = [Literal.pos 1, Literal.pos 4] := by decide +kernel
  obtain ⟨⟨hread, hrules, hclauses⟩, ⟨hnext, hwet, humbrella, hoffered, hoffered'⟩, hdialogues⟩ :=
    hfacts
  have hparse := eq_ok_of_value? hread
  have hparsed := World.Parsed.parse hempty text hparse
  have hmodel : ∃ i : Interpretation, i.IsModel (stateAfter (Questionnaire.parse text)
      (World.empty "entity" {})).solver.formula := ⟨fun a => a != 2 && a != 3, rfl, hclauses⟩
  have htop : ∀ rule ∈ (stateAfter (Questionnaire.parse text)
      (World.empty "entity" {})).solver.rules.recorded, rule.1 ≠ Atom.top := by
    rw [hrules]
    decide
  have haside : ∀ v : World Pcg, SameWorld v ((World.Move.solver (.freshAtom none)).perform v) :=
    fun _ => ⟨rfl, rfl⟩
  have hnext := eq_ok_of_value? hnext
  have hwet := eq_ok_of_value? hwet
  have humbrella := eq_ok_of_value? humbrella
  have hposed := (Conversing.start.turn .next trivial hnext).turn (.choose 0) hoffered hwet
  have hpaused := hposed.aside (.solver (.freshAtom none)) (haside _)
  have hended := hpaused.turn (.choose 0) hoffered' humbrella
  obtain ⟨hfirst, hthird, honce, hfinished, hall⟩ := hdialogues
  refine ⟨_, _, _, _, hparse, hparsed, hmodel, hrules, htop, hnext, hfirst, hwet, hthird, honce,
    humbrella, hfinished, hall, ?_⟩
  exact List.forall_mem_cons.2 ⟨⟨hposed, hposed.no_dead_end hparsed hmodel htop⟩,
    List.forall_mem_singleton.2 ⟨hended, hended.no_dead_end hparsed hmodel htop⟩⟩

end Interview

end Storyworld
