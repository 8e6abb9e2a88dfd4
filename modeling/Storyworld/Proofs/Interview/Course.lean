import Storyworld.Proofs.Interview.Dialogue

namespace Storyworld

/-!
# The course of a dialogue

`Interview.Held` is a dialogue that is carried on by any turns, those included that choose what is
not offered, while anything may be done with its world as long as top is no head there. It comes
with the questions that have been considered so far. `Interview.Held.course_exact` says what every turn
does and that no question is considered twice, and follows the dialogue to its end, whoever answers.

* `Interview.Held.kept`: what all such dialogues have in common. A question that is posed stands right
  before the next one.
* `Interview.Held.outcome`: what a turn leads to. A question that is posed is a later one than
  before, so there is an answer for each question at most.
* `Interview.Carries`: the loop that asks for an answer as long as a question is posed. It has no
  bound, and comes to the same end as the dialogue that has one (`Interview.Held.carries`).
-/

namespace Interview

open Action

variable {ρ : Type} {s t u : Interview ρ} {q : Questionnaire} {p : Question} {minOptions : Nat}
  {log : List Nat}

/-! ### Options -/

theorem getElem?_filterMap {α β : Type} {f : α → Option β} {xs : List α}
    (h : ∀ x ∈ xs, (f x).isSome) (n : Nat) : (xs.filterMap f)[n]? = xs[n]?.bind f := by
  induction xs generalizing n with
  | nil => rfl
  | cons x xs ih =>
    obtain ⟨b, hb⟩ := Option.isSome_iff_exists.1 (h x List.mem_cons_self)
    rw [List.filterMap_cons_some hb]
    cases n with
    | zero => exact hb.symm
    | succ n => exact ih (fun y hy => h y (List.mem_cons_of_mem _ hy)) n

/-- The options are the answers at the positions that are offered. -/
theorem getElem?_options (hp : s.dialogue.posed? = some p)
    (hoffered : ∀ i ∈ s.dialogue.offered, i < p.answers.length) (n : Nat) :
    s.dialogue.options[n]? = s.dialogue.offered[n]?.bind fun i => p.answers[i]? := by
  unfold Dialogue.options
  rw [hp]
  refine getElem?_filterMap (fun i hi => ?_) n
  rw [List.getElem?_eq_getElem (hoffered i hi)]
  rfl

variable [RandomSource ρ]

/-! ### Turns -/

omit [RandomSource ρ] in
/-- The dialogue after more has been accumulated. -/
def accumulating (s : Interview ρ) (ls : List Literal) : Interview ρ :=
  { s with dialogue := s.dialogue.accumulate ls }

/-- What is implied when the answer at that position is chosen. -/
def chosen (p : Question) (i : Nat) : List Literal :=
  p.implications ++ (p.answers[i]?.map Quip.implications).getD []

/-- What is done when an answer is chosen. -/
theorem answer_eq (choice : Nat) (s : Interview ρ) :
    answer choice s =
      match s.dialogue.posed? with
      | none => .ok false s
      | some p =>
        match s.dialogue.offered[choice]? with
        | none => .error (.noSuchAnswer choice) s
        | some i => nextQuestion (s.accumulating (chosen p i)) := by
  unfold answer
  show EStateM.bind get _ s = _
  -- the state is read and, up to the next question, nothing fails but the lookup of the choice
  unfold EStateM.bind
  dsimp only [get, getThe, MonadStateOf.get, EStateM.get]
  cases s.dialogue.posed? with
  | none => rfl
  | some p => cases s.dialogue.offered[choice]? <;> rfl

omit [RandomSource ρ] in
/-- The dialogue in which a turn looks for the next question. There is none if nothing is posed that
could be answered, or if the turn is refused. -/
def Turn.underway? : Turn → Interview ρ → Option (Interview ρ)
  | .next, s => some s
  | .choose choice, s =>
    match s.dialogue.posed? with
    | none => none
    | some p => s.dialogue.offered[choice]?.map fun i => s.accumulating (chosen p i)

/-- The positions of the questions that are considered in a turn. -/
def Turn.considered (turn : Turn) (s : Interview ρ) : List Nat :=
  match turn.underway? s with
  | none => []
  | some u =>
    Interview.considered (u.dialogue.questionnaire.questions.drop u.dialogue.next) u.unposed

theorem Turn.take_of_underway {turn : Turn} (h : turn.underway? s = some u) :
    turn.take s = nextQuestion u := by
  cases turn with
  | next =>
    cases h
    rfl
  | choose choice =>
    show answer choice s = _
    rw [answer_eq]
    rw [underway?] at h
    cases hp : s.dialogue.posed? with
    | none =>
      rw [hp] at h
      cases h
    | some p =>
      rw [hp] at h
      -- a choice that is under way is among what is offered
      obtain ⟨i, hi, rfl⟩ := Option.map_eq_some_iff.1 h
      dsimp only
      rw [hi]

/-- A turn that does not look for the next question leaves everything as it is. -/
theorem Turn.take_of_none {turn : Turn} (h : turn.underway? s = none) :
    s.dialogue.posed? = none ∧ turn.take s = .ok false s ∨
      ∃ choice, turn.take s = .error (.noSuchAnswer choice) s := by
  cases turn with
  | next => cases h
  | choose choice =>
    show _ ∧ answer choice s = _ ∨ ∃ c, answer choice s = _
    rw [answer_eq]
    rw [underway?] at h
    -- nothing is posed, or the choice is not offered
    cases hp : s.dialogue.posed? with
    | none => exact Or.inl ⟨rfl, rfl⟩
    | some p =>
      rw [hp] at h
      dsimp only
      rw [Option.map_eq_none_iff.1 h]
      exact Or.inr ⟨choice, rfl⟩

/-! ### Dialogues that are carried on -/

/-- The dialogue is carried on from its start by any turns, whether they are refused or not. In between
anything may be done with its world, as long as top is no head. The list has the positions of the
questions that have been considered. -/
inductive Held (q : Questionnaire) (minOptions : Nat) : List Nat → Interview ρ → Prop where
  | start {w : World ρ} (hq : w.Parsed q)
    (htop : ∀ rule ∈ w.solver.rules.recorded, rule.1 ≠ Atom.top) :
    Held q minOptions [] ⟨w, Dialogue.start q minOptions⟩
  | turn {log : List Nat} {s : Interview ρ} (hs : Held q minOptions log s) (turn : Turn) :
    Held q minOptions (log ++ turn.considered s) (stateAfter turn.take s)
  | aside {log : List Nat} {s : Interview ρ} (hs : Held q minOptions log s) (m : World.Move)
    (htop : ∀ rule ∈ (m.perform s.world).solver.rules.recorded, rule.1 ≠ Atom.top) :
    Held q minOptions log { s with world := m.perform s.world }

omit [RandomSource ρ] in
/-- What all dialogues have in common that are carried on. -/
structure Kept (q : Questionnaire) (minOptions : Nat) (log : List Nat) (s : Interview ρ) : Prop
    extends Open s where
  sound : s.world.Sound s.world.atomCount
  questionnaire : s.dialogue.questionnaire = q
  enough : s.dialogue.minOptions = max minOptions 1
  ordered : log.Pairwise (· < ·)
  past : ∀ i ∈ log, i < s.dialogue.next
  within : s.dialogue.next ≤ q.questions.length
  posed : ∀ i, s.dialogue.current = some i → s.dialogue.next = i + 1
  offered : ∀ p, s.dialogue.posed? = some p → ∀ i ∈ s.dialogue.offered, i < p.answers.length

omit [RandomSource ρ] in
theorem Kept.accumulate (hs : Kept q minOptions log s) {ls : List Literal}
    (hls : ∀ l ∈ ls, l.atom < s.world.atomCount) :
    Kept q minOptions log (s.accumulating ls) :=
  { hs with
    implications := fun l hl =>
      (Dialogue.mem_accumulate.1 hl).elim (hs.implications l) (hls l) }

omit [RandomSource ρ] in
/-- The implications of a posed question, and those of its answers, are known. -/
theorem Kept.known (hs : Kept q minOptions log s) (hp : s.dialogue.posed? = some p) :
    (∀ l ∈ p.implications, l.atom < s.world.atomCount) ∧
      ∀ a ∈ p.answers, ∀ l ∈ a.implications, l.atom < s.world.atomCount := by
  obtain ⟨i, -, hi⟩ := Option.bind_eq_some_iff.1 hp
  exact known_of_mem hs.mentions (List.mem_of_getElem? hi)

omit [RandomSource ρ] in
theorem Kept.underway (hs : Kept q minOptions log s) {turn : Turn}
    (hu : turn.underway? s = some u) :
    Kept q minOptions log u ∧ u.dialogue.next = s.dialogue.next := by
  cases turn with
  | next =>
    cases hu
    exact ⟨hs, rfl⟩
  | choose choice =>
    rw [Turn.underway?] at hu
    cases hp : s.dialogue.posed? with
    | none =>
      rw [hp] at hu
      cases hu
    | some p =>
      rw [hp] at hu
      obtain ⟨i, hi, rfl⟩ := Option.map_eq_some_iff.1 hu
      obtain ⟨hknown, hanswers⟩ := hs.known hp
      refine ⟨hs.accumulate (List.forall_mem_append.2 ⟨hknown, ?_⟩), rfl⟩
      -- what is offered are positions of answers, and the literals of these are known
      have hlt := hs.offered p hp i (List.mem_of_getElem? hi)
      rw [List.getElem?_eq_getElem hlt]
      exact hanswers _ (List.getElem_mem hlt)

omit [RandomSource ρ] in
/-- The dialogue goes past some questions. -/
theorem Kept.pass (hs : Kept q minOptions log s) (hworld : World.Asked s.world t.world)
    {next : Nat} {current : Option Nat} {offered : List Nat} {finished : Bool}
    (hdialogue : t.dialogue = { s.dialogue with next, current, offered, finished })
    (hle : s.dialogue.next ≤ next) (hlen : next ≤ q.questions.length)
    (hposed : ∀ i, current = some i → next = i + 1)
    (hoffered : ∀ i p, current = some i → q.questions[i]? = some p →
      ∀ j ∈ offered, j < p.answers.length) :
    Kept q minOptions (log ++ List.range' s.dialogue.next (next - s.dialogue.next)) t := by
  obtain ⟨world, dialogue⟩ := t
  cases hdialogue
  have hopen : Open ⟨world, { s.dialogue with next, current, offered, finished }⟩ :=
    hs.toOpen.asked hworld rfl rfl
  have hcount : world.atomCount = s.world.atomCount := congrArg Atoms.count hworld.same.atoms
  refine
    { toOpen := hopen
      sound := (hworld.sound hs.sound).now
      questionnaire := hs.questionnaire
      enough := hs.enough
      ordered := ?_
      past := fun i hi => ?_
      within := hlen
      posed := hposed
      offered := fun p hp => ?_ }
  · -- the questions that are gone past follow those that were considered before
    refine List.pairwise_append.2 ⟨hs.ordered, List.pairwise_lt_range', fun i hi j hj => ?_⟩
    exact Nat.lt_of_lt_of_le (hs.past i hi) (List.mem_range'_1.1 hj).1
  · rcases List.mem_append.1 hi with hi | hi
    · exact Nat.lt_of_lt_of_le (hs.past i hi) hle
    · have hrange := List.mem_range'_1.1 hi
      show i < next
      omega
  · obtain ⟨i, hi, hget⟩ := Option.bind_eq_some_iff.1 hp
    refine hoffered i p hi ?_
    rw [← hs.questionnaire]
    exact hget

/-- To look for the next question is to go past those that are considered. -/
theorem Kept.advance (hs : Kept q minOptions log s) :
    Kept q minOptions
      (log ++ considered (s.dialogue.questionnaire.questions.drop s.dialogue.next) s.unposed)
      (stateAfter nextQuestion s) := by
  have hadvances := advances_nextQuestion hs.toOpen
  have hlog : considered (s.dialogue.questionnaire.questions.drop s.dialogue.next) s.unposed =
      List.range' s.dialogue.next
        ((stateAfter nextQuestion s).dialogue.next - s.dialogue.next) :=
    (considered_pose _ s.unposed).2
  rw [hlog]
  have hend : max s.dialogue.next s.dialogue.questionnaire.questions.length ≤ q.questions.length :=
    Nat.max_le.2 ⟨hs.within, Nat.le_of_eq (by rw [hs.questionnaire])⟩
  unfold stateAfter
  cases hr : nextQuestion s <;> rw [hr] at hadvances
  case ok b t =>
    -- a question is posed or the end is reached, and either way the log grows by what was gone past
    cases hadvances with
    | posed hle hp hskipped hoffers henough hworld hdialogue =>
      rename_i i p offered
      rw [hs.questionnaire] at hp
      have hlt : i < q.questions.length := (List.getElem?_eq_some_iff.1 hp).1
      dsimp only
      rw [show t.dialogue.next = i + 1 by rw [hdialogue]]
      refine hs.pass hworld hdialogue (Nat.le_succ_of_le hle) hlt ?_ ?_
      · rintro _ ⟨⟩
        rfl
      · rintro _ p' ⟨⟩ hp' j hj
        rw [hp] at hp'
        rw [← Option.some.inj hp']
        obtain ⟨a, ha, -⟩ := (hoffers.mem j).1 hj
        exact (List.getElem?_eq_some_iff.1 ha).1
    | committed hskipped hworld hsnapshot hpossible hholds hdialogue =>
      dsimp only
      rw [show t.dialogue.next = max s.dialogue.next _ by rw [hdialogue]]
      exact hs.pass hworld hdialogue (Nat.le_max_left _ _) hend nofun nofun
  case error e t =>
    cases hadvances with
    | impossible hskipped hworld himpossible hdialogue =>
      dsimp only
      rw [show t.dialogue.next = max s.dialogue.next _ by rw [hdialogue]]
      exact hs.pass hworld hdialogue (Nat.le_max_left _ _) hend nofun nofun

/-- **What all dialogues have in common that are carried on.** -/
theorem Held.kept (hs : Held q minOptions log s) : Kept q minOptions log s := by
  induction hs with
  | start hq htop =>
    obtain ⟨hsound, hknown⟩ := hq.known
    exact
      { ready := ⟨hsound.solver.1, hsound.solver.1.supportsOf_eq_nil htop⟩
        mentions := hknown
        implications := nofun
        sound := hsound
        questionnaire := rfl
        enough := rfl
        ordered := List.Pairwise.nil
        past := nofun
        within := Nat.zero_le _
        posed := nofun
        offered := nofun }
  | @turn log s hs turn ih =>
    unfold Turn.considered
    cases hu : turn.underway? s with
    | none =>
      have hsame : stateAfter turn.take s = s := by
        unfold stateAfter
        rcases Turn.take_of_none hu with ⟨-, htake⟩ | ⟨choice, htake⟩ <;> rw [htake]
      rw [hsame, List.append_nil]
      exact ih
    | some u =>
      have hsame : stateAfter turn.take s = stateAfter nextQuestion u := by
        unfold stateAfter
        rw [Turn.take_of_underway hu]
      rw [hsame]
      exact (ih.underway hu).1.advance
  | aside hs m htop ih =>
    -- a move makes atoms at most, and leaves the dialogue as it is
    have hmoved := ih.sound.perform m
    exact { ih with
      sound := hmoved.now
      ready := ⟨hmoved.solver.1, hmoved.solver.1.supportsOf_eq_nil htop⟩
      mentions := fun l hl => Nat.lt_of_lt_of_le (ih.mentions l hl) hmoved.le
      implications := fun l hl => Nat.lt_of_lt_of_le (ih.implications l hl) hmoved.le }

/-! ### What a turn leads to -/

/-- What a turn leads to: a question is posed that is not among the first `past` ones, or the world
is committed, or the turn is refused. -/
inductive Outcome (q : Questionnaire) (minOptions : Nat) (log : List Nat) (past : Nat) :
    EStateM.Result Error (Interview ρ) Bool → Prop
  | posed {t : Interview ρ} {p : Question} (ht : Held q minOptions log t)
    (hp : t.dialogue.posed? = some p) (hpast : past < t.dialogue.next) :
    Outcome q minOptions log past (.ok true t)
  | committed {t : Interview ρ} {snapshot : Snapshot} (ht : Held q minOptions log t)
    (hfinished : t.dialogue.finished = true) (hsnapshot : t.world.snapshot? = some snapshot)
    (hholds : ∀ l ∈ t.dialogue.implications, snapshot.holds l = true) :
    Outcome q minOptions log past (.ok false t)
  | refused {t : Interview ρ} {e : Error} (ht : Held q minOptions log t)
    (he : e = .unsatisfiableCommit ∨ ∃ choice, e = .noSuchAnswer choice) :
    Outcome q minOptions log past (.error e t)

/-- A turn that has something to do poses a later question, commits the world, or is refused. -/
theorem Held.outcome (hs : Held q minOptions log s) (turn : Turn)
    (hturn : s.dialogue.posed? = none → turn = .next) :
    Outcome q minOptions (log ++ turn.considered s) s.dialogue.next (turn.take s) := by
  have hheld := hs.turn turn
  unfold stateAfter at hheld
  cases hu : turn.underway? s with
  | none =>
    rcases Turn.take_of_none hu with ⟨hnone, -⟩ | ⟨choice, htake⟩
    · -- where nothing is posed the turn is to go on, which always does something
      rw [hturn hnone] at hu
      cases hu
    · rw [htake] at hheld ⊢
      exact .refused hheld (Or.inr ⟨choice, rfl⟩)
  | some u =>
    obtain ⟨hkept, hnext⟩ := hs.kept.underway hu
    have hadvances := advances_nextQuestion hkept.toOpen
    rw [Turn.take_of_underway hu] at hheld ⊢
    cases hr : nextQuestion u <;> rw [hr] at hadvances hheld
    case ok b t =>
      cases hadvances with
      | posed hle hp hskipped hoffers henough hworld hdialogue =>
        rename_i p offered
        have hposed : t.dialogue.posed? = some p := by
          unfold Dialogue.posed?
          rw [hdialogue]
          exact hp
        refine .posed hheld hposed ?_
        rw [hdialogue, ← hnext]
        exact Nat.lt_succ_of_le hle
      | committed hskipped hworld hsnapshot hpossible hholds hdialogue =>
        refine .committed hheld ?_ hsnapshot ?_
        · rw [hdialogue]
        · rw [hdialogue]
          exact hholds
    case error e t =>
      cases hadvances with
      | impossible hskipped hworld himpossible hdialogue => exact .refused hheld (Or.inl rfl)

/-! ### From one answer to the next -/

variable {σ : Type}

/-- The loop that asks for an answer as long as a question is posed: from what the latest turn has
led to it goes on with `n` answers. -/
inductive Carries (choose : Question → List Quip → StateM σ Nat) :
    EStateM.Result Error (Interview ρ) Bool → σ → Nat → Except Error Unit → Interview ρ → σ → Prop
  | finished (t : Interview ρ) (x : σ) : Carries choose (.ok false t) x 0 (.ok ()) t x
  | refused (e : Error) (t : Interview ρ) (x : σ) : Carries choose (.error e t) x 0 (.error e) t x
  | answered {s t : Interview ρ} {p : Question} {x y z : σ} {choice n : Nat} {r : Except Error Unit}
    (hp : s.dialogue.posed? = some p) (hchoice : (choose p s.dialogue.options).run x = (choice, y))
    (hrest : Carries choose (answer choice s) y n r t z) : Carries choose (.ok true s) x (n + 1) r t z

omit [RandomSource ρ] in
/-- The dialogue has ended with a commit to what was accumulated, or with an error. -/
def Ends (r : Except Error Unit) (t : Interview ρ) : Prop :=
  match r with
  | .ok () => t.dialogue.finished = true ∧ ∃ snapshot, t.world.snapshot? = some snapshot ∧
      ∀ l ∈ t.dialogue.implications, snapshot.holds l = true
  | .error e => e = .unsatisfiableCommit ∨ ∃ choice, e = .noSuchAnswer choice

/-- When a question is posed, the dialogue goes on from what its answer leads to. -/
theorem converseWithin_succ {choose : Question → List Quip → StateM σ Nat} {choice : Nat} {x y : σ}
    (hp : s.dialogue.posed? = some p) (hchoice : (choose p s.dialogue.options).run x = (choice, y))
    (n : Nat) :
    (converseWithin (fun p options => some <$> choose p options) (n + 1) true s).run x =
      match answer choice s with
      | .ok b t => (converseWithin (fun p options => some <$> choose p options) n b t).run y
      | .error e t => ((.error e, t), y) := by
  rw [converseWithin, hp]
  dsimp only
  rw [StateT.run_bind, StateT.run_map, hchoice]
  dsimp only [Functor.map, Id.run, bind, pure]
  cases answer choice s <;> rfl

/-- From what a turn has led to, the dialogue comes to its end within as many answers as there are
questions left, the one that is posed included. -/
theorem Outcome.carries (choose : Question → List Quip → StateM σ Nat) {n past : Nat} {b : Bool}
    (hs : Outcome q minOptions log past (.ok b s)) (hn : q.questions.length ≤ past + n) (x : σ) :
    ∃ m ≤ n, ∃ log' r t y,
      (converseWithin (fun p options => some <$> choose p options) n b s).run x = ((r, t), y) ∧
        Carries choose (.ok b s) x m r t y ∧ Held q minOptions (log ++ log') t ∧ Ends r t := by
  induction n generalizing b s log past x with
  | zero =>
    cases hs with
    | posed hheld hp hpast =>
      -- a question that is posed is one of the questions
      have hwithin := hheld.kept.within
      omega
    | committed hheld hfinished hsnapshot hholds =>
      exact ⟨0, Nat.le_refl _, [], .ok (), s, x, rfl, .finished s x, by rwa [List.append_nil],
        hfinished, _, hsnapshot, hholds⟩
  | succ n ih =>
    cases hs with
    | committed hheld hfinished hsnapshot hholds =>
      exact ⟨0, Nat.zero_le _, [], .ok (), s, x, rfl, .finished s x, by rwa [List.append_nil],
        hfinished, _, hsnapshot, hholds⟩
    | posed hheld hp hpast =>
      rename_i p
      obtain ⟨choice, y, hchoice⟩ : ∃ choice y, (choose p s.dialogue.options).run x = (choice, y) :=
        ⟨_, _, rfl⟩
      have houtcome : Outcome q minOptions (log ++ (Turn.choose choice).considered s)
          s.dialogue.next (answer choice s) := by
        refine hheld.outcome (.choose choice) fun hnone => ?_
        rw [hp] at hnone
        cases hnone
      rw [converseWithin_succ hp hchoice]
      cases hanswer : answer choice s with
      | error e t =>
        rw [hanswer] at houtcome
        cases houtcome with
        | refused ht he =>
          have hcarries : Carries choose (.ok true s) x 1 (.error e) t y :=
            .answered hp hchoice (by rw [hanswer]; exact .refused e t y)
          exact ⟨1, by omega, _, .error e, t, y, rfl, hcarries, ht, he⟩
      | ok b t =>
        rw [hanswer] at houtcome
        obtain ⟨m, hm, log', r, u, z, hrun, hrest, hu, hends⟩ := ih houtcome (by omega) y
        have hcarries : Carries choose (.ok true s) x (m + 1) r u z :=
          .answered hp hchoice (by rwa [hanswer])
        rw [List.append_assoc] at hu
        exact ⟨m + 1, Nat.succ_le_succ hm, _, r, u, z, hrun, hcarries, hu, hends⟩

/-- A dialogue that is carried on to its end gives no more answers than there are questions. -/
theorem Held.carries (hs : Held q minOptions log s) (choose : Question → List Quip → StateM σ Nat)
    (x : σ) :
    ∃ n ≤ q.questions.length, ∃ log' r t y,
      (converse (fun p options => some <$> choose p options) s).run x = ((r, t), y) ∧
        Carries choose (nextQuestion s) x n r t y ∧ Held q minOptions (log ++ log') t ∧ Ends r t := by
  have houtcome : Outcome q minOptions (log ++ Turn.next.considered s) s.dialogue.next
      (nextQuestion s) := hs.outcome .next fun _ => rfl
  unfold converse
  cases hnext : nextQuestion s with
  | error e t =>
    rw [hnext] at houtcome
    cases houtcome with
    | refused ht he =>
      exact ⟨0, Nat.zero_le _, _, .error e, t, x, rfl, .refused e t x, ht, he⟩
  | ok b t =>
    rw [hnext] at houtcome
    have hquestionnaire : t.dialogue.questionnaire = q := by
      cases houtcome with
      | posed ht hp hpast => exact ht.kept.questionnaire
      | committed ht hfinished hsnapshot hholds => exact ht.kept.questionnaire
    -- each question that is posed takes one answer, and there are finitely many questions
    obtain ⟨m, hm, log', r, u, y, hrun, hcarries, hu, hends⟩ :=
      houtcome.carries choose (Nat.le_add_left _ _) x
    rw [List.append_assoc] at hu
    refine ⟨m, hm, _, r, u, y, ?_, hcarries, hu, hends⟩
    dsimp only
    rw [hquestionnaire]
    exact hrun

/-! ### The course of a dialogue -/

/-- What may be said of a dialogue, the questions of the list having been considered. -/
structure Exact (q : Questionnaire) (minOptions : Nat) (log : List Nat) (s : Interview ρ) :
    Prop where
  /-- Every question is considered once at most, and they are considered in order. -/
  ordered : log.Pairwise (· < ·) ∧ ∀ i ∈ log, i < q.questions.length
  setting : s.dialogue.questionnaire = q ∧ s.dialogue.minOptions = max minOptions 1
  /-- The first question with enough answers is posed, or the world is committed. -/
  next : Advances s (nextQuestion s)
  /-- Without a question there is nothing to answer. -/
  unasked : s.dialogue.posed? = none → ∀ choice, answer choice s = .ok false s
  /-- What is not offered is refused, and everything stays as it is. -/
  refused : ∀ p, s.dialogue.posed? = some p → ∀ choice, s.dialogue.options.length ≤ choice →
    answer choice s = .error (.noSuchAnswer choice) s
  /-- What is offered is accumulated before the next question is looked for. -/
  answered : ∀ p a choice, s.dialogue.posed? = some p → s.dialogue.options[choice]? = some a →
    answer choice s = nextQuestion (s.accumulating (p.implications ++ a.implications)) ∧
      Advances (s.accumulating (p.implications ++ a.implications)) (answer choice s)
  /-- Whoever answers, the dialogue ends. -/
  ends : ∀ {σ : Type} (choose : Question → List Quip → StateM σ Nat) (x : σ),
    ∃ n ≤ q.questions.length, ∃ log' r t y,
      (converse (fun p options => some <$> choose p options) s).run x = ((r, t), y) ∧
        Carries choose (nextQuestion s) x n r t y ∧ Held q minOptions (log ++ log') t ∧ Ends r t

/-- **A dialogue offers exactly the consistent answers, and always advances.** Let a questionnaire have
been read into a world in which top is no head, and let a dialogue about it be carried on by any
turns, whatever is done with the world in between. It has considered every question at most once,
and in order. The next question that it poses is the first one that has enough answers which can
be true with the constraints, with what has been accumulated and with what the question implies;
these are offered, in order, and no others. If there is no such question the world is committed, or
else what has been accumulated is impossible. A choice that is not offered is refused, and
everything stays as it was. Whoever answers, the dialogue ends in a commit or with an error after
no more answers than there are questions. -/
theorem Held.course_exact (hs : Held q minOptions log s) : Exact q minOptions log s := by
  have hkept := hs.kept
  refine
    { ordered := ⟨hkept.ordered, fun i hi => Nat.lt_of_lt_of_le (hkept.past i hi) hkept.within⟩
      setting := ⟨hkept.questionnaire, hkept.enough⟩
      next := advances_nextQuestion hkept.toOpen
      unasked := fun hnone choice => ?_
      refused := fun p hp choice hlen => ?_
      answered := fun p a choice hp ha => ?_
      ends := hs.carries }
  · rw [answer_eq, hnone]
  · have hnone := List.getElem?_eq_none hlen
    rw [getElem?_options hp (hkept.offered p hp)] at hnone
    rw [answer_eq, hp]
    dsimp only
    cases hi : s.dialogue.offered[choice]? with
    | none => rfl
    | some i =>
      -- whatever is offered is one of the options
      rw [hi] at hnone
      have hlt := hkept.offered p hp i (List.mem_of_getElem? hi)
      exact absurd (List.getElem?_eq_none_iff.1 hnone) (Nat.not_le.2 hlt)
  · rw [getElem?_options hp (hkept.offered p hp)] at ha
    obtain ⟨i, hi, ha⟩ := Option.bind_eq_some_iff.1 ha
    have hanswer : answer choice s =
        nextQuestion (s.accumulating (p.implications ++ a.implications)) := by
      rw [answer_eq, hp]
      dsimp only
      rw [hi]
      dsimp only [chosen]
      rw [ha]
      rfl
    obtain ⟨hknown, hanswers⟩ := hkept.known hp
    have hopen := (hkept.accumulate (List.forall_mem_append.2
      ⟨hknown, hanswers a (List.mem_of_getElem? ha)⟩)).toOpen
    rw [hanswer]
    exact ⟨rfl, advances_nextQuestion hopen⟩

/-- Whether it is raining is known only once a question has been answered, and a third answer to it
is refused. -/
theorem course_exact_wet :
    let text := "Q: Wet?\nA: Yes\n rain\nA: No\n !rain\nQ: Umbrella?\n rain\nA: Up\nA: Torn\n !rain"
    let q : Questionnaire := ⟨[
      { text := "Wet?", answers := [⟨"Yes", [Literal.pos 1]⟩, ⟨"No", [Literal.neg 1]⟩] },
      { text := "Umbrella?"
        implications := [Literal.pos 1]
        answers := [⟨"Up", []⟩, ⟨"Torn", [Literal.neg 1]⟩] }]⟩
    ∃ w s, Questionnaire.parse text (World.empty "entity" {}) = .ok q w ∧
      stateAfter (Turn.choose 2).take (stateAfter Turn.next.take ⟨w, Dialogue.start q 2⟩) = s ∧
      Held q 2 [0] s ∧ s.dialogue.options.map Quip.text = ["Yes", "No"] ∧ Exact q 2 [0] s := by
  intro text q
  have hempty : (World.empty "entity" {}).Reachable :=
    .start (.start "entity") (.start {} _) {} false
  have hfacts : let w := stateAfter (Questionnaire.parse text) (World.empty "entity" {})
      value? (Questionnaire.parse text) (World.empty "entity" {}) = some q ∧
        w.solver.rules.recorded = [] ∧
        [] ++ Turn.next.considered ⟨w, Dialogue.start q 2⟩ ++ (Turn.choose 2).considered
          (stateAfter Turn.next.take ⟨w, Dialogue.start q 2⟩) = [0] ∧
        (stateAfter (Turn.choose 2).take (stateAfter Turn.next.take
          ⟨w, Dialogue.start q 2⟩)).dialogue.options.map Quip.text = ["Yes", "No"] := by
    decide +kernel
  obtain ⟨hvalue, hrules, hlog, hoptions⟩ := hfacts
  have hparse := eq_ok_of_value? hvalue
  have hparsed := World.Parsed.parse hempty text hparse
  have hstart : Held q 2 [] ⟨_, Dialogue.start q 2⟩ :=
    .start hparsed (by rw [hrules]; exact List.forall_mem_nil _)
  have hposed := (hstart.turn .next).turn (.choose 2)
  rw [hlog] at hposed
  exact ⟨_, _, hparse, rfl, hposed, hoptions, hposed.course_exact⟩

end Interview

end Storyworld
