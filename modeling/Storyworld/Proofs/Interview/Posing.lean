import Storyworld.Interview.Dialogue
import Storyworld.Proofs.World.Reachable

namespace Storyworld

/-!
# Which question is posed

To look for the next question is to consider one question after the other (`Interview.pose_cons`).
A question that is considered is posed with exactly those of its answers that can be true with what
has been accumulated and with what the question implies, if they are enough, and is passed by
otherwise (`Interview.after_consider`). `Interview.Advances` says what comes of it all: the first
question with enough answers is posed, or the world is committed if there is none.

Which questions are considered is written down along the way (`Interview.considered`), and these
are the ones that the dialogue goes past (`Interview.considered_pose`).
-/

namespace Interview

open Action

variable {ρ : Type} {w t : World ρ} {s u : Interview ρ} {q : Questionnaire} {p : Question}
  {ls : List Literal} {offered : List Nat}

/-! ### Answers that are possible -/

/-- The literals can be true together with the constraints of the world. -/
def Possible (w : World ρ) (ls : List Literal) : Prop :=
  ∃ i : Interpretation, i.IsModel w.solver.formula ∧ i.SatisfiesAll ls

/-- The positions of the answers of a question that can be true together with the literals and
with what the question implies, in order. -/
structure Offers (w : World ρ) (ls : List Literal) (p : Question) (offered : List Nat) : Prop where
  increasing : offered.Pairwise (· < ·)
  mem : ∀ i, i ∈ offered ↔
    ∃ a, p.answers[i]? = some a ∧ Possible w (ls ++ (p.implications ++ a.implications))

theorem possible_congr (h : t.solver.formula = w.solver.formula) (ls : List Literal) :
    Possible t ls ↔ Possible w ls := by
  unfold Possible
  rw [h]

theorem Offers.congr (h : Offers t ls p offered) (hformula : t.solver.formula = w.solver.formula) :
    Offers w ls p offered where
  increasing := h.increasing
  mem i := by
    rw [h.mem]
    simp only [possible_congr hformula]

/-- The implications of a question, and those of each of its answers. -/
theorem known_of_mem {count : Nat} (hq : ∀ l ∈ q.mentions, l.atom < count)
    (hp : p ∈ q.questions) : (∀ l ∈ p.implications, l.atom < count) ∧
      ∀ a ∈ p.answers, ∀ l ∈ a.implications, l.atom < count := by
  have hmentions : ∀ l ∈ p.mentions, l.atom < count :=
    fun l hl => hq l (List.mem_flatMap.2 ⟨p, hp, hl⟩)
  refine ⟨fun l hl => hmentions l (List.mem_append_left _ hl), fun a ha l hl => ?_⟩
  exact hmentions l (List.mem_append_right _ (List.mem_flatMap.2 ⟨a, ha, hl⟩))

theorem after_onWorld {α : Type} {act : EStateM Error (World ρ) α} {done : α → Interview ρ → Prop}
    {refused : Error → Interview ρ → Prop} :
    After (onWorld act) s done refused ↔
      After act s.world (fun a w => done a { s with world := w })
        (fun e w => refused e { s with world := w }) := by
  unfold After onWorld
  cases act s.world <;> rfl

/-- What is put to the world leaves the dialogue as it is. -/
theorem dialogue_onWorld {α : Type} (act : EStateM Error (World ρ) α) (s : Interview ρ) :
    After (onWorld act) s (fun _ t => t.dialogue = s.dialogue) fun _ t => t.dialogue = s.dialogue :=
  after_onWorld.2 (by unfold After; cases act s.world <;> rfl)

/-- The dialogue may go on: the world may be asked about everything that there is to say. -/
structure Open (s : Interview ρ) : Prop where
  ready : s.world.solver.Ready
  mentions : ∀ l ∈ s.dialogue.questionnaire.mentions, l.atom < s.world.atomCount
  implications : ∀ l ∈ s.dialogue.implications, l.atom < s.world.atomCount

/-- Questions that are put to the world leave the dialogue open. -/
theorem Open.asked (hs : s.Open) (hasked : World.Asked s.world u.world)
    (hquestionnaire : u.dialogue.questionnaire = s.dialogue.questionnaire)
    (himplications : u.dialogue.implications = s.dialogue.implications) : u.Open := by
  have hcount : u.world.atomCount = s.world.atomCount := congrArg Atoms.count hasked.same.atoms
  refine ⟨hasked.ready, ?_, ?_⟩
  · rw [hquestionnaire, hcount]
    exact hs.mentions
  · rw [himplications, hcount]
    exact hs.implications

variable [RandomSource ρ]

/-- The answers that are offered are those that can be true together with the sets. -/
theorem after_consistentAnswers {sets : List (List Literal)} {answers : List Quip}
    (ht : t.solver.Ready) (hsets : ∀ l ∈ sets.flatten, l.atom < t.atomCount)
    (hanswers : ∀ a ∈ answers, ∀ l ∈ a.implications, l.atom < t.atomCount) (position : Nat) :
    After (consistentAnswers sets position answers) t
      (fun offered u => World.Asked t u ∧ offered.Pairwise (· < ·) ∧
        ∀ i, i ∈ offered ↔ ∃ k a, i = position + k ∧ answers[k]? = some a ∧
          Possible t (sets.flatten ++ a.implications))
      (fun _ _ => False) := by
  induction answers generalizing t position with
  | nil => exact after_pure.2 ⟨World.Asked.refl ht, List.Pairwise.nil, by simp⟩
  | cons a answers ih =>
    have hflatten : (sets ++ [a.implications]).flatten = sets.flatten ++ a.implications := by simp
    have hprobed : ∀ l ∈ (sets ++ [a.implications]).flatten, l.atom < t.atomCount := by
      rw [hflatten]
      exact List.forall_mem_append.2 ⟨hsets, hanswers a List.mem_cons_self⟩
    refine after_bind.2 ((World.after_probe ht hprobed).imp_done fun b u h => ?_)
    obtain ⟨hasked, hb⟩ := h
    rw [hflatten] at hb
    have hcount : u.atomCount = t.atomCount := congrArg Atoms.count hasked.same.atoms
    have hrest := ih hasked.ready (by rwa [hcount])
      (fun c hc => by rw [hcount]; exact hanswers c (List.mem_cons_of_mem _ hc)) (position + 1)
    refine after_bind.2 (hrest.imp_done fun rest v h => ?_)
    obtain ⟨hasked', hsorted, hmem⟩ := h
    simp only [possible_congr hasked.same.formula] at hmem
    refine after_pure.2 ⟨hasked.trans hasked', ?_, fun i => ?_⟩
    · split
      · refine List.pairwise_cons.2 ⟨fun i hi => ?_, hsorted⟩
        obtain ⟨k, -, rfl, -⟩ := (hmem i).1 hi
        omega
      · exact hsorted
    · -- the answer itself is consistent, or it is one of those that follow
      have hcases : i ∈ (if b = true then position :: rest else rest) ↔
          b = true ∧ i = position ∨ i ∈ rest := by
        cases b <;> simp
      rw [hcases, hmem]
      constructor
      · rintro (⟨hb', rfl⟩ | ⟨k, c, rfl, hc, hpossible⟩)
        · exact ⟨0, a, rfl, rfl, hb.1 hb'⟩
        · exact ⟨k + 1, c, by omega, hc, hpossible⟩
      · rintro ⟨k, c, rfl, hc, hpossible⟩
        cases k with
        | zero =>
          cases hc
          exact Or.inl ⟨hb.2 hpossible, rfl⟩
        | succ k => exact Or.inr ⟨k, c, by omega, hc, hpossible⟩

/-! ### Questions one after the other -/

/-- Considers the question that is next: it is posed, or passed by if too few of its answers are
possible. -/
def consider (p : Question) : EStateM Error (Interview ρ) Bool := do
  let position := (← get).dialogue.next
  modifyDialogue fun d => { d with next := d.next + 1 }
  let sets := [(← get).dialogue.implications, p.implications]
  let offered ← onWorld (consistentAnswers sets 0 p.answers)
  if (← get).dialogue.minOptions ≤ offered.length then
    modifyDialogue fun d => { d with current := some position, offered }
    return true
  else return false

/-- To look for a question is to consider the first one, and then the others. -/
theorem pose_cons (p : Question) (questions : List Question) (s : Interview ρ) :
    pose (p :: questions) s =
      match consider p s with
      | .ok true t => .ok true t
      | .ok false t => pose questions t
      | .error e t => .error e t := by
  -- to pose the rest is what follows a question that was considered and passed by
  have hbind : pose (ρ := ρ) (p :: questions) =
      consider p >>= fun posed => if posed then pure true else pose questions := by
    simp only [pose, consider, bind_assoc]
    refine congrArg (bind get) (funext fun _ => congrArg (bind _) (funext fun _ => ?_))
    refine congrArg (bind get) (funext fun _ => congrArg (bind _) (funext fun _ => ?_))
    refine congrArg (bind get) (funext fun _ => ?_)
    split <;> simp
  rw [hbind]
  show EStateM.bind _ _ s = _
  unfold EStateM.bind
  cases consider p s with
  | error e t => rfl
  | ok posed t => cases posed <;> rfl

/-- A question is posed with exactly those of its answers that are possible if they are enough, and
else only passed by. -/
theorem after_consider (hs : s.Open) (hp : s.dialogue.questionnaire.questions[s.dialogue.next]? = some p) :
    After (consider p) s
      (fun posed t => World.Asked s.world t.world ∧ ∃ offered,
        Offers s.world s.dialogue.implications p offered ∧
        (posed = true ∧ s.dialogue.minOptions ≤ offered.length ∧
            t.dialogue = { s.dialogue with
              next := s.dialogue.next + 1, current := some s.dialogue.next, offered } ∨
          posed = false ∧ offered.length < s.dialogue.minOptions ∧
            t.dialogue = { s.dialogue with next := s.dialogue.next + 1 }))
      (fun _ _ => False) := by
  have hknown := known_of_mem hs.mentions (List.mem_of_getElem? hp)
  -- the probes are about what was accumulated and what the question implies, taken together
  have hflatten : [s.dialogue.implications, p.implications].flatten =
      s.dialogue.implications ++ p.implications := by simp
  refine after_bind.2 (after_get.2 (after_bind.2 (after_modify.2 (after_bind.2 (after_get.2
    (after_bind.2 (after_onWorld.2 ?_)))))))
  refine (after_consistentAnswers hs.ready
    (hflatten ▸ List.forall_mem_append.2 ⟨hs.implications, hknown.1⟩) hknown.2 0).imp_done
    fun offered t h => ?_
  obtain ⟨hasked, hsorted, hmem⟩ := h
  have hoffers : Offers s.world s.dialogue.implications p offered := by
    refine ⟨hsorted, fun i => ?_⟩
    rw [hmem, hflatten]
    simp only [List.append_assoc, Nat.zero_add, exists_and_left, exists_eq_left']
  refine after_bind.2 (after_get.2 (after_ite.2 ?_))
  -- enough answers are possible, or the question is passed by
  split
  · rename_i henough
    exact after_bind.2 (after_modify.2 (after_pure.2
      ⟨hasked, offered, hoffers, Or.inl ⟨rfl, henough, rfl⟩⟩))
  · rename_i hfew
    exact after_pure.2 ⟨hasked, offered, hoffers, Or.inr ⟨rfl, Nat.lt_of_not_le hfew, rfl⟩⟩

/-! ### Looking for the next question -/

omit [RandomSource ρ] in
/-- The question at a position has too few answers that are possible. -/
def TooFew (s : Interview ρ) (i : Nat) : Prop :=
  ∃ p offered, s.dialogue.questionnaire.questions[i]? = some p ∧
    Offers s.world s.dialogue.implications p offered ∧ offered.length < s.dialogue.minOptions

omit [RandomSource ρ] in
/-- What comes of looking for the next question: the first one with enough answers is posed, or
else the world is committed, which is refused only if what has been accumulated is impossible. -/
inductive Advances (s : Interview ρ) : EStateM.Result Error (Interview ρ) Bool → Prop where
  | posed {t : Interview ρ} {i : Nat} {p : Question} {offered : List Nat}
    (hle : s.dialogue.next ≤ i) (hp : s.dialogue.questionnaire.questions[i]? = some p)
    (hskipped : ∀ j, s.dialogue.next ≤ j → j < i → TooFew s j)
    (hoffers : Offers s.world s.dialogue.implications p offered)
    (henough : s.dialogue.minOptions ≤ offered.length) (hworld : World.Asked s.world t.world)
    (hdialogue : t.dialogue = { s.dialogue with next := i + 1, current := some i, offered }) :
    Advances s (.ok true t)
  | committed {t : Interview ρ} {snapshot : Snapshot}
    (hskipped : ∀ j, s.dialogue.next ≤ j → j < s.dialogue.questionnaire.questions.length →
      TooFew s j)
    (hworld : World.Asked s.world t.world) (hsnapshot : t.world.snapshot? = some snapshot)
    (hpossible : Possible s.world s.dialogue.implications)
    (hholds : ∀ l ∈ s.dialogue.implications, snapshot.holds l = true)
    (hdialogue : t.dialogue = { s.dialogue with
      next := max s.dialogue.next s.dialogue.questionnaire.questions.length
      current := none
      offered := []
      finished := true }) :
    Advances s (.ok false t)
  | impossible {t : Interview ρ}
    (hskipped : ∀ j, s.dialogue.next ≤ j → j < s.dialogue.questionnaire.questions.length →
      TooFew s j)
    (hworld : World.Asked s.world t.world)
    (himpossible : ¬ Possible s.world s.dialogue.implications)
    (hdialogue : t.dialogue = { s.dialogue with
      next := max s.dialogue.next s.dialogue.questionnaire.questions.length
      current := none
      offered := [] }) :
    Advances s (.error .unsatisfiableCommit t)

omit [RandomSource ρ] in
/-- A question with too few answers may come before whatever comes of the others. -/
theorem Advances.skip {r : EStateM.Result Error (Interview ρ) Bool} (h : Advances u r)
    (hfew : TooFew s s.dialogue.next) (hworld : World.Asked s.world u.world)
    (hdialogue : u.dialogue = { s.dialogue with next := s.dialogue.next + 1 }) : Advances s r := by
  have hformula := hworld.same.formula
  have hlt : s.dialogue.next < s.dialogue.questionnaire.questions.length := by
    obtain ⟨p, -, hp, -⟩ := hfew
    exact (List.getElem?_eq_some_iff.1 hp).1
  -- the question that was passed by comes in front of those that are passed by afterwards
  have hskip : ∀ n : Nat, (∀ j, u.dialogue.next ≤ j → j < n → TooFew u j) →
      ∀ j, s.dialogue.next ≤ j → j < n → TooFew s j := by
    intro n hskipped j hle hj
    rcases Nat.eq_or_lt_of_le hle with rfl | hlt
    · exact hfew
    · obtain ⟨p, offered, hp, hoffers, hlen⟩ := hskipped j (by rw [hdialogue]; exact hlt) hj
      rw [hdialogue] at hp hoffers hlen
      exact ⟨p, offered, hp, hoffers.congr hformula, hlen⟩
  -- the position at the end is the same, whether counted from this question or from the next
  have hmax : max (s.dialogue.next + 1) s.dialogue.questionnaire.questions.length =
      max s.dialogue.next s.dialogue.questionnaire.questions.length := by omega
  cases h with
  | posed hle hp hskipped hoffers henough hasked ht =>
    have hskipped := hskip _ hskipped
    rw [hdialogue] at hle hp hoffers henough ht
    exact .posed (Nat.le_of_succ_le hle) hp hskipped (hoffers.congr hformula) henough
      (hworld.trans hasked) ht
  | committed hskipped hasked hsnapshot hpossible hholds ht =>
    have hskipped := hskip _ hskipped
    rw [hdialogue] at hskipped hpossible hholds ht
    rw [hmax] at ht
    exact .committed hskipped (hworld.trans hasked) hsnapshot ((possible_congr hformula _).1 hpossible)
      hholds ht
  | impossible hskipped hasked himpossible ht =>
    have hskipped := hskip _ hskipped
    rw [hdialogue] at hskipped himpossible ht
    rw [hmax] at ht
    exact .impossible hskipped (hworld.trans hasked) (mt (possible_congr hformula _).2 himpossible) ht

/-- Without a question left, the world is committed to what has been accumulated. -/
theorem advances_pose_nil (hs : s.Open) (hcurrent : s.dialogue.current = none)
    (hoffered : s.dialogue.offered = [])
    (hnext : s.dialogue.questionnaire.questions.drop s.dialogue.next = []) :
    Advances s (pose [] s) := by
  have hle := List.drop_eq_nil_iff.1 hnext
  have hmax : max s.dialogue.next s.dialogue.questionnaire.questions.length = s.dialogue.next := by
    omega
  have hskipped : ∀ j, s.dialogue.next ≤ j → j < s.dialogue.questionnaire.questions.length →
      TooFew s j := by
    intro j hj hlt
    omega
  have hposed : After (pose []) s (fun b t => Advances s (.ok b t))
      fun e t => Advances s (.error e t) := by
    refine after_bind.2 (after_get.2 (after_bind.2 (after_onWorld.2 ?_)))
    -- no question is left, so the world is committed to what has been accumulated
    refine (World.after_commit hs.ready hs.implications).mono ?_ ?_
    · rintro snapshot t ⟨hasked, hsnapshot, hpossible, hholds⟩
      refine after_bind.2 (after_modify.2 (after_pure.2 ?_))
      exact .committed hskipped hasked hsnapshot hpossible hholds (by rw [hmax, ← hcurrent, ← hoffered])
    · rintro e t ⟨rfl, hasked, himpossible⟩
      exact .impossible hskipped hasked himpossible (by rw [hmax, ← hcurrent, ← hoffered])
  unfold After at hposed
  cases h : pose [] s <;> rw [h] at hposed <;> exact hposed

/-- To pose questions is to advance to the first one with enough answers. -/
theorem advances_pose {questions : List Question} (hs : s.Open)
    (hcurrent : s.dialogue.current = none) (hoffered : s.dialogue.offered = [])
    (hnext : s.dialogue.questionnaire.questions.drop s.dialogue.next = questions) :
    Advances s (pose questions s) := by
  induction questions generalizing s with
  | nil => exact advances_pose_nil hs hcurrent hoffered hnext
  | cons p questions ih =>
    have hp : s.dialogue.questionnaire.questions[s.dialogue.next]? = some p := by
      rw [← Nat.add_zero s.dialogue.next, ← List.getElem?_drop, hnext]
      rfl
    have hrest : s.dialogue.questionnaire.questions.drop (s.dialogue.next + 1) = questions := by
      rw [← List.drop_drop, hnext]
      rfl
    obtain ⟨posed, t, hconsider, hasked, offered, hoffers, hcases⟩ :=
      (after_consider hs hp).exists_ok
    rw [pose_cons, hconsider]
    -- the question is posed, or the search goes on behind it
    rcases hcases with ⟨rfl, henough, hdialogue⟩ | ⟨rfl, hfew, hdialogue⟩
    · exact .posed (Nat.le_refl _) hp (fun j hle hlt => by omega) hoffers henough hasked hdialogue
    · refine Advances.skip (ih (hs.asked hasked ?_ ?_) ?_ ?_ ?_) ⟨p, offered, hp, hoffers, hfew⟩
        hasked hdialogue
      all_goals rw [hdialogue]
      · exact hcurrent
      · exact hoffered
      · exact hrest

omit [RandomSource ρ] in
/-- The dialogue without a question posed. -/
def unposed (s : Interview ρ) : Interview ρ :=
  { s with dialogue := { s.dialogue with current := none, offered := [] } }

omit [RandomSource ρ] in
theorem Advances.of_unposed {r : EStateM.Result Error (Interview ρ) Bool}
    (h : Advances s.unposed r) : Advances s r := by
  cases h with
  | posed hle hp hskipped hoffers henough hworld hdialogue =>
    exact .posed hle hp hskipped hoffers henough hworld hdialogue
  | committed hskipped hworld hsnapshot hpossible hholds hdialogue =>
    exact .committed hskipped hworld hsnapshot hpossible hholds hdialogue
  | impossible hskipped hworld himpossible hdialogue =>
    exact .impossible hskipped hworld himpossible hdialogue

/-- **The first question with enough answers is posed, or the world is committed.** -/
theorem advances_nextQuestion (hs : s.Open) : Advances s (nextQuestion s) := by
  have hopen : s.unposed.Open := ⟨hs.ready, hs.mentions, hs.implications⟩
  exact Advances.of_unposed (advances_pose (s := s.unposed) hopen rfl rfl rfl)

/-! ### Which questions are considered -/

/-- The positions of the questions that are considered on the way to the next one. -/
def considered : List Question → Interview ρ → List Nat
  | [], _ => []
  | p :: questions, s =>
    s.dialogue.next :: match consider p s with
      | .ok false t => considered questions t
      | _ => []

/-- To consider a question is to go past it, whatever comes of it. -/
theorem next_consider (p : Question) (s : Interview ρ) :
    After (consider p) s (fun _ t => t.dialogue.next = s.dialogue.next + 1)
      (fun _ t => t.dialogue.next = s.dialogue.next + 1) := by
  refine after_bind.2 (after_get.2 (after_bind.2 (after_modify.2 (after_bind.2 (after_get.2
    (after_bind.2 ((dialogue_onWorld _ _).mono (fun offered t ht => ?_) fun e t ht => ?_)))))))
  · refine after_bind.2 (after_get.2 (after_ite.2 ?_))
    split
    · exact after_bind.2 (after_modify.2 (after_pure.2 (congrArg Dialogue.next ht)))
    · exact after_pure.2 (congrArg Dialogue.next ht)
  · exact congrArg Dialogue.next ht

theorem next_pose_nil (s : Interview ρ) :
    (stateAfter (pose []) s).dialogue.next = s.dialogue.next := by
  refine After.stateAfter (P := fun t : Interview ρ => t.dialogue.next = s.dialogue.next) ?_
  refine after_bind.2 (after_get.2 (after_bind.2 ((dialogue_onWorld _ _).mono
    (fun snapshot t ht => ?_) fun e t ht => congrArg Dialogue.next ht)))
  have hnext : t.dialogue.next = s.dialogue.next := congrArg Dialogue.next ht
  exact after_bind.2 (after_modify.2 (after_pure.2 hnext))

/-- The questions that are considered are those that the dialogue goes past, in order. -/
theorem considered_pose (questions : List Question) (s : Interview ρ) :
    s.dialogue.next ≤ (stateAfter (pose questions) s).dialogue.next ∧
      considered questions s = List.range' s.dialogue.next
        ((stateAfter (pose questions) s).dialogue.next - s.dialogue.next) := by
  induction questions generalizing s with
  | nil =>
    rw [next_pose_nil, Nat.sub_self]
    exact ⟨Nat.le_refl _, rfl⟩
  | cons p questions ih =>
    have hnext := next_consider p s
    unfold stateAfter After at *
    rw [pose_cons, considered]
    cases hconsider : consider p s with
    | error e t =>
      rw [hconsider] at hnext
      dsimp only at hnext ⊢
      rw [hnext, Nat.add_sub_cancel_left]
      exact ⟨Nat.le_succ _, rfl⟩
    | ok posed t =>
      rw [hconsider] at hnext
      cases posed with
      | true =>
        dsimp only at hnext ⊢
        rw [hnext, Nat.add_sub_cancel_left]
        exact ⟨Nat.le_succ _, rfl⟩
      | false =>
        -- passed by: the rest is considered from the next position on
        obtain ⟨hle, hrange⟩ := ih t
        dsimp only at hnext ⊢
        rw [hnext] at hle hrange
        rw [hrange, ← List.range'_succ]
        exact ⟨Nat.le_of_succ_le hle, congrArg (List.range' _) (by omega)⟩

end Interview

end Storyworld
