import Storyworld.Interview.Questionnaire
import Storyworld.Proofs.World.Sound

namespace Storyworld

/-!
# Questionnaires are over the language

Every implication that is read from a questionnaire is a literal of the language of the world
it is read into (`Questionnaire.after_parse`): what is read has its atoms when it is taken into
the draft, and the draft passes it on.
-/

/-- The literals that a question mentions: its own implications and those of its answers. -/
def Question.mentions (q : Question) : List Literal :=
  q.implications ++ q.answers.flatMap Quip.implications

/-- The literals that a questionnaire mentions. -/
def Questionnaire.mentions (q : Questionnaire) : List Literal :=
  q.questions.flatMap Question.mentions

namespace Questionnaire

open Action

namespace Draft

/-- The literals of all that has been read. -/
def mentions (d : Draft) : List Literal :=
  d.complete.flatMap Question.mentions ++ (d.question.elim [] Question.mentions ++
    d.answer.elim [] Quip.implications)

/-- A draft mentions what its questions mention, the open one included, and what the open answer
implies. -/
theorem mem_mentions {d : Draft} {l : Literal} :
    l ∈ d.mentions ↔ l ∈ d.complete.flatMap Question.mentions ∨
      l ∈ d.question.elim [] Question.mentions ∨ l ∈ d.answer.elim [] Quip.implications := by
  rw [mentions, List.mem_append, List.mem_append]

/-- A question with one more answer mentions what that answer implies as well. -/
theorem mem_mentions_addAnswer {q : Question} {a : Quip} {l : Literal} :
    l ∈ ({ q with answers := q.answers ++ [a] } : Question).mentions ↔
      l ∈ q.mentions ∨ l ∈ a.implications := by
  simp [Question.mentions, or_assoc]

/-- Every literal that has been read is over the first `count` atoms. -/
def Below (count : Nat) (d : Draft) : Prop := ∀ l ∈ d.mentions, l.atom < count

variable {d d' : Draft} {ls : List Literal} {count : Nat}

/-- An empty draft mentions nothing. -/
theorem below_start (count : Nat) : Below count {} := nofun

theorem Below.mono {m n : Nat} (hd : Below m d) (hmn : m ≤ n) : Below n d :=
  fun l hl => Nat.lt_of_lt_of_le (hd l hl) hmn

/-- To give the answer to the question adds no literal. -/
theorem mentions_closeAnswer : d.closeAnswer.mentions ⊆ d.mentions := by
  intro l hl
  rw [mem_mentions] at hl ⊢
  unfold closeAnswer at hl
  split at hl
  · rename_i q a hq ha
    rw [hq, ha]
    rcases hl with h | h | h
    · exact Or.inl h
    · -- the question has the answer from now on
      exact Or.inr (mem_mentions_addAnswer.1 h)
    · cases h
  · exact hl.imp_right fun h => h.imp_right nofun

/-- To close a question adds no literal. -/
theorem mentions_closeQuestion : d.closeQuestion.mentions ⊆ d.mentions := by
  refine List.Subset.trans ?_ mentions_closeAnswer
  intro l hl
  rw [mem_mentions] at hl ⊢
  unfold closeQuestion at hl
  dsimp only at hl
  split at hl
  · rename_i q hq
    rw [hq]
    rcases hl with h | h | h
    · -- the question is complete from now on
      rw [List.flatMap_append, List.mem_append, List.flatMap_singleton] at h
      exact h.imp_right Or.inl
    · cases h
    · exact Or.inr (Or.inr h)
  · exact hl

/-- A new question implies nothing yet. -/
theorem Below.openQuestion (hd : d.Below count) (text : String) :
    (d.openQuestion text).Below count := by
  intro l hl
  refine hd l (mentions_closeQuestion ?_)
  rw [mem_mentions] at hl ⊢
  exact hl.imp_right fun h => h.imp_left nofun

/-- A new answer implies nothing yet. -/
theorem Below.openAnswer (hd : d.Below count) {text : String} (h : d.openAnswer text = .ok d') :
    d'.Below count := by
  intro l hl
  refine hd l (mentions_closeAnswer ?_)
  unfold Draft.openAnswer at h
  split at h
  · cases h
  · cases h
    rw [mem_mentions] at hl ⊢
    exact hl.imp_right fun h => h.imp_right nofun

/-- Literals are added to what is open, and nowhere else. -/
theorem mem_mentions_imply (h : d.imply ls = .ok d') {l : Literal} (hl : l ∈ d'.mentions) :
    l ∈ d.mentions ∨ l ∈ ls := by
  rw [mem_mentions] at hl ⊢
  unfold imply at h
  split at h
  · rename_i a _ ha
    -- an answer is open, so the literals are its implications
    cases h
    rw [ha, or_assoc, or_assoc]
    exact hl.imp_right fun h => h.imp_right List.mem_append.1
  · rename_i q ha hq
    cases h
    rw [hq]
    rcases hl with h | h | h
    · exact Or.inl (Or.inl h)
    · have hcases : l ∈ q.mentions ∨ l ∈ ls := by
        simpa only [Question.mentions, List.mem_append, or_right_comm] using
          (show l ∈ ({ q with implications := q.implications ++ ls } : Question).mentions from h)
      exact hcases.imp_left fun h => Or.inr (Or.inl h)
    · exact Or.inl (Or.inr (Or.inr h))
  · cases h

/-- Implications that are added are over the language if they are, and the draft was. -/
theorem Below.imply (hd : d.Below count) (hls : ∀ l ∈ ls, l.atom < count) (h : d.imply ls = .ok d') :
    d'.Below count := fun l hl => (mem_mentions_imply h hl).elim (hd l) (hls l)

end Draft

variable {ρ : Type} {w : World ρ} {count : Nat}

/-! ### Reading lines -/

/-- The literals of phrases belong to the language there is in the end. -/
theorem after_literalsOf (phrases : List String) (hw : w.Sound count) :
    After (literalsOf phrases) w
      (fun ls t => t.Sound count ∧ ∀ l ∈ ls, l.atom < t.atomCount) (fun _ t => t.Sound count) := by
  induction phrases generalizing w count with
  | nil => exact after_pure.2 ⟨hw, nofun⟩
  | cons phrase phrases ih =>
    refine after_bind.2 ((World.after_literal phrase hw).imp_done fun l t ht => ?_)
    refine after_bind.2 ((ih ht.1.now).mono (fun ls u hu => ?_) fun _ _ hu => hu.mono ht.1.le)
    -- the phrases that follow may make more atoms, and take none away
    refine after_pure.2 ⟨hu.1.mono ht.1.le, List.forall_mem_cons.2 ⟨?_, hu.2⟩⟩
    exact Nat.lt_of_lt_of_le ht.2 hu.1.le

/-- A list of phrases keeps worlds sound, also where one of them is refused. -/
theorem preserves_literals (list : String) :
    Preserves (World.Sound count) (literals (ρ := ρ) list) :=
  fun _ hw => (after_literalsOf _ hw).imp_done fun _ _ ht => ht.1

/-- A head keeps worlds sound, also where it is refused. -/
theorem preserves_headAtom (head : String) :
    Preserves (World.Sound count) (headAtom (ρ := ρ) head) := by
  refine (World.preserves_literal head).bind fun l => ?_
  split
  · exact preserves_pure _
  · exact preserves_throw _

/-- A constraint keeps worlds sound. -/
theorem preserves_onSolver_assert (c : Constraint) :
    Preserves (World.Sound count) (World.onSolver (ρ := ρ) (Solver.assert c)) :=
  World.preserves_onSolver fun _ => Solver.preserves_assert c

/-- The action keeps worlds sound, and the draft it gives is over the atoms there are, if the
draft `d` was over those there were. -/
def Drafts (d : Draft) (act : EStateM Error (World ρ) Draft) : Prop :=
  ∀ n w, World.Sound n w → d.Below w.atomCount →
    After act w (fun d' t => t.Sound n ∧ d'.Below t.atomCount) (fun _ t => t.Sound n)

/-- What changes the draft alone may not add a literal that is not over the language. -/
theorem drafts_pure {d d' : Draft} (h : ∀ n, d.Below n → d'.Below n) :
    Drafts d (pure d' : EStateM Error (World ρ) Draft) :=
  fun _ _ hw hd => ⟨hw, h _ hd⟩

/-- What is done before the draft is changed has to keep worlds sound. -/
theorem Drafts.after {α : Type} {d : Draft} {act : EStateM Error (World ρ) α}
    (h : ∀ n, Preserves (World.Sound n) act) {next : α → EStateM Error (World ρ) Draft}
    (hnext : ∀ a, Drafts d (next a)) : Drafts d (act >>= next) := by
  intro n w hw hd
  refine after_bind.2 ((h _ w hw.now).mono (fun a t ht => ?_) fun _ t ht => ht.mono hw.le)
  exact hnext a n t (ht.mono hw.le) (hd.mono ht.le)

/-- A line of any kind leaves the draft over the language. -/
theorem drafts_readLine (d : Draft) (line : String) : Drafts d (readLine (ρ := ρ) d line) := by
  unfold readLine
  split
  · exact drafts_pure fun _ hd => hd
  · exact drafts_pure fun _ hd => hd.openQuestion _
  · intro n w hw hd
    -- an answer needs a question before it
    rw [after_ofExcept]
    split
    · rename_i h
      exact ⟨hw, hd.openAnswer h⟩
    · exact hw
  · intro n w hw hd
    refine after_bind.2 ((after_literalsOf _ hw.now).mono (fun ls t ht => ?_)
      fun _ t ht => ht.mono hw.le)
    rw [after_ofExcept]
    split
    · rename_i h
      exact ⟨ht.1.mono hw.le, (hd.mono ht.1.le).imply ht.2 h⟩
    · exact ht.1.mono hw.le
  · refine Drafts.after (fun _ => preserves_headAtom _) fun head => ?_
    refine Drafts.after (fun _ => preserves_literals _) fun body => ?_
    exact Drafts.after (fun _ => preserves_onSolver_assert _) fun _ => drafts_pure fun _ hd => hd
  · refine Drafts.after (fun _ => preserves_headAtom _) fun head => ?_
    refine Drafts.after (fun _ => preserves_literals _) fun body => ?_
    exact Drafts.after (fun _ => preserves_onSolver_assert _) fun _ => drafts_pure fun _ hd => hd
  · refine Drafts.after (fun _ => preserves_literals _) fun ls => ?_
    exact Drafts.after (fun _ => preserves_onSolver_assert _) fun _ => drafts_pure fun _ hd => hd
  · refine Drafts.after (fun _ => preserves_literals _) fun ls => ?_
    refine Drafts.after (fun _ => World.preserves_onSolver fun _ => ?_) fun _ =>
      drafts_pure fun _ hd => hd
    exact (Solver.preserves_assert _).bind fun _ => Solver.preserves_addAtMost 1 ls
  · refine Drafts.after (fun _ => preserves_literals _) fun ls => ?_
    exact Drafts.after (fun _ => World.preserves_onSolver fun _ => Solver.preserves_addAtMost 1 ls)
      fun _ => drafts_pure fun _ hd => hd
  · exact fun n w hw _ => hw

/-- The lines are read one after the other. -/
theorem readLines_cons (d : Draft) (number : Nat) (line : String) (lines : List String)
    (w : World ρ) :
    readLines d number (line :: lines) w =
      match readLine d line w with
      | .ok d' t => readLines d' (number + 1) lines t
      | .error e t => .error (.line number e) t := by
  show EStateM.bind (EStateM.tryCatch (readLine d line) _) _ w = _
  unfold EStateM.bind EStateM.tryCatch
  cases readLine d line w <;> rfl

/-- Lines leave the draft over the language, each with the atoms that there are by then. -/
theorem drafts_readLines (d : Draft) (number : Nat) (lines : List String) :
    Drafts d (readLines (ρ := ρ) d number lines) := by
  induction lines generalizing d number with
  | nil => exact drafts_pure fun _ hd => hd
  | cons line lines ih =>
    intro n w hw hd
    refine after_bind.2 (after_tryCatch.2 ?_)
    refine (drafts_readLine d line n w hw hd).imp_done fun d' t ht => ?_
    exact ih d' (number + 1) n t ht.1 ht.2

/-- A questionnaire that is read mentions atoms of the language only. -/
theorem after_parse (text : String) (hw : w.Sound count) :
    After (parse text) w (fun q t => t.Sound count ∧ ∀ l ∈ q.mentions, l.atom < t.atomCount)
      (fun _ t => t.Sound count) := by
  refine after_bind.2 ((drafts_readLines {} 1 (Text.lines text) count w hw
    (Draft.below_start _)).imp_done fun d t ht => ?_)
  refine after_pure.2 ⟨ht.1, fun l hl => ht.2 l (Draft.mentions_closeQuestion ?_)⟩
  exact List.mem_append_left _ hl

/-- To read a questionnaire keeps worlds sound, also where a line is refused. -/
theorem preserves_parse (text : String) :
    Preserves (World.Sound count) (parse (ρ := ρ) text) :=
  fun _ hw => (after_parse text hw).imp_done fun _ _ ht => ht.1

end Questionnaire

end Storyworld
