import Mathlib.Data.List.Forall2
import Storyworld.Proofs.Interview.Lines

namespace Storyworld

/-!
# Written questionnaires are read back

`Questionnaire.Writes` says how a list of questions may be laid out as a text: questions and answers on
lines of their own, phrases on one or more indented lines below what they follow from, and blank lines
and comments anywhere. `Questionnaire.Writes.reads_back` says that whatever layout is chosen, the text
is read as these questions.

The crux is the draft. An answer is taken into its question, and a question into the questionnaire,
only when the next one begins or the text ends, so what has been read is seen once all is closed:

* `reads_below` — the lines below an owner add their literals to what is open, and to nothing else;
* `reads_answers` — with the open answer closed, the open question has the answers that were written;
* `reads_questions` — with the open question closed, the draft has the questions that were written;
* `Reads.spaced` — blank lines and comments leave draft and world as they are, wherever they stand.
-/

namespace Questionnaire

open Action

variable {ρ : Type} {w t u : World ρ} {d d' d₁ : Draft}

/-! ### What is written -/

/-- A phrase with the literal that is meant by it. -/
structure Wording where
  phrase : String
  literal : Literal
  undivided : ',' ∉ phrase.toList

/-- The characters are those of the phrase, with blanks around them or without. -/
def Wording.IsPart (x : Wording) (part : List Char) : Prop := Text.Padded x.phrase.toList part

/-- A text with what follows from it, in phrases. -/
structure Saying where
  text : String
  wordings : List Wording := []
  trimmed : Text.trim text = text

/-- A question with its answers. -/
structure Asking extends Saying where
  answers : List Saying := []

/-- The quip that is meant: the text as it is, and the literals of the phrases in their order. -/
def Saying.quip (s : Saying) : Quip := ⟨s.text, s.wordings.map Wording.literal⟩

def Asking.question (a : Asking) : Question :=
  ⟨a.text, a.wordings.map Wording.literal, a.answers.map Saying.quip⟩

/-- The phrases of a question and of its answers, in the order they are read. -/
def Asking.allWordings (a : Asking) : List Wording := a.wordings ++ a.answers.flatMap Saying.wordings

/-- In the world `w` the phrases can be read one after the other, as the literals that are meant, and
lead to the world `t`. -/
def Resolve (xs : List Wording) (w t : World ρ) : Prop :=
  literalsOf (xs.map Wording.phrase) w = .ok (xs.map Wording.literal) t

/-! ### How it is laid out -/

/-- A line that is left out: blanks only, or a comment. -/
def Skipped (line : String) : Prop := Text.Blank line.toList ∨ ['/', '/'] <+: line.toList

/-- The line is one of the letters and a colon, and then the text, which may have blanks around it. -/
def Opens (letters : List Char) (text line : String) : Prop :=
  ∃ letter ∈ letters, ∃ rest, line.toList = letter :: ':' :: rest ∧ Text.Padded text.toList rest

/-- The line is a blank and then the phrases with commas between them. Each of them may have blanks
around it, as the first one does. -/
def Lists (xs : List Wording) (line : String) : Prop :=
  (∃ c cs, line.toList = c :: cs ∧ Text.isBlank c = true) ∧
    ∃ parts, List.Forall₂ Wording.IsPart xs parts ∧ line.toList = [','].intercalate parts

/-- The lines list the phrases. Without phrases there are no lines. -/
inductive Below : List Wording → List String → Prop
  | none : Below [] []
  | list {xs ys : List Wording} {line : String} {lines : List String} :
    Lists xs line → Below ys lines → Below (xs ++ ys) (line :: lines)

/-- Each answer opens with a line, and what follows from it is listed directly below. -/
inductive AnswerLines : List Saying → List String → Prop
  | none : AnswerLines [] []
  | answer {a : Saying} {as : List Saying} {heading : String} {below lines : List String} :
    Opens ['A', 'a'] a.text heading → Below a.wordings below → AnswerLines as lines →
      AnswerLines (a :: as) (heading :: (below ++ lines))

/-- Each question opens with a line, what follows from it is listed directly below, and then its
answers are written. -/
inductive QuestionLines : List Asking → List String → Prop
  | none : QuestionLines [] []
  | question {q : Asking} {qs : List Asking} {heading : String} {below answers lines : List String} :
    Opens ['Q', 'q'] q.text heading → Below q.wordings below → AnswerLines q.answers answers →
      QuestionLines qs lines → QuestionLines (q :: qs) (heading :: (below ++ (answers ++ lines)))

/-- The second lines are the first ones with others put anywhere among them that are left out. -/
inductive Spaced : List String → List String → Prop
  | none : Spaced [] []
  | skip {core lines : List String} {line : String} :
    Skipped line → Spaced core lines → Spaced core (line :: lines)
  | keep {core lines : List String} {line : String} :
    Spaced core lines → Spaced (line :: core) (line :: lines)

/-- The text writes the questions, line by line. No line holds a line feed, so no text or phrase that is
written does. The last line is ended by a line feed if an empty one is put after it. -/
def Writes (qs : List Asking) (text : String) : Prop :=
  ∃ core lines, QuestionLines qs core ∧ Spaced core lines ∧ (∀ line ∈ lines, '\n' ∉ line.toList) ∧
    text = "\n".intercalate lines

/-! ### Reading phrases -/

/-- Phrases are read one after the other. -/
theorem resolve_cons {x : Wording} {xs : List Wording} :
    Resolve (x :: xs) w t ↔ ∃ u, World.literal x.phrase w = .ok x.literal u ∧ Resolve xs u t := by
  unfold Resolve
  rw [List.map_cons, List.map_cons, literalsOf, bind_eq_ok]
  constructor
  · rintro ⟨l, u, hx, h⟩
    obtain ⟨ls, v, hxs, h⟩ := bind_eq_ok.1 h
    cases h
    exact ⟨u, hx, hxs⟩
  · rintro ⟨u, hx, hxs⟩
    exact ⟨_, u, hx, bind_eq_ok.2 ⟨_, t, hxs, rfl⟩⟩

/-- Phrases are read in two lots as they are in one. -/
theorem resolve_append {xs ys : List Wording} (h : Resolve (xs ++ ys) w t) :
    ∃ u, Resolve xs w u ∧ Resolve ys u t := by
  induction xs generalizing w with
  | nil => exact ⟨w, rfl, h⟩
  | cons x xs ih =>
    obtain ⟨v, hx, hrest⟩ := resolve_cons.1 h
    obtain ⟨u, hxs, hys⟩ := ih hrest
    exact ⟨u, resolve_cons.2 ⟨v, hx, hxs⟩, hys⟩

/-- A phrase that can be read is not blank. -/
theorem not_blank_of_literal {phrase : String} {l : Literal}
    (h : World.literal phrase w = .ok l t) : ¬ Text.Blank phrase.toList := by
  intro hblank
  have hmarks := Grammar.marks_blank_append hblank []
  rw [List.append_nil] at hmarks
  -- a blank text has no words, so it is no phrase
  have hread : w.grammar.read phrase = .error .emptyPhrase := by
    unfold Grammar.read
    rw [hmarks]
    rfl
  obtain ⟨v, u, hget, h⟩ := bind_eq_ok.1 h
  cases hget
  obtain ⟨p, u, hphrase, -⟩ := bind_eq_ok.1 h
  rw [hread] at hphrase
  cases hphrase

/-! ### Reading lines -/

/-- The lines can be read, and lead from one draft and world to others. -/
inductive Reads : List String → Draft → World ρ → Draft → World ρ → Prop
  | done {d : Draft} {w : World ρ} : Reads [] d w d w
  | line {line : String} {lines : List String} {d d₁ d' : Draft} {w u t : World ρ} :
    readLine d line w = .ok d₁ u → Reads lines d₁ u d' t → Reads (line :: lines) d w d' t

/-- Lines are read in two lots as they are in one. -/
theorem Reads.append {lines rest : List String} (h : Reads lines d w d₁ u)
    (hrest : Reads rest d₁ u d' t) : Reads (lines ++ rest) d w d' t := by
  induction h with
  | done => exact hrest
  | line hline _ ih => exact .line hline (ih hrest)

/-- Lines that can be read are read, with whatever number the first of them has. -/
theorem Reads.readLines {lines : List String} (h : Reads lines d w d' t) (number : Nat) :
    readLines d number lines w = .ok d' t := by
  induction h generalizing number with
  | done => rfl
  | line hline _ ih =>
    rw [readLines_cons, hline]
    exact ih (number + 1)

/-- A line that is left out changes neither the draft nor the world. -/
theorem readLine_skipped {line : String} (h : Skipped line) (d : Draft) (w : World ρ) :
    readLine d line w = .ok d w := by
  unfold readLine
  rw [ofChars_skipped h]
  rfl

/-- Lines that are left out make no difference, wherever they stand. -/
theorem Reads.spaced {core lines : List String} (hlines : Spaced core lines)
    (h : Reads core d w d' t) : Reads lines d w d' t := by
  induction hlines generalizing d w with
  | none => exact h
  | skip hline _ ih => exact .line (readLine_skipped hline d w) (ih h)
  | keep _ ih =>
    cases h with
    | line hline hrest => exact .line hline (ih hrest)

/-! ### Headings and lists -/

/-- A text without blanks around it is what is left when blanks are trimmed away. -/
theorem ofList_trimChars {text : String} {rest : List Char} (h : Text.Padded text.toList rest)
    (htext : Text.trim text = text) : String.ofList (Text.trimChars rest) = text := by
  rw [h.trimChars]
  exact htext

/-- The line of a question opens it. -/
theorem readLine_question {s : Saying} {line : String} (h : Opens ['Q', 'q'] s.text line) (d : Draft)
    (w : World ρ) : readLine d line w = .ok (d.openQuestion s.text) w := by
  obtain ⟨letter, hletter, rest, hline, hrest⟩ := h
  unfold readLine
  rw [hline, ofChars_question (by simpa using hletter), ofList_trimChars hrest s.trimmed]
  rfl

/-- The line of an answer opens it, if there is a question. -/
theorem readLine_answer {s : Saying} {line : String} (h : Opens ['A', 'a'] s.text line)
    (hd : d.openAnswer s.text = .ok d') (w : World ρ) : readLine d line w = .ok d' w := by
  obtain ⟨letter, hletter, rest, hline, hrest⟩ := h
  unfold readLine
  rw [hline, ofChars_answer (by simpa using hletter), ofList_trimChars hrest s.trimmed]
  dsimp only
  rw [hd]
  rfl

/-- No part holds a comma, as no phrase does and a comma is no blank. -/
theorem undivided_of_parts {xs : List Wording} {parts : List (List Char)}
    (h : List.Forall₂ Wording.IsPart xs parts) : ∀ part ∈ parts, ',' ∉ part := by
  induction h with
  | nil => exact nofun
  | @cons x part _ _ hpart _ ih =>
    exact List.forall_mem_cons.2 ⟨hpart.not_mem (by decide) x.undivided, ih⟩

/-- A part is read as the phrase is. -/
theorem literal_of_parts {xs : List Wording} {parts : List (List Char)}
    (h : List.Forall₂ Wording.IsPart xs parts) :
    (parts.map String.ofList).map (World.literal (ρ := ρ)) =
      (xs.map Wording.phrase).map World.literal := by
  induction h with
  | nil => rfl
  | @cons x part _ _ hpart _ ih =>
    unfold Wording.IsPart at hpart
    rw [← String.toList_ofList (l := part)] at hpart
    rw [List.map_cons, List.map_cons, List.map_cons, List.map_cons, World.literal_padded hpart, ih]

/-- The phrases of a list are found between the commas, and the blanks around them mean nothing. -/
theorem literals_of_parts {xs : List Wording} {parts : List (List Char)} {line : String}
    (hne : parts ≠ []) (hparts : List.Forall₂ Wording.IsPart xs parts)
    (hline : line.toList = [','].intercalate parts) :
    literals (ρ := ρ) line = literalsOf (xs.map Wording.phrase) := by
  refine literalsOf_congr ?_
  unfold Text.commaParts
  rw [hline, Text.splitAt_intercalate hne (undivided_of_parts hparts)]
  exact literal_of_parts hparts

/-- A line that lists phrases is not blank, since phrases are not that can be read. -/
theorem not_blank_of_parts {xs : List Wording} {part : List Char} {parts : List (List Char)}
    (h : List.Forall₂ Wording.IsPart xs (part :: parts)) (hread : Resolve xs w t) :
    ¬ Text.Blank ([','].intercalate (part :: parts)) := by
  obtain _ | ⟨hpart, -⟩ := h
  obtain ⟨u, hx, -⟩ := resolve_cons.1 hread
  exact fun hblank => not_blank_of_literal hx (hpart.of_blank hblank.of_intercalate)

/-- A list adds its literals to what is open. -/
theorem readLine_list {xs : List Wording} {line : String} (h : Lists xs line) (hread : Resolve xs w t)
    (hd : d.imply (xs.map Wording.literal) = .ok d') : readLine d line w = .ok d' t := by
  obtain ⟨⟨c, cs, hline, hc⟩, parts, hparts, hjoined⟩ := h
  -- a line with a blank in front is not empty, so it has a part
  obtain _ | ⟨part, parts⟩ := parts
  · rw [hjoined] at hline
    cases hline
  · have hblank : ¬ Text.Blank (c :: cs) := by
      rw [← hline, hjoined]
      exact not_blank_of_parts hparts hread
    unfold readLine
    rw [hline, ofChars_indented hc hblank, ← hline, String.ofList_toList]
    refine bind_eq_ok.2 ⟨xs.map Wording.literal, t, ?_, ?_⟩
    · rw [literals_of_parts (List.cons_ne_nil _ _) hparts hjoined]
      exact hread
    · rw [hd]
      rfl

/-! ### What drafts are when all is closed -/

namespace Draft

variable {ls ms : List Literal} {complete : List Question} {q : Question}

/-- No implications change nothing. -/
theorem imply_nil (h : d.imply [] = .ok d') : d' = d := by
  obtain ⟨complete, question, answer⟩ := d
  unfold imply at h
  split at h
  · cases h
    simp_all only [List.append_nil]
  · cases h
    simp_all only [List.append_nil]
  · cases h

/-- Implications are added in two lots as they are in one. -/
theorem imply_append (h : d.imply (ls ++ ms) = .ok d') :
    ∃ d₁, d.imply ls = .ok d₁ ∧ d₁.imply ms = .ok d' := by
  unfold imply at h ⊢
  split at h
  · cases h
    exact ⟨_, rfl, by simp only [List.append_assoc]⟩
  · rename_i hanswer _
    cases h
    exact ⟨_, rfl, by simp only [hanswer, List.append_assoc]⟩
  · cases h

/-- With a question open, an answer can be opened, which closes the one before. -/
theorem openAnswer_of_closeAnswer (h : d.closeAnswer = ⟨complete, some q, none⟩) (text : String) :
    d.openAnswer text = .ok ⟨complete, some q, some { text }⟩ := by
  have hopen : d.question.isNone = false := by
    cases hquestion : d.question with
    | some q' => rfl
    | none =>
      unfold closeAnswer at h
      rw [hquestion] at h
      cases h
  unfold openAnswer
  rw [hopen, h]
  rfl

/-- A question with its answer closed is put behind the complete ones. -/
theorem closeQuestion_of_closeAnswer (h : d.closeAnswer = ⟨complete, some q, none⟩) :
    d.closeQuestion = ⟨complete ++ [q], none, none⟩ := by
  unfold closeQuestion
  rw [h]

end Draft

/-! ### Reading what is written -/

/-- The lines below an owner give it the literals that are listed. -/
theorem reads_below {xs : List Wording} {lines : List String} (h : Below xs lines)
    (hread : Resolve xs w t) (hd : d.imply (xs.map Wording.literal) = .ok d') :
    Reads lines d w d' t := by
  induction h generalizing d w with
  | none =>
    cases hread
    cases Draft.imply_nil hd
    exact .done
  | list hline _ ih =>
    obtain ⟨u, hxs, hys⟩ := resolve_append hread
    rw [List.map_append] at hd
    obtain ⟨d₁, hd₁, hd'⟩ := Draft.imply_append hd
    exact .line (readLine_list hline hxs hd₁) (ih hys hd')

/-- The lines of answers give the open question these answers. -/
theorem reads_answers {as : List Saying} {lines : List String} (h : AnswerLines as lines)
    (hread : Resolve (as.flatMap Saying.wordings) w t) {complete : List Question} {q : Question}
    (hd : d.closeAnswer = ⟨complete, some q, none⟩) :
    ∃ d', Reads lines d w d' t ∧ d'.closeAnswer =
      ⟨complete, some { q with answers := q.answers ++ as.map Saying.quip }, none⟩ := by
  induction h generalizing d w q with
  | none =>
    cases hread
    exact ⟨d, .done, by rw [hd, List.map_nil, List.append_nil]⟩
  | @answer a as heading below lines hheading hbelow _ ih =>
    obtain ⟨u, hbelow_read, hrest_read⟩ := resolve_append hread
    have hopened := readLine_answer hheading (Draft.openAnswer_of_closeAnswer hd a.text) w
    have hfilled := reads_below hbelow hbelow_read
      (d := ⟨complete, some q, some { text := a.text }⟩) rfl
    -- the answer is complete, and is taken into the question when it is closed
    have hclosed : Draft.closeAnswer ⟨complete, some q, some a.quip⟩ =
      ⟨complete, some { q with answers := q.answers ++ [a.quip] }, none⟩ := rfl
    obtain ⟨d', hrest, hd'⟩ := ih hrest_read hclosed
    refine ⟨d', .line hopened (hfilled.append hrest), ?_⟩
    rw [hd', List.map_cons, List.append_assoc]
    rfl

/-- The lines of questions complete these questions. -/
theorem reads_questions {qs : List Asking} {lines : List String} (h : QuestionLines qs lines)
    (hread : Resolve (qs.flatMap Asking.allWordings) w t) {complete : List Question}
    (hd : d.closeQuestion = ⟨complete, none, none⟩) :
    ∃ d', Reads lines d w d' t ∧
      d'.closeQuestion = ⟨complete ++ qs.map Asking.question, none, none⟩ := by
  induction h generalizing d w complete with
  | none =>
    cases hread
    exact ⟨d, .done, by rw [hd, List.map_nil, List.append_nil]⟩
  | @question q qs heading below answers lines hheading hbelow hanswers _ ih =>
    obtain ⟨u, hquestion_read, hrest_read⟩ := resolve_append hread
    obtain ⟨v, hbelow_read, hanswers_read⟩ := resolve_append hquestion_read
    have hopened := readLine_question hheading d w
    unfold Draft.openQuestion at hopened
    rw [hd] at hopened
    have hfilled := reads_below hbelow hbelow_read
      (d := ⟨complete, some { text := q.text }, none⟩) rfl
    obtain ⟨d₁, hanswered, hd₁⟩ := reads_answers hanswers hanswers_read
      (d := ⟨complete, some { text := q.text, implications := q.wordings.map Wording.literal }, none⟩)
      rfl
    -- the next question closes this one, so the induction goes on with it among the complete ones
    obtain ⟨d', hrest, hd'⟩ := ih hrest_read (Draft.closeQuestion_of_closeAnswer hd₁)
    refine ⟨d', .line hopened (hfilled.append (hanswered.append hrest)), ?_⟩
    rw [hd', List.map_cons, List.append_assoc]
    rfl

/-- **Reading a written questionnaire gives it back.** However the questions are written, as long as
their phrases can be read one after the other, the text is read without an error as exactly these
questions with these answers, in order and with their texts, and what follows from a question or an
answer is the literals of its own phrases. -/
theorem Writes.reads_back {qs : List Asking} {text : String} (h : Writes qs text)
    (hread : Resolve (qs.flatMap Asking.allWordings) w t) :
    parse text w = .ok ⟨qs.map Asking.question⟩ t := by
  obtain ⟨core, lines, hcore, hspaced, hlines, rfl⟩ := h
  have hstart : Draft.closeQuestion {} = ⟨[], none, none⟩ := rfl
  obtain ⟨d, hreads, hd⟩ := reads_questions hcore hread hstart
  refine bind_eq_ok.2 ⟨d, t, ?_, ?_⟩
  · rw [readLines_lines hlines]
    exact (hreads.spaced hspaced).readLines 1
  · rw [hd]
    rfl

/-- A question with an answer without implications and one with two of them, and a question with
nothing else, written with comments, a blank line, commands in both cases, a list on two lines and
carriage returns. -/
theorem reads_back_weather :
    let lines := ["// Weather\r", "q: How is it? ", "  wet , not dry", "// More", "\train\r", "A: Fine.",
      " ", "a:Foul.\r", "\t!calm,wet", "Q: Why?", ""]
    let w := World.empty "entity" {}
    ∃ qs t, Writes qs ("\n".intercalate lines) ∧ Resolve (qs.flatMap Asking.allWordings) w t ∧
      parse ("\n".intercalate lines) w = .ok ⟨[
        ⟨"How is it?", [.pos 1, .neg 2, .pos 3], [⟨"Fine.", []⟩, ⟨"Foul.", [.neg 4, .pos 1]⟩]⟩,
        ⟨"Why?", [], []⟩]⟩ t := by
  intro lines w
  let wet : Wording := ⟨"wet", .pos 1, by decide⟩
  let notDry : Wording := ⟨"not dry", .neg 2, by decide⟩
  let rain : Wording := ⟨"rain", .pos 3, by decide⟩
  let notCalm : Wording := ⟨"!calm", .neg 4, by decide⟩
  let fine : Saying := ⟨"Fine.", [], by decide⟩
  let foul : Saying := ⟨"Foul.", [notCalm, wet], by decide⟩
  let how : Asking := ⟨⟨"How is it?", [wet, notDry, rain], by decide⟩, [fine, foul]⟩
  let why : Asking := ⟨⟨"Why?", [], by decide⟩, []⟩
  obtain ⟨hwet, hdry, hrain, hcalm, hagain⟩ : wet.IsPart "  wet ".toList ∧
      notDry.IsPart " not dry".toList ∧ rain.IsPart "\train\r".toList ∧
      notCalm.IsPart "\t!calm".toList ∧ wet.IsPart "wet".toList :=
    ⟨⟨[' ', ' '], [' '], by decide⟩, ⟨[' '], [], by decide⟩, ⟨['\t'], ['\r'], by decide⟩,
      ⟨['\t'], [], by decide⟩, ⟨[], [], by decide⟩⟩
  have hquestion_lists : Below [wet, notDry, rain] ["  wet , not dry", "\train\r"] :=
    Below.list ⟨⟨' ', _, rfl, by decide⟩, _, .cons hwet (.cons hdry .nil), by decide⟩ <|
      Below.list ⟨⟨'\t', _, rfl, by decide⟩, _, .cons hrain .nil, by decide⟩ Below.none
  have hanswer_list : Below [notCalm, wet] ["\t!calm,wet"] :=
    Below.list ⟨⟨'\t', _, rfl, by decide⟩, _, .cons hcalm (.cons hagain .nil), by decide⟩ Below.none
  obtain ⟨hhow, hfine, hfoul, hwhy⟩ : Opens ['Q', 'q'] how.text "q: How is it? " ∧
      Opens ['A', 'a'] fine.text "A: Fine." ∧ Opens ['A', 'a'] foul.text "a:Foul.\r" ∧
      Opens ['Q', 'q'] why.text "Q: Why?" :=
    ⟨⟨'q', by decide, " How is it? ".toList, by decide, [' '], [' '], by decide⟩,
      ⟨'A', by decide, " Fine.".toList, by decide, [' '], [], by decide⟩,
      ⟨'a', by decide, "Foul.\r".toList, by decide, [], ['\r'], by decide⟩,
      ⟨'Q', by decide, " Why?".toList, by decide, [' '], [], by decide⟩⟩
  have hanswers : AnswerLines [fine, foul] ["A: Fine.", "a:Foul.\r", "\t!calm,wet"] :=
    .answer hfine .none (.answer hfoul hanswer_list .none)
  have hquestions : QuestionLines [how, why] ["q: How is it? ", "  wet , not dry", "\train\r", "A: Fine.",
      "a:Foul.\r", "\t!calm,wet", "Q: Why?"] :=
    .question hhow hquestion_lists hanswers (.question hwhy .none .none .none)
  have hspaced : Spaced ["q: How is it? ", "  wet , not dry", "\train\r", "A: Fine.",
      "a:Foul.\r", "\t!calm,wet", "Q: Why?"] lines :=
    .skip (.inr (by decide)) <| .keep <| .keep <| .skip (.inr (by decide)) <| .keep <| .keep <|
      .skip (.inl (by decide)) <| .keep <| .keep <| .keep <| .skip (.inl (by decide)) .none
  have hwrites : Writes [how, why] ("\n".intercalate lines) :=
    ⟨_, lines, hquestions, hspaced, by decide, rfl⟩
  have hread : value? (literalsOf ["wet", "not dry", "rain", "!calm", "wet"]) w =
      some [.pos 1, .neg 2, .pos 3, .neg 4, .pos 1] := by decide +kernel
  exact ⟨[how, why], _, hwrites, eq_ok_of_value? hread, hwrites.reads_back (eq_ok_of_value? hread)⟩

end Questionnaire

end Storyworld
