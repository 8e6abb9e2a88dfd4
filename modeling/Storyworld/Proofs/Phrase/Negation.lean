import Mathlib.Data.List.DropRight
import Storyworld.Phrase.Grammar
import Storyworld.Proofs.Text.Padding

namespace Storyworld

/-!
# Marks of negation

An exclamation mark in front negates whatever phrase follows it (`Grammar.read_mark`). The word
`not` negates the words that follow it as they stand (`Grammar.read_not`), and these are words of a
phrase in which no exclamation marks are looked for any more. So the two say the same exactly of a
phrase that does not begin with an exclamation mark (`Grammar.read_marked`), and marks before words
compose (`Grammar.read_marks_nots`).

The crux is that words which do not begin with `not` are never read as a negation
(`Grammar.ne_negation_of_readWords`), while a phrase behind an exclamation mark always is one.
-/

namespace Grammar

variable {g : Grammar} {text source source' : String} {phrase : Phrase} {words : List String}
  {cs : List Char}

/-! ### Words -/

/-- The word `not` negates what the words after it are read as. -/
@[simp] theorem readWords_not (g : Grammar) (source : String) (words : List String) :
    g.readWords source ("not" :: words) = (g.readWords source words).map .negation := by
  rw [readWords]

/-- Words that do not begin with `not` are one word, or a pattern fits them. -/
theorem readWords_cons_eq_ok_iff {w : String} (hw : w ≠ "not") :
    g.readWords source (w :: words) = .ok phrase ↔
      words = [] ∧ phrase = .word w ∨
        words ≠ [] ∧ (g.patterns.findSome? fun p => p.phrase? (w :: words)) = some phrase := by
  cases words with
  | nil =>
    rw [readWords]
    · simp [eq_comm]
    · exact hw
  | cons v words =>
    rw [readWords]
    · split
      · rename_i h
        simp [h]
      · rename_i h
        simp [h]
    all_goals simp [hw]

/-- The source is for the error only. -/
theorem readWords_eq_ok (h : g.readWords source words = .ok phrase) (source' : String) :
    g.readWords source' words = .ok phrase := by
  induction words generalizing phrase with
  | nil => cases h
  | cons w words ih =>
    by_cases hw : w = "not"
    · subst hw
      rw [readWords_not] at h ⊢
      cases hrest : g.readWords source words with
      | error e =>
        rw [hrest] at h
        cases h
      | ok inner =>
        rw [hrest] at h
        rw [ih hrest]
        exact h
    · -- the source appears in errors only
      rw [readWords_cons_eq_ok_iff hw] at h ⊢
      exact h

theorem ne_negation_of_phrase? {p : Pattern} (h : p.phrase? words = some phrase) (inner : Phrase) :
    phrase ≠ .negation inner := by
  unfold Pattern.phrase? at h
  split at h
  · cases h
    nofun
  · cases h
    nofun
  · cases h

/-- Words that do not begin with `not` are not read as a negation. -/
theorem ne_negation_of_readWords {w : String} (hw : w ≠ "not")
    (h : g.readWords source (w :: words) = .ok phrase) (inner : Phrase) :
    phrase ≠ .negation inner := by
  rcases (readWords_cons_eq_ok_iff hw).1 h with ⟨-, rfl⟩ | ⟨-, hfound⟩
  · nofun
  · obtain ⟨p, -, hp⟩ := List.exists_of_findSome?_eq_some hfound
    exact ne_negation_of_phrase? hp inner

/-! ### Marks -/

/-- A mark in front is counted and taken away. -/
theorem marks_mark (cs : List Char) : marks ('!' :: cs) = ((marks cs).1 + 1, (marks cs).2) := by
  rw [marks, if_neg (by decide), if_pos rfl]

/-- A phrase that does not begin with an exclamation mark has none in front. -/
theorem marks_of_head? (h : (Text.trimStart cs).head? ≠ some '!') :
    marks cs = (0, Text.trimStart cs) := by
  induction cs with
  | nil => rfl
  | cons c cs ih =>
    unfold Text.trimStart at h ih ⊢
    rw [marks]
    by_cases hc : Text.isBlank c = true
    · rw [List.dropWhile_cons_of_pos hc] at h ⊢
      rw [if_pos hc]
      exact ih h
    · rw [List.dropWhile_cons_of_neg hc] at h ⊢
      rw [if_neg hc, if_neg fun he => h (by rw [he]; rfl)]

/-- A phrase that begins with an exclamation mark has at least one in front. -/
theorem marks_pos (h : (Text.trimStart cs).head? = some '!') : 0 < (marks cs).1 := by
  induction cs with
  | nil => cases h
  | cons c cs ih =>
    unfold Text.trimStart at h ih
    rw [marks]
    by_cases hc : Text.isBlank c = true
    · rw [List.dropWhile_cons_of_pos hc] at h
      rw [if_pos hc]
      exact ih h
    · rw [List.dropWhile_cons_of_neg hc] at h
      rw [if_neg hc, if_pos (Option.some.inj h)]
      exact Nat.succ_pos _

/-! ### Phrases behind a mark -/

/-- **An exclamation mark negates the phrase behind it**, also where that cannot be read. -/
theorem read_mark (g : Grammar) (text : String) :
    g.read ("!" ++ text) = (g.read text).map .negation := by
  unfold read
  rw [String.toList_append, show "!".toList ++ text.toList = '!' :: text.toList from rfl, marks_mark]
  dsimp only
  cases g.readWords (String.ofList (Text.trimChars (marks text.toList).2))
    (Text.wordsOf (Text.trimChars (marks text.toList).2)) <;> rfl

/-- A phrase without an exclamation mark in front is read from its words. -/
theorem read_of_head? (h : (Text.trimStart text.toList).head? ≠ some '!') :
    g.read text = g.readWords (Text.trim text) (Text.words text) := by
  have htrim : Text.trimChars (Text.trimStart text.toList) = Text.trimChars text.toList :=
    congrArg Text.trimEnd (List.dropWhile_idempotent _ _)
  unfold read Text.trim Text.words
  rw [marks_of_head? h]
  dsimp only
  rw [htrim, ← (Text.padded_trimChars text.toList).wordsOf]
  cases g.readWords (String.ofList (Text.trimChars text.toList)) (Text.wordsOf text.toList) <;> rfl

theorem head?_trimStart_not (text : String) :
    (Text.trimStart ("not " ++ text).toList).head? ≠ some '!' := by
  have hhead : Text.trimStart ("not " ++ text).toList = ("not " ++ text).toList := by
    rw [String.toList_append]
    exact List.dropWhile_cons_of_neg (by decide)
  rw [hhead, String.toList_append]
  exact fun h => absurd (Option.some.inj h) (by decide)

/-- **The word `not` negates the words behind it.** -/
theorem read_not (g : Grammar) (text : String) :
    g.read ("not " ++ text) =
      (g.readWords (Text.trim ("not " ++ text)) (Text.words text)).map .negation := by
  have hwords : Text.words ("not " ++ text) = "not" :: Text.words text := by
    unfold Text.words
    rw [String.toList_append]
    exact Text.wordsOf_append_blank_cons (by decide) "not".toList text.toList
  rw [read_of_head? (head?_trimStart_not text), hwords, readWords_not]

/-- A phrase behind an exclamation mark is read as a negation. -/
theorem exists_negation_of_head? (hhead : (Text.trimStart text.toList).head? = some '!')
    (h : g.read text = .ok phrase) : ∃ inner, phrase = .negation inner := by
  unfold read at h
  dsimp only at h
  -- there is at least one mark, and each mark is one negation
  obtain ⟨n, hn⟩ := Nat.exists_eq_succ_of_ne_zero (Nat.ne_of_gt (marks_pos hhead))
  rw [hn] at h
  cases hrest : g.readWords (String.ofList (Text.trimChars (marks text.toList).2))
      (Text.wordsOf (Text.trimChars (marks text.toList).2)) with
  | error e =>
    rw [hrest] at h
    cases h
  | ok inner =>
    rw [hrest] at h
    cases h
    exact ⟨_, rfl⟩

/-- Words of which the first begins with an exclamation mark are not read as a negation. -/
theorem ne_negation_of_head? (hhead : (Text.trimStart text.toList).head? = some '!')
    (h : g.readWords source (Text.words text) = .ok phrase) (inner : Phrase) :
    phrase ≠ .negation inner := by
  obtain ⟨rest, hrest⟩ : ∃ rest, Text.trimStart text.toList = '!' :: rest :=
    List.head?_eq_some_iff.1 hhead
  have hsplit : text.toList = text.toList.takeWhile Text.isBlank ++ '!' :: rest := by
    rw [← hrest]
    exact List.takeWhile_append_dropWhile.symm
  have hblank : Text.Blank (text.toList.takeWhile Text.isBlank) :=
    fun c hc => List.mem_takeWhile_imp hc
  obtain ⟨w, ws, hwords⟩ := Text.wordsOf_cons (c := '!') (by decide) rest
  -- the mark sticks to the first word, which is therefore not `not`
  have hall : Text.words text = String.ofList ('!' :: w) :: ws := by
    unfold Text.words
    rw [hsplit, hblank.wordsOf_append, hwords]
  rw [hall] at h
  refine ne_negation_of_readWords (fun he => ?_) h inner
  have hchars := congrArg String.toList he
  rw [String.toList_ofList] at hchars
  cases hchars

/-- The word `not` negates a phrase exactly if the phrase does not begin with an exclamation
mark. -/
theorem read_not_eq_ok_iff (h : g.read text = .ok phrase) :
    g.read ("not " ++ text) = .ok phrase.negation ↔
      (Text.trimStart text.toList).head? ≠ some '!' := by
  rw [read_not]
  constructor
  · intro hnot hhead
    obtain ⟨inner, rfl⟩ := exists_negation_of_head? hhead h
    cases hwords : g.readWords (Text.trim ("not " ++ text)) (Text.words text) with
    | error e =>
      rw [hwords] at hnot
      cases hnot
    | ok p =>
      rw [hwords] at hnot
      cases hnot
      -- behind the mark there is a negation, but the words with the mark in them are none
      exact ne_negation_of_head? hhead hwords inner rfl
  · intro hhead
    rw [read_of_head? hhead] at h
    -- without a mark the words are all that is read
    rw [readWords_eq_ok h]
    rfl

/-- Each `not` in front of a phrase without a mark is one negation. -/
theorem read_nots (h : g.read text = .ok phrase)
    (hhead : (Text.trimStart text.toList).head? ≠ some '!') (n : Nat) :
    g.read (String.join (List.replicate n "not ") ++ text) = .ok (Phrase.negations n phrase) := by
  have run : g.read (String.join (List.replicate n "not ") ++ text) =
        .ok (Phrase.negations n phrase) ∧
      (Text.trimStart (String.join (List.replicate n "not ") ++ text).toList).head? ≠ some '!' := by
    induction n with
    | zero => exact ⟨by simpa [Phrase.negations] using h, by simpa using hhead⟩
    | succ n ih =>
      rw [List.replicate_succ, String.join_cons, String.append_assoc]
      exact ⟨(read_not_eq_ok_iff ih.1).2 ih.2, head?_trimStart_not _⟩
  exact run.1

/-- **Marks compose, exclamation marks first.** Exclamation marks and then words `not` in front of a
phrase negate it as often as they are, if the phrase itself does not begin with an exclamation mark
or there is no word `not`. -/
theorem read_marks_nots (h : g.read text = .ok phrase) (m n : Nat)
    (hfirst : n = 0 ∨ (Text.trimStart text.toList).head? ≠ some '!') :
    g.read (String.join (List.replicate m "!") ++ (String.join (List.replicate n "not ") ++ text)) =
      .ok (Phrase.negations (m + n) phrase) := by
  induction m with
  | zero =>
    rw [Nat.zero_add]
    rcases hfirst with rfl | hhead
    · simpa [Phrase.negations] using h
    · simpa using read_nots h hhead n
  | succ m ih =>
    rw [List.replicate_succ, String.join_cons, String.append_assoc, read_mark, ih, Nat.succ_add]
    rfl

/-- **What a mark in front of a phrase says.** For every grammar and every text that is read: an
exclamation mark in front of it negates it, whatever marks it begins with. The word `not` in front
of it negates what its words say as they stand, and that is the negation of the phrase exactly if
the text does not begin with an exclamation mark, blanks apart. -/
theorem read_marked (h : g.read text = .ok phrase) :
    g.read ("!" ++ text) = .ok phrase.negation ∧
      g.read ("not " ++ text) =
        (g.readWords (Text.trim ("not " ++ text)) (Text.words text)).map .negation ∧
      (g.read ("not " ++ text) = .ok phrase.negation ↔
        (Text.trimStart text.toList).head? ≠ some '!') := by
  refine ⟨?_, read_not g text, read_not_eq_ok_iff h⟩
  rw [read_mark, h]
  rfl

/-- A phrase of a predicate that begins with the word `not`: either mark in front negates it once
more. With an exclamation mark in front of that, only another exclamation mark does. -/
theorem read_marked_dead :
    let g : Grammar := ⟨[⟨[none, some "is", some "dead"], 0⟩]⟩
    let phrase := Phrase.negation (.unary 0 "mother")
    g.read " not mother is dead" = .ok phrase ∧
      g.read "! not mother is dead" = .ok phrase.negation ∧
      g.read "not  not mother is dead" = .ok phrase.negation ∧
      g.read "!! not mother is dead" = .ok phrase.negation.negation ∧
      g.read "not ! not mother is dead" ≠ .ok phrase.negation.negation := by
  intro g phrase
  have hread : g.read " not mother is dead" = .ok phrase := by decide +kernel
  obtain ⟨hmark, -, hnot⟩ := read_marked hread
  obtain ⟨hmarks, -, hnots⟩ := read_marked hmark
  exact ⟨hread, hmark, hnot.2 (by decide +kernel), hmarks,
    fun h => absurd (hnots.1 h) (by decide +kernel)⟩

/-- The word `not` before an exclamation mark negates a word that begins with the mark, and not the
negation that the rest of the phrase is on its own. -/
theorem not_mark_brave :
    let g : Grammar := {}
    g.read "!brave" = .ok (.negation (.word "brave")) ∧
      g.read ("not " ++ "!brave") = .ok (.negation (.word "!brave")) := by
  decide +kernel

end Grammar

end Storyworld
