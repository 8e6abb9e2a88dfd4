import Storyworld.Text.Ranges

namespace Storyworld.Text

/-!
# Blanks, words and lines

The blanks are the characters with the Unicode property White_Space. Texts are cut
at blanks, at commas and at line feeds, always over the list of their characters.
-/

/-- The code points with the property White_Space. -/
def blankRanges : Ranges :=
  [(0x09, 0x0d), (0x20, 0x20), (0x85, 0x85), (0xa0, 0xa0), (0x1680, 0x1680), (0x2000, 0x200a),
    (0x2028, 0x2029), (0x202f, 0x202f), (0x205f, 0x205f), (0x3000, 0x3000)]

/-- Whether the character is a blank. -/
def isBlank (c : Char) : Bool := blankRanges.holds c

theorem isBlank_of_isWhitespace {c : Char} (h : c.isWhitespace = true) : isBlank c = true := by
  simp only [Char.isWhitespace, Bool.or_eq_true, decide_eq_true_eq] at h
  rcases h with ((rfl | rfl) | rfl) | rfl <;> decide

def trimStart (cs : List Char) : List Char := cs.dropWhile isBlank

/-- The characters without the blanks at the end. -/
def trimEnd (cs : List Char) : List Char := (cs.reverse.dropWhile isBlank).reverse

/-- The characters without the blanks at both ends. -/
def trimChars (cs : List Char) : List Char := trimEnd (trimStart cs)

def trim (s : String) : String := String.ofList (trimChars s.toList)

/-- The parts between the separators, one more than there are separators. -/
def splitAt (separator : Char → Bool) : List Char → List (List Char)
  | [] => [[]]
  | c :: cs =>
    match splitAt separator cs with
    | [] => [[c]]
    | part :: parts => if separator c then [] :: part :: parts else (c :: part) :: parts

/-- The longest runs of characters that are not blank. -/
def wordsOf (cs : List Char) : List String :=
  ((splitAt isBlank cs).filter (!·.isEmpty)).map String.ofList

/-- The words of a text, which blanks keep apart. -/
def words (s : String) : List String := wordsOf s.toList

/-- The parts of a text between commas. -/
def commaParts (s : String) : List String := (splitAt (· == ',') s.toList).map String.ofList

/-- A line that a line feed ended, without the carriage return before the line feed. -/
def withoutReturn (cs : List Char) : List Char :=
  if cs.getLast? = some '\r' then cs.dropLast else cs

/-- The lines among the parts between line feeds. What follows the last line feed is a
line only if it is not empty, and keeps all its characters. -/
def linesOf : List (List Char) → List (List Char)
  | [] => []
  | [last] => if last.isEmpty then [] else [last]
  | line :: rest => withoutReturn line :: linesOf rest

/-- The lines of a text, without what ends them. -/
def lines (s : String) : List String :=
  (linesOf (splitAt (· == '\n') s.toList)).map String.ofList

/-- What stands before and after the first place where the mark stands. -/
def splitOnce (mark : List Char) : List Char → Option (List Char × List Char)
  | [] => if mark.isEmpty then some ([], []) else none
  | c :: cs =>
    if mark.isPrefixOf (c :: cs) then some ([], (c :: cs).drop mark.length)
    else (splitOnce mark cs).map fun (before, after) => (c :: before, after)

/-- What follows the opening, without the blanks around it, if the characters begin with the
opening. Letters of the Latin alphabet match in either case. -/
def afterOpening? (opening : String) (cs : List Char) : Option (List Char) :=
  let n := opening.toList.length
  if (cs.take n).map Char.toLower = opening.toList.map Char.toLower then
    some (trimChars (cs.drop n))
  else none

/-- The number that decimal digits write, with a plus sign allowed in front, if it is at
most `greatest`. -/
def readNat? (greatest : Nat) (s : String) : Option Nat :=
  let digits := match s.toList with
    | '+' :: cs => cs
    | cs => cs
  if digits.isEmpty || !digits.all Char.isDigit then none
  else
    let n := digits.foldl (fun n c => 10 * n + (c.toNat - '0'.toNat)) 0
    if n ≤ greatest then some n else none

/-! ### Cutting and joining -/

theorem splitAt_ne_nil (separator : Char → Bool) (cs : List Char) :
    splitAt separator cs ≠ [] := by
  induction cs with
  | nil => simp [splitAt]
  | cons c cs ih =>
    cases h : splitAt separator cs with
    | nil => exact absurd h ih
    | cons part parts => unfold splitAt; rw [h]; dsimp only; split <;> simp

/-- No part holds a separator. -/
theorem not_separator_of_mem_splitAt {separator : Char → Bool} {cs part : List Char}
    (hpart : part ∈ splitAt separator cs) {c : Char} (hc : c ∈ part) : separator c = false := by
  induction cs generalizing part with
  | nil =>
    simp only [splitAt, List.mem_singleton] at hpart
    subst hpart
    cases hc
  | cons d cs ih =>
    cases h : splitAt separator cs with
    | nil => exact absurd h (splitAt_ne_nil separator cs)
    | cons q qs =>
      rw [h] at ih
      unfold splitAt at hpart
      rw [h] at hpart
      by_cases hd : separator d = true
      · simp only [hd, if_true, List.mem_cons] at hpart
        rcases hpart with rfl | hpart
        · cases hc
        · exact ih (List.mem_cons.2 hpart) hc
      · simp only [hd, Bool.false_eq_true, if_false, List.mem_cons] at hpart
        rcases hpart with rfl | hpart
        · rcases List.mem_cons.1 hc with rfl | hc
          · simpa using hd
          · exact ih List.mem_cons_self hc
        · exact ih (List.mem_cons_of_mem _ hpart) hc

end Storyworld.Text
