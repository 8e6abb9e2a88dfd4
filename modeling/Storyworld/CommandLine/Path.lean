import Storyworld.Text.Extending
import Storyworld.Text.Hidden

namespace Storyworld.CommandLine

/-!
# File names and their extensions

The extension of a path is what follows the last point in the name of the file, unless
that point is the first character of the name. The name of the file is the last part
between slashes that is not a single point; two points are no name.

A name is shown between double quotes, so that every character of it can be told: what is
hidden, or would be drawn upon the quote, is shown by its code point.
-/

def parts (path : String) : List String :=
  (Text.splitAt (· == '/') path.toList).map String.ofList

def fileName? (path : String) : Option String :=
  ((parts path).filter fun part => part != "" && part != ".").getLast?.filter (· != "..")

def extension? (path : String) : Option String :=
  match fileName? path with
  | none => none
  | some name =>
    let after := name.toList.reverse.takeWhile (· != '.')
    if name.length ≤ after.length + 1 then none else some (String.ofList after.reverse)

/-- A character of a name between double quotes. An apostrophe ends nothing there, and
stands for itself. -/
def quoteChar (c : Char) : String :=
  if c.toNat = 0 then "\\0"
  else if c = '\t' then "\\t"
  else if c = '\r' then "\\r"
  else if c = '\n' then "\\n"
  else if c = '"' ∨ c = '\\' then String.ofList ['\\', c]
  else if Text.isHidden c || Text.isExtending c then
    "\\u\x7b" ++ String.ofList (Nat.toDigits 16 c.toNat) ++ "\x7d"
  else String.singleton c

/-- What ASCII prints stands for itself, but for the double quote and the backslash. -/
theorem quoteChar_of_ascii {c : Char} (first : ' '.toNat ≤ c.toNat) (last : c.toNat ≤ '~'.toNat)
    (quote : c ≠ '"') (backslash : c ≠ '\\') : quoteChar c = String.singleton c := by
  have apart : ∀ d : Char, d.toNat < ' '.toNat → c ≠ d := by
    rintro d h rfl
    exact absurd first (Nat.not_le.2 h)
  have zero : c.toNat ≠ 0 := fun h => absurd first (by rw [h]; decide)
  simp [quoteChar, zero, apart '\t' (by decide), apart '\r' (by decide), apart '\n' (by decide),
    quote, backslash, Text.isHidden_eq_false_of_ascii first last,
    Text.isExtending_eq_false_of_ascii (Nat.le_trans last (by decide))]

/-- A name between quotes, with what cannot be seen or would end it escaped. -/
def quoted (name : String) : String :=
  "\"" ++ String.join (name.toList.map quoteChar) ++ "\""

end Storyworld.CommandLine
