import Storyworld.Knowledge.Base
import Storyworld.Text.Blank

namespace Storyworld

/-!
# Phrases

A phrase is a word, a predicate applied to words, or a negation. Phrases are read by
the patterns of a grammar: each word of a pattern stands for itself and each hole for
an argument of the predicate, so a pattern has as many holes as its predicate takes
arguments. The first pattern that fits all words of a phrase is taken.

Exclamation marks in front negate what follows, and so does the word `not` where a
word is expected; a mark that comes after such a word belongs to the word it touches.
-/

/-- A phrase whose predicates have been told from their arguments. -/
inductive Phrase where
  | word (w : String)
  | negation (phrase : Phrase)
  | unary (predicate : Nat) (argument : String)
  | binary (predicate : Nat) (left right : String)
  deriving DecidableEq, Repr, Inhabited

namespace Phrase

/-- The phrase after that many negations. -/
def negations : Nat → Phrase → Phrase
  | 0, p => p
  | n + 1, p => .negation (negations n p)

end Phrase

/-- A pattern of words for a predicate, `none` being a hole. -/
structure Pattern where
  words : List (Option String)
  predicate : PredicateId
  deriving DecidableEq, Repr, Inhabited

namespace Pattern

/-- The word that marks a hole. -/
def hole : String := "_"

def holes (p : Pattern) : Nat := p.words.count none

/-- The words that fill the holes, if the words are as many as the pattern's and agree with
those that are not holes. -/
def fill? : List (Option String) → List String → Option (List String)
  | [], [] => some []
  | none :: ps, w :: ws => (fill? ps ws).map (w :: ·)
  | some e :: ps, w :: ws => if e = w then fill? ps ws else none
  | _, _ => none

/-- The phrase that the words make, if the pattern fits them. -/
def phrase? (p : Pattern) (words : List String) : Option Phrase :=
  match fill? p.words words with
  | some [a] => some (.unary p.predicate a)
  | some [l, r] => some (.binary p.predicate l r)
  | _ => none

end Pattern

/-- Patterns in the order they are tried. -/
structure Grammar where
  patterns : List Pattern := []
  deriving DecidableEq, Repr, Inhabited

namespace Grammar

/-- Adds a pattern as the last one, if it has as many holes as the predicate takes arguments. -/
def add (g : Grammar) (kb : KnowledgeBase) (p : PredicateId) (text : String) :
    Except Error Grammar :=
  let words := (Text.words text).map fun w => if w = Pattern.hole then none else some w
  let pattern : Pattern := ⟨words, p⟩
  let { name, signature, .. } := kb.predicate p
  if pattern.holes = signature.arity then .ok ⟨g.patterns ++ [pattern]⟩
  else .error (.arityMismatch name signature.arity pattern.holes)

/-- The exclamation marks in front, by number, and what follows them and the blanks among them. -/
def marks : List Char → Nat × List Char
  | [] => (0, [])
  | c :: cs =>
    if Text.isBlank c then marks cs
    else if c = '!' then
      let (n, rest) := marks cs
      (n + 1, rest)
    else (0, c :: cs)

/-- Reads a phrase from its words. The source is what an error quotes. -/
def readWords (g : Grammar) (source : String) : List String → Except Error Phrase
  | [] => .error .emptyPhrase
  | "not" :: words => (g.readWords source words).map .negation
  | [w] => .ok (.word w)
  | words =>
    match g.patterns.findSome? fun p => p.phrase? words with
    | some phrase => .ok phrase
    | none => .error (.invalidSyntax source)

/-- Reads a phrase. -/
def read (g : Grammar) (text : String) : Except Error Phrase :=
  let (n, rest) := marks text.toList
  let source := Text.trimChars rest
  (g.readWords (String.ofList source) (Text.wordsOf source)).map (Phrase.negations n)

end Grammar

end Storyworld
