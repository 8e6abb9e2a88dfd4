import Storyworld.Proofs.Phrase.Negation

namespace Storyworld

/-!
# The words of a phrase

A phrase is about words of the text that it is read from, so there are no blanks in them
(`Grammar.unbroken_of_read`).
-/

namespace Phrase

/-- The words that a phrase is about. The words of its pattern are not among them. -/
def words : Phrase → List String
  | .word w => [w]
  | .negation phrase => phrase.words
  | .unary _ x => [x]
  | .binary _ x y => [x, y]

/-- What the phrase is about has no blanks. -/
def Unbroken (phrase : Phrase) : Prop := ∀ w ∈ phrase.words, Text.Unbroken w

theorem words_negations (n : Nat) (phrase : Phrase) :
    (negations n phrase).words = phrase.words := by
  induction n with
  | zero => rfl
  | succ n ih => exact ih

end Phrase

namespace Pattern

variable {pattern : List (Option String)} {words filling : List String}

/-- What fills the holes of a pattern is among the words. -/
theorem subset_of_fill? (h : fill? pattern words = some filling) : filling ⊆ words := by
  fun_induction fill? pattern words generalizing filling with
  | case1 =>
    cases h
    exact List.Subset.refl _
  | case2 ps w ws ih =>
    obtain ⟨rest, hrest, rfl⟩ := Option.map_eq_some_iff.1 h
    exact List.cons_subset_cons w (ih hrest)
  | case3 ps w ws ih => exact List.subset_cons_of_subset w (ih h)
  | case4 => cases h
  | case5 => cases h

theorem words_of_phrase? {p : Pattern} {phrase : Phrase} (h : p.phrase? words = some phrase) :
    phrase.words ⊆ words := by
  unfold phrase? at h
  split at h
  · rename_i x hfill
    cases h
    exact subset_of_fill? hfill
  · rename_i x y hfill
    cases h
    exact subset_of_fill? hfill
  · cases h

end Pattern

namespace Grammar

variable {g : Grammar} {text source : String} {phrase : Phrase} {words : List String}

/-- A phrase has its words from those it was read from. -/
theorem words_of_readWords (h : g.readWords source words = .ok phrase) :
    phrase.words ⊆ words := by
  induction words generalizing phrase with
  | nil => cases h
  | cons w words ih =>
    by_cases hw : w = "not"
    · subst hw
      rw [readWords_not] at h
      cases hrest : g.readWords source words with
      | error e =>
        rw [hrest] at h
        cases h
      | ok inner =>
        rw [hrest] at h
        cases h
        have hinner : inner.words ⊆ words := ih hrest
        exact List.subset_cons_of_subset _ hinner
    · -- a word alone stands for itself, and patterns take their arguments from the words
      rcases (readWords_cons_eq_ok_iff hw).1 h with ⟨rfl, rfl⟩ | ⟨-, hfound⟩
      · exact List.Subset.refl _
      · obtain ⟨p, -, hp⟩ := List.exists_of_findSome?_eq_some hfound
        exact Pattern.words_of_phrase? hp

/-- **What a phrase is about has no blanks.** -/
theorem unbroken_of_read (h : g.read text = .ok phrase) : phrase.Unbroken := by
  unfold read at h
  dsimp only at h
  cases hwords : g.readWords (String.ofList (Text.trimChars (marks text.toList).2))
      (Text.wordsOf (Text.trimChars (marks text.toList).2)) with
  | error e =>
    rw [hwords] at h
    cases h
  | ok inner =>
    rw [hwords] at h
    cases h
    intro w hw
    -- marks of negation add no words
    rw [Phrase.words_negations] at hw
    exact Text.unbroken_of_mem_wordsOf (words_of_readWords hwords hw)

end Grammar

end Storyworld
