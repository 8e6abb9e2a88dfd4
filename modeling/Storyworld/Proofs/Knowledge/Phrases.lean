import Storyworld.Phrase.Meaning
import Storyworld.Proofs.Knowledge.Quantification

namespace Storyworld

/-!
# What phrases lead to

A phrase comes down to words, calls and existentials, and an existential to steps that open it and
assert rules. `Requests` has one law for each such step and `Carried` one for words and calls, and from them
follows that an invariant is maintained by whole existentials (`Requests.existential`) and phrases
(`Carried.literalOf`). Calls are left as they are, since an invariant of calls is an `Upkeep`.

The first invariant that is carried like this is `Kept`: what predicates remember is well typed, and
what was remembered before is remembered still.
-/

/-! ### Phrases of a grammar -/

/-- The predicates of the phrase are among the first `n`. -/
def Phrase.Below (n : Nat) : Phrase → Prop
  | .word _ => True
  | .negation phrase => phrase.Below n
  | .unary p _ | .binary p _ _ => p < n

instance Phrase.decidableBelow (n : Nat) : (phrase : Phrase) → Decidable (phrase.Below n)
  | .word _ => isTrue trivial
  | .negation phrase => decidableBelow n phrase
  | .unary p _ | .binary p _ _ => inferInstanceAs (Decidable (p < n))

/-- The predicates of the patterns are among the first `n`. -/
def Grammar.Below (n : Nat) (g : Grammar) : Prop := ∀ pattern ∈ g.patterns, pattern.predicate < n

/-- Negations change no predicate of a phrase. -/
theorem Phrase.below_negations {n : Nat} {phrase : Phrase} (h : phrase.Below n) (k : Nat) :
    (Phrase.negations k phrase).Below n := by
  induction k with
  | zero => exact h
  | succ k ih => exact ih

/-- What a pattern makes of words is about its own predicate. -/
theorem Pattern.below_of_phrase? {n : Nat} {pattern : Pattern} {words : List String}
    {phrase : Phrase} (hpattern : pattern.predicate < n)
    (h : pattern.phrase? words = some phrase) : phrase.Below n := by
  unfold Pattern.phrase? at h
  split at h
  · cases h
    exact hpattern
  · cases h
    exact hpattern
  · cases h

namespace Grammar

variable {g : Grammar} {n : Nat} {phrase : Phrase}

/-- A pattern is added for one of these predicates, or it is refused. -/
theorem Below.add (hg : g.Below n) {kb : KnowledgeBase} {p : PredicateId} (hp : p < n)
    (text : String) : ((g.add kb p text).toOption.getD g).Below n := by
  unfold Grammar.add
  dsimp only
  split
  · intro pattern hpattern
    rcases List.mem_append.1 hpattern with hpattern | hpattern
    · exact hg pattern hpattern
    · rw [List.mem_singleton.1 hpattern]
      exact hp
  · exact hg

/-- A phrase that is read has predicates of the patterns only. -/
theorem Below.readWords (hg : g.Below n) {source : String} {words : List String}
    (h : g.readWords source words = .ok phrase) : phrase.Below n := by
  induction words generalizing phrase with
  | nil => cases h
  | cons w words ih =>
    unfold Grammar.readWords at h
    split at h
    · cases h
    · -- a negation is one word in front of the rest
      rename_i rest heq
      obtain ⟨rfl, rfl⟩ := List.cons.inj heq
      cases hrest : g.readWords source words with
      | error e =>
        rw [hrest] at h
        cases h
      | ok inner =>
        rw [hrest] at h
        cases h
        show inner.Below n
        exact ih hrest
    · cases h
      trivial
    · split at h
      · -- the first pattern that the words match
        rename_i found
        cases h
        obtain ⟨pattern, hpattern, hphrase⟩ := List.exists_of_findSome?_eq_some found
        exact Pattern.below_of_phrase? (hg pattern hpattern) hphrase
      · cases h

/-- What is read from a text is about predicates that the grammar knows. -/
theorem Below.read (hg : g.Below n) {text : String} (h : g.read text = .ok phrase) :
    phrase.Below n := by
  unfold Grammar.read at h
  dsimp only at h
  cases hwords : g.readWords (String.ofList (Text.trimChars (marks text.toList).2))
      (Text.wordsOf (Text.trimChars (marks text.toList).2)) with
  | error e =>
    rw [hwords] at h
    cases h
  | ok inner =>
    rw [hwords] at h
    cases h
    exact Phrase.below_negations (hg.readWords hwords) _

end Grammar

namespace Grounding

open Action KnowledgeBase

variable {ρ : Type} {kb : KnowledgeBase} {P Q : Grounding ρ → Prop} {p s : Nat}

/-! ### An interface of invariants -/

/-- The invariant `P` is maintained by whatever existentials come down to, where predicates and
sorts have the numbers they have in `kb`. `Q` is left of it where something is refused. -/
structure Requests (kb : KnowledgeBase) (P Q : Grounding ρ → Prop) : Prop where
  refused : ∀ g, P g → Q g
  orderly : ∀ g, P g → g.base.Orderly
  numbers : ∀ g, P g → SameNumbers kb g.base
  /-- An existential is opened of a unary predicate only. -/
  opens : ∀ p s, p < kb.predicates.size → s < kb.taxonomy.size →
    ∀ g, P g → (g.base.predicate p).signature.arity = 1 →
      After (openExistential p s) g (fun _ t => P t) fun _ t => Q t
  asserts : ∀ c, Maintains P Q (onSolver (Solver.assert c))

/-- The invariant `P` is maintained by whatever phrases and questionnaires come down to. -/
structure Carried (kb : KnowledgeBase) (P Q : Grounding ρ → Prop) : Prop
    extends Requests kb P Q where
  existence : ∀ p, kb.existence = some p → p < kb.predicates.size
  words : ∀ w, Maintains P Q (proposition (.word w))
  calls : ∀ p args, p < kb.predicates.size → Maintains P Q (call p args)
  bounds : ∀ bound ls, Maintains P Q (onSolver (Solver.addAtMost bound ls))

namespace Requests

variable {descend : Atom → EStateM Error (Grounding ρ) Unit}

/-- An existential is opened and supported, then its subsorts are descended into. -/
theorem existentialFrom (h : Requests kb P Q) (hdescend : ∀ head, Maintains P Q (descend head))
    (hp : p < kb.predicates.size) (hs : s < kb.taxonomy.size) :
    Maintains P Q (Grounding.existentialFrom descend p s) := by
  intro g hg
  refine after_bind.2 (after_get.2 ?_)
  dsimp only
  split
  · exact h.refused g hg
  · -- what has been requested is looked up, otherwise it is opened and gets its rules
    rename_i hunary
    split
    · exact hg
    · refine after_bind.2 ((h.opens p s hp hs g hg (Decidable.not_not.1 hunary)).imp_done
        fun head t ht => ?_)
      refine ((hdescend head).bind fun _ => maintains_get fun u hu => ?_) t ht
      exact (maintains_forM fun _ _ => h.asserts _).bind fun _ => maintains_pure head

/-- The existentials over the subsorts are requested on the way. -/
theorem existentialWithin (h : Requests kb P Q) (hp : p < kb.predicates.size)
    (hs : s < kb.taxonomy.size) (depth : Nat) :
    Maintains P Q (Grounding.existentialWithin depth p s) := by
  induction depth generalizing s with
  | zero => exact h.existentialFrom (fun _ => maintains_pure _) hp hs
  | succ depth ih =>
    refine h.existentialFrom (fun head => maintains_get fun g hg => ?_) hp hs
    refine maintains_forM fun c hc => ?_
    have hparent := ((h.orderly g hg).tree.mem_subsorts s c).1 hc
    have hlt : c < kb.taxonomy.size :=
      (h.numbers g hg).sorts ▸ Taxonomy.size_le_of_parent? hparent
    exact (ih hlt).bind fun _ => h.asserts _

/-- Existentials maintain the invariant. -/
theorem existential (h : Requests kb P Q) (hp : p < kb.predicates.size)
    (hs : s < kb.taxonomy.size) : Maintains P Q (Grounding.existential p s) :=
  maintains_get fun _ _ => h.existentialWithin hp hs _

end Requests

namespace Carried

/-- A lone word is a call or an existential of the existence predicate, or stands for itself. -/
theorem wordAtom (h : Carried kb P Q) (w : String) : Maintains P Q (Grounding.wordAtom w) := by
  refine maintains_get fun g hg => ?_
  dsimp only
  split
  · exact h.words w
  · -- where a predicate says that entities exist, a word may name an entity or a sort
    rename_i e he
    have hlt := h.existence e ((h.numbers g hg).existence ▸ he)
    split
    · exact h.calls e _ hlt
    · split
      · rename_i s hs
        have hs : s < kb.taxonomy.size := (h.numbers g hg).sorts ▸ Taxonomy.lt_of_named? hs
        exact h.existential hlt hs
      · exact h.words w

theorem unaryAtom (h : Carried kb P Q) (hp : p < kb.predicates.size) (argument : String) :
    Maintains P Q (Grounding.unaryAtom p argument) := by
  refine maintains_get fun g hg => ?_
  dsimp only
  split
  · rename_i s _ hs
    have hs : s < kb.taxonomy.size := (h.numbers g hg).sorts ▸ Taxonomy.lt_of_named? hs
    exact h.existential hp hs
  · exact h.calls p _ hp

/-- **What calls, existentials and words maintain, phrases do.** -/
theorem literalOf (h : Carried kb P Q) {phrase : Phrase}
    (hphrase : phrase.Below kb.predicates.size) : Maintains P Q (Grounding.literalOf phrase) := by
  induction phrase with
  | word w => exact (h.wordAtom w).bind fun _ => maintains_pure _
  | negation phrase ih => exact (ih hphrase).bind fun _ => maintains_pure _
  | unary p argument => exact (h.unaryAtom hphrase argument).bind fun _ => maintains_pure _
  | binary p left right => exact (h.calls p _ hphrase).bind fun _ => maintains_pure _

end Carried

/-! ### What predicates remember -/

/-- What predicates remember is well typed, and what there was in `kb` is there still. -/
def Kept (kb : KnowledgeBase) (g : Grounding ρ) : Prop := Typed g ∧ Keeps kb [] g.base

/-- What is well typed has kept all that its own knowledge base has. -/
theorem Typed.kept {g : Grounding ρ} (h : Typed g) : Kept g.base g := ⟨h, Keeps.refl _⟩

/-- One more existential changes no domain. -/
theorem Keeps.request {kb' : KnowledgeBase} (h : Keeps kb [] kb') (e : Atom) :
    Keeps kb [] (kb'.request p s e) where
  toSameNumbers := h.toSameNumbers.trans ⟨Array.size_modify, rfl, rfl⟩
  atoms q args a ha := (atom?_request kb' p s e q args).trans (h.atoms q args a ha)
  apart := h.apart

theorem maintains_kept_onSolver {α : Type} {act : EStateM Error (Solver ρ) α}
    (hact : ∀ s : Solver ρ, s.Backed → Preserves (Solver.Spares (fun _ => False) s) act) :
    Maintains (Kept kb) (Kept kb) (onSolver act) := by
  rintro g ⟨h, hkeeps⟩
  exact (preserves_typed_onSolver hact g ⟨h, rfl⟩).mono
    (fun _ t ht => ⟨ht.1, ht.2 ▸ hkeeps⟩) fun _ t ht => ⟨ht.1, ht.2 ▸ hkeeps⟩

theorem maintains_kept_word (w : String) :
    Maintains (Kept (ρ := ρ) kb) (Kept kb) (proposition (.word w)) :=
  maintains_kept_onSolver fun _ hs =>
    Solver.preserves_spares hs fun _ ht => after_modifyGet.2 (Solver.spares_freshAtom ht (some _))

theorem maintains_kept_assert (c : Constraint) :
    Maintains (Kept (ρ := ρ) kb) (Kept kb) (onSolver (Solver.assert c)) :=
  maintains_kept_onSolver fun _ hs => Solver.preserves_spares_assert hs (fun _ => not_false) c

theorem maintains_kept_addAtMost (bound : Nat) (ls : List Literal) :
    Maintains (Kept (ρ := ρ) kb) (Kept kb) (onSolver (Solver.addAtMost bound ls)) :=
  maintains_kept_onSolver fun _ hs => Solver.preserves_spares_addAtMost hs bound ls

theorem maintains_kept_openExistential (hp : p < kb.predicates.size) (hs : s < kb.taxonomy.size) :
    Maintains (Kept kb) (Kept kb) (openExistential (ρ := ρ) p s) := by
  rintro g ⟨h, hkeeps⟩
  refine (after_openExistential_named h.backed p s fun _ => False).imp fun e t ht => ?_
  obtain ⟨hbase, hspares, hnamed, -, -⟩ := ht
  obtain ⟨base, solver⟩ := t
  obtain rfl : base = g.base.request p s e := hbase
  have h' : Typed { g with solver } := h.spares hspares
  exact ⟨h'.request (hkeeps.size ▸ hp) (hkeeps.sorts ▸ hs) hnamed, hkeeps.request e⟩

/-- **Whatever phrases lead to, what predicates remember stays well typed**, where something is
refused as well. -/
theorem carried_kept (hexistence : ∀ p, kb.existence = some p → p < kb.predicates.size) :
    Carried kb (Kept (ρ := ρ) kb) (Kept kb) where
  existence := hexistence
  refused _ h := h
  orderly _ h := h.1.orderly
  numbers _ h := h.2.toSameNumbers
  words := maintains_kept_word
  calls _ args hp _ h := (h.1.after_call h.2 (h.2.size ▸ hp) args).imp_done fun _ _ ht => ht.1
  opens _ _ hp hs g hg _ := maintains_kept_openExistential hp hs g hg
  asserts := maintains_kept_assert
  bounds := maintains_kept_addAtMost

end Grounding

end Storyworld
