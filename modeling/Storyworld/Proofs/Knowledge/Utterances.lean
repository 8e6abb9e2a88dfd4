import Storyworld.Proofs.Knowledge.Senses
import Storyworld.Proofs.Knowledge.Spelling
import Storyworld.Proofs.Phrase.Words

namespace Storyworld

/-!
# What is named when phrases are read

A phrase is read as a word, a call on words or an existential, and what follows from it is about the
same words and the sorts below. So as long as atoms are asked for by phrases only, all their names are
utterances (`Grounding.Uttered`, `Grounding.maintains_spoken_literalOf`).

For calls this takes an `Upkeep`, since a call of a predicate leads to calls of others: they are made
on the same arguments, and have been checked to take as many (`utteranceUpkeep`).
-/

namespace KnowledgeBase

variable {kb kb' : KnowledgeBase} {x : Proposition}

/-- What can be said can be said still when there are more predicates and sorts. -/
theorem Utterance.mono (h : kb.Utterance x) (hsize : kb.predicates.size ≤ kb'.predicates.size)
    (hname : ∀ p, p < kb.predicates.size → (kb'.predicate p).name = (kb.predicate p).name)
    (hsignature : ∀ p, p < kb.predicates.size →
      (kb'.predicate p).signature = (kb.predicate p).signature)
    (hsorts : kb.taxonomy.Extends kb'.taxonomy) : kb'.Utterance x := by
  cases h with
  | word w => exact .word w
  -- the text of a name depends on the names of predicates and sorts only, which stay
  | @call p args hp harity hargs =>
    have hsame : kb'.callOf p args = kb.callOf p args := by rw [callOf, callOf, hname p hp]
    rw [← hsame]
    exact .call (Nat.lt_of_lt_of_le hp hsize) (by rw [hsignature p hp]; exact harity) hargs
  | @member p s hp hunary hs =>
    have hsame : kb'.someMember p s = kb.someMember p s := by
      rw [someMember, someMember, hname p hp, hsorts.name s hs]
    rw [← hsame]
    exact .member (Nat.lt_of_lt_of_le hp hsize) (by rw [hsignature p hp]; exact hunary)
      (Nat.lt_of_lt_of_le hs hsorts.size)

/-- What can be named can be named in a later knowledge base. -/
theorem Develops.utterance (h : Develops kb kb') (hx : kb.Utterance x) : kb'.Utterance x :=
  hx.mono h.size h.name h.signature h.stays.taxonomy

theorem SameOntology.utterance (h : SameOntology kb kb') (hx : kb.Utterance x) :
    kb'.Utterance x :=
  hx.mono (Nat.le_of_eq h.size.symm) (fun p _ => h.name p) (fun p _ => h.signature p)
    h.stays.taxonomy

end KnowledgeBase

/-- The arguments of the call are single words. -/
def Sense.Unbroken : Sense → Prop
  | .call _ args => args.Unbroken
  | .word _ | .member _ _ => True

theorem KnowledgeBase.sense_unbroken (kb : KnowledgeBase) {phrase : Phrase}
    (h : phrase.Unbroken) : (kb.sense phrase).Unbroken := by
  induction phrase with
  | negation phrase ih => exact ih h
  | binary p x y => exact h
  | unary p x =>
    unfold sense
    split
    · trivial
    · exact h
  | word w =>
    unfold sense
    split
    · trivial
    · split
      · exact h
      · split <;> trivial

/-- A sense that is about what exists is so where predicates and sorts have the same numbers. -/
theorem KnowledgeBase.SameNumbers.valid {kb kb' : KnowledgeBase} (h : SameNumbers kb kb')
    {r : Sense} (hr : r.Valid kb') : r.Valid kb := by
  cases r with
  | word w => trivial
  | call p args => exact Nat.lt_of_lt_of_eq hr h.size
  | member p s => exact ⟨Nat.lt_of_lt_of_eq hr.1 h.size, Nat.lt_of_lt_of_eq hr.2 h.sorts⟩

namespace Grounding

open Action KnowledgeBase

variable {ρ : Type} {g : Grounding ρ} {kb : KnowledgeBase} {p s : Nat} {phrase : Phrase}

/-! ### The invariant -/

/-- All names of atoms are utterances. -/
def Uttered (g : Grounding ρ) : Prop := g.solver.atoms.Only g.base.Utterance

theorem Uttered.withBase (h : g.Uttered) (hkb : ∀ x, g.base.Utterance x → kb.Utterance x) :
    Uttered { g with base := kb } := h.mono hkb

/-- The solver may go on by itself, as long as it makes no atoms. -/
theorem Uttered.withSolver (h : g.Uttered) {t : Solver ρ} (hatoms : t.atoms = g.solver.atoms) :
    Uttered { g with solver := t } := by
  intro a x ha
  rw [hatoms] at ha
  exact h a x ha

/-- Something may change of a predicate that is neither its name nor its signature. -/
theorem Uttered.modifyPredicate (h : g.Uttered) (p : PredicateId) {f : Predicate → Predicate}
    (hf : ∀ q, (f q).name = q.name ∧ (f q).signature = q.signature ∧
      q.existentials ⊆ (f q).existentials) :
    Uttered { g with base := g.base.modifyPredicate p f } :=
  h.withBase fun _ => ((SameOntology.refl g.base).modifyPredicate p hf).utterance

/-- To fetch the atom of an utterance keeps to utterances. -/
theorem Uttered.proposition (h : g.Uttered) {x : Proposition} (hx : g.base.Utterance x) :
    Uttered { g with solver := (g.solver.proposition x).2 } := Solver.only_proposition h hx

/-- What the solver does by itself names nothing. -/
theorem preserves_uttered_onSolver {α : Type} {act : EStateM Error (Solver ρ) α}
    (h : ∀ R, Atoms.Padding R → Preserves (fun s : Solver ρ => R s.atoms) act) :
    Preserves Uttered (onSolver act) :=
  fun g hg => after_onSolver.2 (h _ (Atoms.padding_only g.base.Utterance) g.solver hg)

theorem preserves_uttered_assert (c : Constraint) : Preserves Uttered (assert (ρ := ρ) c) :=
  preserves_uttered_onSolver fun _ hR => Solver.preserves_atoms_assert hR c

/-! ### Calls -/

/-- Calls on single words name nothing but utterances. -/
def utteranceUpkeep (ρ : Type) (kb : KnowledgeBase) : Upkeep ρ Unit where
  Holds pending g x := (typedUpkeep ρ kb).Holds pending g x ∧ Uttered g
  Refused pending g := (typedUpkeep ρ kb).Refused pending g ∧ Uttered g
  More _ _ := True
  Done _ _ _ _ := True
  Wanted _ _ _ args := args.Unbroken
  more_refl _ := trivial
  more_trans _ _ := trivial
  done_lasts _ _ _ := trivial
  refused h := h
  orderly h := (typedUpkeep ρ kb).orderly h.1
  admitted h ha := (typedUpkeep ρ kb).admitted h.1 ha
  enrolls h hkb := ⟨(typedUpkeep ρ kb).enrolls h.1 hkb,
    h.2.withBase fun _ => hkb.develops.utterance⟩
  enters {_ _ _ p args} h hp hnone hadmits hargs := by
    refine ⟨(typedUpkeep ρ kb).enters h.1 hp hnone hadmits trivial, ?_⟩
    have hnamed := h.2.proposition (.call hp (fits_iff.1 hadmits).1 hargs)
    exact hnamed.modifyPredicate p fun _ => ⟨rfl, rfl, List.Subset.refl _⟩
  tells h hr hl := (((typedUpkeep ρ kb).tells h.1 hr hl).and
    (preserves_uttered_assert _ _ h.2)).mono
      (fun _ _ ⟨⟨y, hy, hbase, _⟩, hu⟩ => ⟨y, ⟨hy, hu⟩, hbase, trivial, trivial⟩) fun _ _ ht => ht
  settles {_ _ _ _ args _} h ha _ hjoined :=
    (((typedUpkeep ρ kb).settles h.1 ha (fun _ _ _ _ => trivial) hjoined).and
      (preserves_supportExistentials preserves_uttered_assert _ args _ _ h.2)).mono
        (fun _ _ ⟨⟨y, hy, hbase, _⟩, hu⟩ => ⟨y, ⟨hy, hu⟩, hbase, trivial⟩) fun _ _ ht => ht
  withdraws {_ _ p _} h := ⟨(typedUpkeep ρ kb).withdraws h.1,
    h.2.modifyPredicate p fun _ => ⟨rfl, rfl, List.Subset.refl _⟩⟩
  wanted_lasts _ _ := id
  wanted_enter := id
  wanted_general _ _ _ := id
  wanted_sibling _ _ _ _ := id

/-! ### Phrases -/

/-- What predicates remember is well typed, with what there was in `kb`, and only utterances are
named. -/
def Spoken (kb : KnowledgeBase) (g : Grounding ρ) : Prop := Kept kb g ∧ Uttered g

theorem maintains_spoken_onSolver {α : Type} {act : EStateM Error (Solver ρ) α}
    (hkept : Maintains (Kept kb) (Kept kb) (onSolver act))
    (h : ∀ R, Atoms.Padding R → Preserves (fun s : Solver ρ => R s.atoms) act) :
    Maintains (Spoken kb) (Spoken kb) (onSolver act) :=
  fun g hg => (hkept g hg.1).and (preserves_uttered_onSolver h g hg.2)

/-- To open an existential names the existential, and nothing else. -/
theorem Spoken.after_openExistential (hg : Spoken kb g) (hp : p < kb.predicates.size)
    (hs : s < kb.taxonomy.size) (hunary : (g.base.predicate p).signature.arity = 1) :
    After (openExistential p s) g (fun _ t => Spoken kb t) fun _ t => Spoken kb t := by
  have hnumbers := hg.1.2.toSameNumbers
  have hnamed := hg.2.proposition
    (.member (hnumbers.size ▸ hp) hunary (hnumbers.sorts ▸ hs))
  refine ((maintains_kept_openExistential hp hs g hg.1).and
    (Grounding.after_openExistential hg.1.1.backed.wellFormed p s)).mono (fun e t ht => ?_)
    fun _ _ ht => ht.2.elim
  -- the head is named before the request is remembered, so the solver changes first
  obtain ⟨hkept, -, hbase, hadd⟩ := ht
  have hhead := (Solver.preserves_atoms_addHead (Atoms.Only g.base.Utterance) e _ hnamed).of_ok hadd
  refine ⟨hkept, ?_⟩
  obtain ⟨base, solver⟩ := t
  obtain rfl : base = g.base.request p s e := hbase
  have hdeclared : Uttered { g with solver } := hhead
  exact hdeclared.modifyPredicate p fun _ => ⟨rfl, rfl, List.subset_append_left _ _⟩

theorem requests_spoken (kb : KnowledgeBase) :
    Requests kb (Spoken (ρ := ρ) kb) (Spoken kb) where
  refused _ h := h
  orderly _ h := h.1.1.orderly
  numbers _ h := h.1.2.toSameNumbers
  opens _ _ hp hs _ hg hunary := hg.after_openExistential hp hs hunary
  asserts c := maintains_spoken_onSolver (maintains_kept_assert c) fun _ hR =>
    Solver.preserves_atoms_assert hR c

theorem maintains_spoken_addAtMost (bound : Nat) (ls : List Literal) :
    Maintains (Spoken (ρ := ρ) kb) (Spoken kb) (onSolver (Solver.addAtMost bound ls)) :=
  maintains_spoken_onSolver (maintains_kept_addAtMost bound ls) fun _ hR =>
    Solver.preserves_atoms_addAtMost hR bound ls

/-- The atom of a sense is fetched by naming only utterances. -/
theorem maintains_spoken_atom {r : Sense} (hr : r.Valid kb) (hwords : r.Unbroken) :
    Maintains (Spoken (ρ := ρ) kb) (Spoken kb) r.atom := by
  cases r with
  | word w =>
    have hnamed : Preserves (Uttered (ρ := ρ)) (proposition (.word w)) := fun g hg =>
      after_onSolver.2 (after_modifyGet.2 (hg.proposition (.word w)))
    exact fun g hg => (maintains_kept_word w g hg.1).and (hnamed g hg.2)
  | call p args =>
    intro g hg
    have hp : p < g.base.predicates.size := hg.1.2.size ▸ hr
    exact After.imp_done ((utteranceUpkeep ρ kb).after_call (x := ()) hg hp hwords)
      fun _ _ ⟨_, ht, _⟩ => ht
  | member p s => exact (requests_spoken kb).existential hr.1 hr.2

/-- **To read a phrase names nothing but utterances**, where it is refused as well. -/
theorem maintains_spoken_literalOf
    (hexistence : ∀ p, kb.existence = some p → p < kb.predicates.size)
    (hphrase : phrase.Below kb.predicates.size) (hwords : phrase.Unbroken) :
    Maintains (Spoken (ρ := ρ) kb) (Spoken kb) (literalOf phrase) := by
  intro g hg
  -- what the phrase means has the numbers of `kb`, since none are added
  have hvalid : (g.base.sense phrase).Valid kb := by
    have hnumbers := hg.1.2.toSameNumbers
    refine hnumbers.valid (sense_valid (fun p hp => ?_) (hnumbers.size ▸ hphrase))
    exact hnumbers.size ▸ hexistence p (hnumbers.existence ▸ hp)
  have hread : Maintains (Spoken (ρ := ρ) kb) (Spoken kb)
      ((g.base.sense phrase).atom >>= fun a => pure (⟨a, phrase.positive⟩ : Literal)) :=
    (maintains_spoken_atom hvalid (g.base.sense_unbroken hwords)).bind fun _ => maintains_pure _
  unfold After
  rw [literalOf_eq]
  exact hread g hg

end Grounding

end Storyworld
