import Storyworld.Proofs.Knowledge.Discovery
import Storyworld.Proofs.Knowledge.Phrases
import Storyworld.Proofs.Knowledge.Register

namespace Storyworld

/-!
# What phrases are read as

Marks of negation apart, a phrase is read as a proposition of its own, as a call, or as an existential.
Which one it is, its `Sense`, can be told before anything is asked of the solver, from what is declared
and registered (`KnowledgeBase.sense`, `Grounding.literalOf_eq`).

What has been asked for once is there from then on: a name, a call or an existential leads to its atom
(`Sense.Has`), and to ask for it again gives that atom and changes nothing (`Sense.Has.again`). So the
literal of a phrase is settled by its sense, and the sense changes in one way only: by an entity that
is registered later (`Phrase.Overtaken`), since nothing else is added to an ontology that is fixed
(`SameOntology`).
-/

namespace Taxonomy

variable {t u : Taxonomy}

/-- Without new sorts, names lead to the sorts they led to. -/
theorem Extends.named? (h : t.Extends u) (hsize : u.size = t.size) (name : String) :
    u.named? name = t.named? name := by
  have hnames : u.sorts.map SortEntry.name = t.sorts.map SortEntry.name := by
    refine Array.ext (by rw [Array.size_map, Array.size_map]; exact hsize) fun i hu ht => ?_
    have hlt : i < t.sorts.size := by simpa using ht
    have hname := h.name i hlt
    have hlt' : i < u.sorts.size := by simpa using hu
    rw [Taxonomy.name, Taxonomy.name, entry, entry, Array.getElem?_eq_getElem hlt,
      Array.getElem?_eq_getElem hlt'] at hname
    simpa using hname
  -- a sort is found by its place in the list of names, and the lists are the same
  have hmap : ∀ v : Taxonomy, v.named? name =
      (v.sorts.map SortEntry.name).findIdx? fun n => n == name := by
    intro v
    rw [Array.findIdx?_map]
    rfl
  rw [hmap, hmap, hnames]

end Taxonomy

/-- Whether the marks of negation of the phrase cancel. -/
def Phrase.positive : Phrase → Bool
  | .negation phrase => !phrase.positive
  | _ => true

/-- What a phrase is read as, marks of negation apart. -/
inductive Sense where
  /-- A proposition of its own. -/
  | word (w : String)
  /-- The predicate holds of the arguments. -/
  | call (p : PredicateId) (args : Arguments)
  /-- The predicate holds of some member of the sort. -/
  | member (p : PredicateId) (s : SortId)
  deriving DecidableEq

namespace KnowledgeBase

/-- What a phrase is read as. -/
def sense (kb : KnowledgeBase) : Phrase → Sense
  | .negation phrase => kb.sense phrase
  | .word w =>
    match kb.existence with
    | none => .word w
    | some e =>
      if kb.admits e (.one w) then .call e (.one w)
      else
        match kb.taxonomy.named? w with
        | some s => .member e s
        | none => .word w
  | .unary p x =>
    match kb.sortOf? x, kb.taxonomy.named? x with
    | none, some s => .member p s
    | _, _ => .call p (.one x)
  | .binary p x y => .call p (.two x y)

end KnowledgeBase

namespace Sense

variable {ρ : Type}

/-- The proposition that stands for the sense. -/
def proposition (kb : KnowledgeBase) : Sense → Proposition
  | .word w => .word w
  | .call p args => kb.callOf p args
  | .member p s => kb.someMember p s

/-- Asks for the atom of the sense. -/
def atom : Sense → EStateM Error (Grounding ρ) Atom
  | .word w => Grounding.proposition (.word w)
  | .call p args => Grounding.call p args
  | .member p s => Grounding.existential p s

/-- The sense is about a predicate and a sort that exist. -/
def Valid (kb : KnowledgeBase) : Sense → Prop
  | .word _ => True
  | .call p _ => p < kb.predicates.size
  | .member p s => p < kb.predicates.size ∧ s < kb.taxonomy.size

end Sense

namespace KnowledgeBase

variable {kb : KnowledgeBase}

/-- A phrase of predicates that exist is read as something about what exists. -/
theorem sense_valid (hexistence : ∀ p, kb.existence = some p → p < kb.predicates.size)
    {phrase : Phrase} (h : phrase.Below kb.predicates.size) : (kb.sense phrase).Valid kb := by
  induction phrase with
  | negation phrase ih => exact ih h
  | binary p x y => exact h
  | unary p x =>
    unfold sense
    split
    · -- the word is no entity, but names a sort
      rename_i s _ hs
      exact ⟨h, Taxonomy.lt_of_named? hs⟩
    · exact h
  | word w =>
    unfold sense
    split
    · trivial
    · rename_i e he
      split
      · exact hexistence e he
      · split
        · rename_i s hs
          exact ⟨hexistence e he, Taxonomy.lt_of_named? hs⟩
        · trivial

end KnowledgeBase

namespace Grounding

open Action KnowledgeBase

variable {ρ : Type} {g : Grounding ρ}

/-- What comes first decides how a compound action starts. -/
theorem bind_congr_at {α β : Type} {act act' : EStateM Error (Grounding ρ) α} (h : act g = act' g)
    (next : α → EStateM Error (Grounding ρ) β) : (act >>= next) g = (act' >>= next) g := by
  show EStateM.bind act next g = EStateM.bind act' next g
  unfold EStateM.bind
  rw [h]

/-- A word is read as its sense says. -/
theorem wordAtom_eq (w : String) (g : Grounding ρ) :
    wordAtom w g = (g.base.sense (.word w)).atom g := by
  show (match g.base.existence with
    | none => proposition (.word w)
    | some e =>
      if g.base.admits e (.one w) then call e (.one w)
      else
        match g.base.taxonomy.named? w with
        | some s => existential e s
        | none => proposition (.word w) : EStateM Error (Grounding ρ) Atom) g = _
  -- entities come first, then sorts, then propositions, on both sides
  unfold sense
  cases g.base.existence with
  | none => rfl
  | some e =>
    dsimp only
    cases g.base.admits e (.one w) with
    | true => rfl
    | false => cases g.base.taxonomy.named? w <;> rfl

/-- A predicate with one argument is read as its sense says. -/
theorem unaryAtom_eq (p : PredicateId) (x : String) (g : Grounding ρ) :
    unaryAtom p x g = (g.base.sense (.unary p x)).atom g := by
  show (match g.base.sortOf? x, g.base.taxonomy.named? x with
    | none, some s => existential p s
    | _, _ => call p (.one x) : EStateM Error (Grounding ρ) Atom) g = _
  unfold sense
  cases g.base.sortOf? x with
  | some d => rfl
  | none => cases g.base.taxonomy.named? x <;> rfl

/-- **To read a phrase is to ask for the atom of its sense.** -/
theorem literalOf_eq (phrase : Phrase) (g : Grounding ρ) :
    literalOf phrase g =
      ((g.base.sense phrase).atom >>= fun a => pure ⟨a, phrase.positive⟩) g := by
  induction phrase with
  | negation phrase ih =>
    show (literalOf phrase >>= fun l => pure l.negate) g = _
    rw [bind_congr_at ih, bind_assoc]
    rfl
  | binary p x y => rfl
  | unary p x => exact bind_congr_at (unaryAtom_eq p x g) _
  | word w => exact bind_congr_at (wordAtom_eq w g) _

end Grounding

/-! ### Ontologies that are fixed -/

namespace KnowledgeBase

variable {kb kb' kb'' : KnowledgeBase}

/-- The sorts, the predicates and the existence predicate are the same. There may be more entities,
and more that was called and requested. -/
structure SameOntology (kb kb' : KnowledgeBase) : Prop extends SameNumbers kb kb' where
  stays : Extends kb kb'
  name : ∀ p, (kb'.predicate p).name = (kb.predicate p).name
  signature : ∀ p, (kb'.predicate p).signature = (kb.predicate p).signature
  requested : ∀ p s e, kb.Requested p s e → kb'.Requested p s e

namespace SameOntology

theorem refl (kb : KnowledgeBase) : SameOntology kb kb :=
  ⟨SameNumbers.refl kb, Extends.refl kb, fun _ => rfl, fun _ => rfl, fun _ _ _ => id⟩

theorem trans (h : SameOntology kb kb') (h' : SameOntology kb' kb'') : SameOntology kb kb'' where
  toSameNumbers := h.toSameNumbers.trans h'.toSameNumbers
  stays := h.stays.trans h'.stays
  name p := (h'.name p).trans (h.name p)
  signature p := (h'.signature p).trans (h.signature p)
  requested p s e he := h'.requested p s e (h.requested p s e he)

/-- An entity that is registered changes nothing of the ontology. -/
theorem bind (h : SameOntology kb kb') (e : String) (s : SortId) :
    SameOntology kb (kb'.bind e s) where
  toSameNumbers := h.toSameNumbers.trans ⟨rfl, Array.size_modify, rfl⟩
  stays := h.stays.trans (extends_bind kb' e s)
  name := h.name
  signature := h.signature
  requested := h.requested

/-- A change to a predicate that keeps its name, its signature and its existentials changes nothing
of the ontology. -/
theorem modifyPredicate (h : SameOntology kb kb') (r : PredicateId) {f : Predicate → Predicate}
    (hf : ∀ q, (f q).name = q.name ∧ (f q).signature = q.signature ∧
      q.existentials ⊆ (f q).existentials) : SameOntology kb (kb'.modifyPredicate r f) where
  toSameNumbers := h.toSameNumbers.trans ⟨Array.size_modify, rfl, rfl⟩
  stays := ⟨h.stays.taxonomy, h.stays.sortOf⟩
  name p := by
    rcases predicate_modifyPredicate kb' f p r with hp | hp
    · rw [hp, h.name]
    · rw [hp, (hf _).1, h.name]
  signature p := by
    rcases predicate_modifyPredicate kb' f p r with hp | hp
    · rw [hp, h.signature]
    · rw [hp, (hf _).2.1, h.signature]
  requested p s e he := by
    have he := h.requested p s e he
    -- existentials may be added, so only this direction holds
    rcases predicate_modifyPredicate kb' f p r with hp | hp
    · rwa [Requested, hp]
    · rw [Requested, hp]
      exact (hf _).2.2 he

/-- The same sorts have names. -/
theorem named? (h : SameOntology kb kb') (name : String) :
    kb'.taxonomy.named? name = kb.taxonomy.named? name :=
  h.stays.taxonomy.named? h.sorts name

/-- What was admitted is admitted still. -/
theorem admits (h : SameOntology kb kb') (hkb : kb.Placed) {p : PredicateId} {args : Arguments}
    (hadmits : kb.admits p args = true) : kb'.admits p args = true := by
  rw [h.stays.admits hkb (registered_of_admits hadmits) (h.signature p)]
  exact hadmits

end SameOntology

end KnowledgeBase

namespace Solver

variable {ρ : Type} {s : Solver ρ} {x y : Proposition} {a : Atom}

/-- A name that leads to an atom makes none. -/
theorem proposition_of_named? (h : s.atoms.named? x = some a) : s.proposition x = (a, s) := by
  unfold proposition
  rw [h]

/-- A name that leads somewhere goes on to lead there when another proposition is given an atom. -/
theorem named?_proposition_of_named? (h : s.atoms.named? y = some a) (x : Proposition) :
    (s.proposition x).2.atoms.named? y = some a := by
  by_cases hxy : x = y
  · subst hxy
    rwa [proposition_of_named? h]
  · rwa [named?_proposition_of_ne s hxy]

end Solver

namespace Grounding

open Action KnowledgeBase

variable {ρ : Type} {g t u : Grounding ρ}

/-- The second goes on from the first with the same ontology, and names stay with their atoms. -/
structure Continues (g t : Grounding ρ) : Prop where
  ontology : SameOntology g.base t.base
  named? : ∀ x b, g.solver.atoms.named? x = some b → t.solver.atoms.named? x = some b

theorem Continues.refl (g : Grounding ρ) : Continues g g := ⟨SameOntology.refl _, fun _ _ => id⟩

theorem Continues.trans (h : Continues g t) (h' : Continues t u) : Continues g u :=
  ⟨h.ontology.trans h'.ontology, fun x b hx => h'.named? x b (h.named? x b hx)⟩

/-- What names at most new atoms leaves names with theirs. -/
theorem preserves_continues_onSolver {α : Type} {act : EStateM Error (Solver ρ) α}
    (h : ∀ R, Atoms.Padding R → Preserves (fun s : Solver ρ => R s.atoms) act) :
    Preserves (Continues g) (onSolver act) := by
  intro t ht
  have hnames : Atoms.Padding fun atoms => ∀ x b, g.solver.atoms.named? x = some b →
      atoms.named? x = some b := fun _ h => h
  exact after_onSolver.2 ((h _ hnames t.solver ht.named?).mono (fun _ _ hs => ⟨ht.ontology, hs⟩)
    fun _ _ hs => ⟨ht.ontology, hs⟩)

/-- **Whatever phrases lead to, the ontology stays the same and names stay with their atoms.** -/
theorem steps_continues (g : Grounding ρ) : Steps (Continues g) where
  checks _ _ _ ht := after_onBase.2 (After.mono
    (after_checkArguments_of (P := SameOntology g.base) ht.ontology fun x _ _ hkb =>
      ensureSort_of hkb fun _ => hkb.bind x.2 x.1)
    (fun _ _ hkb => ⟨hkb, ht.named?⟩) fun _ _ hkb => ⟨hkb, ht.named?⟩)
  modifies p _ hf := preserves_modify fun _ ht => ⟨ht.ontology.modifyPredicate p hf, ht.named?⟩
  names x _ _ ht :=
    ⟨ht.ontology, fun y b hy => Solver.named?_proposition_of_named? (ht.named? y b hy) x⟩
  heads a := preserves_continues_onSolver fun R _ => Solver.preserves_atoms_addHead R a
  asserts c := preserves_continues_onSolver fun _ hR => Solver.preserves_atoms_assert hR c

end Grounding

/-! ### What has been asked for -/

namespace Sense

open Action KnowledgeBase Grounding

variable {ρ : Type} {g t : Grounding ρ} {r : Sense} {p s a : Nat}

/-- The sense has been asked for, and the atom was given for it. -/
def Has (g : Grounding ρ) (a : Atom) : Sense → Prop
  | .word w => g.solver.atoms.named? (.word w) = some a
  | .call p args => g.base.atom? p args = some a
  | .member p s => g.base.Requested p s a ∧ (g.base.predicate p).signature.arity = 1

/-- What has been asked for has the atom of its name. -/
theorem Has.named? (h : r.Has g a) (hg : Typed g) :
    g.solver.atoms.named? (r.proposition g.base) = some a := by
  cases r with
  | word w => exact h
  | call p args => exact hg.named p args a h
  | member p s => exact hg.called p s a h.1

/-- What has been asked for is there as long as the domains keep it. -/
theorem Has.continues (h : r.Has g a) (ht : Continues g t)
    (hatoms : ∀ p args b, g.base.atom? p args = some b → t.base.atom? p args = some b) :
    r.Has t a := by
  cases r with
  | word w => exact ht.named? _ a h
  | call p args => exact hatoms p args a h
  | member p s => exact ⟨ht.ontology.requested p s a h.1, by rw [ht.ontology.signature]; exact h.2⟩

/-- An existential that is given is there afterwards, and the predicate is unary. -/
theorem after_existentialFrom {descend : Atom → EStateM Error (Grounding ρ) Unit}
    (hdescend : ∀ (t : Grounding ρ) e, Preserves (Continues t) (descend e))
    (hg : g.solver.WellFormed) (hp : p < g.base.predicates.size) :
    After (existentialFrom descend p s) g (fun e t => (Sense.member p s).Has t e)
      fun _ _ => True := by
  refine after_bind.2 (after_get.2 ?_)
  dsimp only
  split
  · trivial
  · rename_i harity
    have harity := Decidable.not_not.1 harity
    cases hlookup : (g.base.predicate p).existentials.lookup s with
    | some e =>
      obtain ⟨before, rest, hsplit, -⟩ := List.lookup_eq_some_iff.1 hlookup
      exact after_pure.2 ⟨requested_of_split hsplit, harity⟩
    | none =>
      refine after_bind.2 ((after_openExistential hg p s).imp fun e t ⟨_, hbase, _⟩ => ?_)
      have hopened : (Sense.member p s).Has t e := by
        obtain ⟨es, hq⟩ := predicate_request g.base p p s e
        refine ⟨?_, ?_⟩
        · rw [hbase]
          exact (requested_request hp).2 (Or.inr ⟨rfl, rfl, rfl⟩)
        · rw [hbase, hq]
          exact harity
      -- whatever is asserted then, the existential is not taken away again
      refine after_bind.2 ((hdescend t e t (Continues.refl t)).mono (fun _ u hu => ?_)
        fun _ _ _ => trivial)
      refine after_bind.2 (after_get.2 (after_bind.2 (After.mono
        (preserves_forM (fun _ _ => (steps_continues t).asserts _) u hu)
        (fun _ v hv => after_pure.2 ?_) fun _ _ _ => trivial)))
      exact ⟨hv.ontology.requested p s e hopened.1,
        (congrArg Signature.arity (hv.ontology.signature p)).trans hopened.2⟩

/-- An existential that was asked for has its atom from then on. -/
theorem after_existential (hg : g.solver.WellFormed) (hp : p < g.base.predicates.size) :
    After (existential p s) g (fun e t => (Sense.member p s).Has t e) fun _ _ => True := by
  refine after_bind.2 (after_get.2 ?_)
  cases g.base.taxonomy.size with
  | zero => exact after_existentialFrom (fun _ _ => preserves_pure _) hg hp
  | succ depth =>
    refine after_existentialFrom (fun t e => preserves_get.bind fun u => ?_) hg hp
    exact preserves_forM fun c _ => ((steps_continues t).existentialWithin depth p c).bind fun _ =>
      (steps_continues t).asserts _

/-- **What is asked for is there afterwards.** -/
theorem after_atom (hg : Typed g) (hr : r.Valid g.base) :
    After r.atom g (fun a t => r.Has t a) fun _ _ => True := by
  cases r with
  | word w =>
    have hmade : After (Grounding.proposition (.word w)) g
        (fun a t => t.solver.atoms.named? (.word w) = some a) fun _ _ => True :=
      after_onSolver.2 (after_modifyGet.2 (Solver.named?_proposition g.solver (.word w)))
    exact hmade
  | call p args =>
    exact (hg.after_call (Keeps.refl g.base) hr args).mono (fun _ _ ht => ht.2) fun _ _ _ => trivial
  | member p s => exact after_existential hg.backed.wellFormed hr.1

/-- An existential that was requested is found. -/
theorem Has.existential_again (h : (Sense.member p s).Has g a) (hg : Typed g) :
    existential p s g = .ok a g := by
  have hlookup : (g.base.predicate p).existentials.lookup s = some a := by
    cases hlookup : (g.base.predicate p).existentials.lookup s with
    | none =>
      have hne := List.lookup_eq_none_iff.1 hlookup (s, a) h.1
      rw [bne_self_eq_false] at hne
      cases hne
    | some e =>
      -- there may be other entries for the sort, but they have the atom of the same name
      obtain ⟨before, rest, hsplit, -⟩ := List.lookup_eq_some_iff.1 hlookup
      have he := hg.called p s e (requested_of_split hsplit)
      rw [hg.called p s a h.1] at he
      exact he.symm
  have hfrom : ∀ descend, After (existentialFrom (ρ := ρ) descend p s) g
      (fun v t => v = a ∧ t = g) fun _ _ => False := fun descend => by
    refine after_bind.2 (after_get.2 ?_)
    dsimp only
    rw [if_neg (Decidable.not_not.2 h.2), hlookup]
    exact after_pure.2 ⟨rfl, rfl⟩
  have hfound : After (existential p s) g (fun v t => v = a ∧ t = g) fun _ _ => False := by
    refine after_bind.2 (after_get.2 ?_)
    cases g.base.taxonomy.size with
    | zero => exact hfrom _
    | succ depth => exact hfrom _
  obtain ⟨_, _, hok, rfl, rfl⟩ := hfound.exists_ok
  exact hok

/-- **What was asked for once is found, and to ask again changes nothing.** -/
theorem Has.again (h : r.Has g a) (hg : Typed g) : r.atom g = .ok a g := by
  cases r with
  | word w =>
    have hmade : g.solver.proposition (.word w) = (a, g.solver) := Solver.proposition_of_named? h
    have hasked : After (Grounding.proposition (.word w)) g (fun b t => b = a ∧ t = g)
        fun _ _ => False := by
      refine after_onSolver.2 (after_modifyGet.2 ?_)
      rw [hmade]
      exact ⟨rfl, rfl⟩
    obtain ⟨_, _, hok, rfl, rfl⟩ := hasked.exists_ok
    exact hok
  | call p args => exact hg.call_again h
  | member p s => exact h.existential_again hg

end Sense

/-! ### Phrases that are overtaken -/

/-- An entity has taken the place of what the phrase was about: the lone word has come to be an
entity that exists by the existence predicate, or the argument named a sort and no entity, and names an
entity now. -/
def Phrase.Overtaken (kb kb' : KnowledgeBase) : Phrase → Prop
  | .negation phrase => phrase.Overtaken kb kb'
  | .word w => ∃ e, kb.existence = some e ∧ kb.admits e (.one w) = false ∧
      kb'.admits e (.one w) = true
  | .unary _ x => kb.sortOf? x = none ∧ (kb.taxonomy.named? x).isSome ∧ (kb'.sortOf? x).isSome
  | .binary _ _ _ => False

namespace KnowledgeBase

variable {kb kb' : KnowledgeBase} {phrase : Phrase}

/-- As long as a phrase is not overtaken, it is read as what it was read as. -/
theorem SameOntology.sense (h : SameOntology kb kb') (hkb : kb.Placed)
    (hphrase : ¬ phrase.Overtaken kb kb') : kb'.sense phrase = kb.sense phrase := by
  induction phrase with
  | negation phrase ih => exact ih hphrase
  | binary p x y => rfl
  | unary p x =>
    unfold KnowledgeBase.sense
    rw [h.named?]
    cases hx : kb.sortOf? x with
    | some d => rw [h.stays.sortOf x d hx]
    | none =>
      -- an argument that was no entity could only be overtaken if it names a sort
      cases hs : kb.taxonomy.named? x with
      | none => cases kb'.sortOf? x <;> rfl
      | some s =>
        cases hx' : kb'.sortOf? x with
        | none => rfl
        | some d => exact absurd ⟨hx, by rw [hs]; rfl, by rw [hx']; rfl⟩ hphrase
  | word w =>
    unfold KnowledgeBase.sense
    rw [h.named?, h.existence]
    cases he : kb.existence with
    | none => rfl
    | some e =>
      -- a lone word is overtaken if the existence predicate comes to admit it
      have hadmits : kb'.admits e (.one w) = kb.admits e (.one w) := by
        cases hold : kb.admits e (.one w) with
        | true => exact h.admits hkb hold
        | false =>
          refine Bool.eq_false_iff.2 fun hnew => hphrase ⟨e, he, hold, hnew⟩
      dsimp only
      rw [hadmits]

/-- A phrase that is overtaken was read as something else than a call, and is read as a call. -/
theorem SameOntology.overtaken (h : SameOntology kb kb') (hphrase : phrase.Overtaken kb kb') :
    (∃ p args, kb'.sense phrase = .call p args) ∧ ∀ p args, kb.sense phrase ≠ .call p args := by
  induction phrase with
  | negation phrase ih => exact ih hphrase
  | binary p x y => exact hphrase.elim
  | unary p x =>
    -- before, the word named a sort only; now it names an entity, and that is preferred
    obtain ⟨hx, hs, hx'⟩ := hphrase
    obtain ⟨s, hs⟩ := Option.isSome_iff_exists.1 hs
    obtain ⟨d, hd⟩ := Option.isSome_iff_exists.1 hx'
    unfold KnowledgeBase.sense
    rw [hd, hx, hs]
    exact ⟨⟨p, .one x, rfl⟩, nofun⟩
  | word w =>
    obtain ⟨e, he, hold, hnew⟩ := hphrase
    unfold KnowledgeBase.sense
    rw [h.existence, he]
    dsimp only
    rw [hold, hnew]
    refine ⟨⟨e, .one w, rfl⟩, fun p args => ?_⟩
    rw [if_neg Bool.false_ne_true]
    -- without the entity the word was an existential or a proposition, never a call
    cases kb.taxonomy.named? w <;> exact nofun

end KnowledgeBase

/-- What is said of entities is not what is said of a member of a sort, nor a word. -/
theorem Sense.eq_call_of_proposition {kb kb' : KnowledgeBase} {r : Sense} {p : PredicateId}
    {args : Arguments} (h : r.proposition kb = kb'.callOf p args) : ∃ q args', r = .call q args' := by
  cases r with
  | word w => cases h
  | call q args' => exact ⟨q, args', rfl⟩
  | member q s =>
    have hterms : [Term.sort (kb.taxonomy.name s)] = args.terms :=
      (Call.mk.inj (Proposition.call.inj h)).2
    cases args <;> cases hterms

end Storyworld
