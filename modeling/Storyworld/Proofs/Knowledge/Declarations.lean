import Storyworld.Proofs.Action
import Storyworld.Proofs.Knowledge.Base

namespace Storyworld

/-!
# Declarations

What may be said to a knowledge base without a solver, as data. A declaration that is refused
leaves the knowledge base as it was, up to the sort or the instances that were taken before.
No declaration touches a domain or an existential, and those of a new predicate are empty.
-/

namespace KnowledgeBase

open Action

/-- Something that may be declared. -/
inductive Declaration where
  | sort (name parent : String) (instances : List String)
  | subsort (name : String) (parent : SortId)
  | member (sort : SortId) (entity : String)
  | entity (name : String) (sort : SortId)
  | default (entity : String) (sort : SortId)
  | predicate (name : String) (signature : Signature)
  | relation (kind : RelationKind) (specific general : PredicateId)
  | exclusion (p q : PredicateId)
  | existence (p : PredicateId)
  | quiet (p : PredicateId) (b : Bool)
  | implicitSubject (p : PredicateId) (b : Bool)

/-- The knowledge base after a declaration, whether it was refused or not. -/
def Declaration.perform : Declaration → KnowledgeBase → KnowledgeBase
  | .sort name parent instances, kb => stateAfter (registerSort name parent instances) kb
  | .subsort name parent, kb =>
    { kb with taxonomy := ((kb.taxonomy.add name parent).toOption.map Prod.snd).getD kb.taxonomy }
  | .member s e, kb => { kb with taxonomy := kb.taxonomy.pushInstance s e }
  | .entity e s, kb => stateAfter (declare e s) kb
  | .default e s, kb => (kb.ensureSort e s).2
  | .predicate name signature, kb =>
    ((kb.definePredicate name signature).toOption.map Prod.snd).getD kb
  | .relation kind specific general, kb => (kb.relate kind specific general).toOption.getD kb
  | .exclusion p q, kb => (kb.exclude p q).toOption.getD kb
  | .existence p, kb => { kb with existence := some p }
  | .quiet p b, kb => kb.modifyPredicate p fun q => { q with quiet := b }
  | .implicitSubject p b, kb => kb.modifyPredicate p fun q => { q with implicitSubject := b }

/-- The knowledge base comes from one that has only a root sort, by declarations. -/
inductive Declared : KnowledgeBase → Prop where
  | start (root : String) : Declared (ofRoot root)
  | declaration {kb : KnowledgeBase} (hkb : Declared kb) (d : Declaration) :
    Declared (d.perform kb)

variable {kb : KnowledgeBase} {p : PredicateId}

/-! ### Sorts and entities -/

section Laws

variable {P : KnowledgeBase → Prop} {e : String} {s : SortId}

/-- Only an entity that is not registered is bound. -/
theorem ensureSort_of (hkb : P kb) (hbind : kb.sortOf? e = none → P (kb.bind e s)) :
    P (kb.ensureSort e s).2 := by
  unfold ensureSort
  split
  · exact hkb
  · rename_i hnew
    exact hbind hnew

/-- A declaration of an entity keeps what the binding of a new entity keeps. -/
theorem preserves_declare_of
    (hbind : ∀ kb : KnowledgeBase, P kb → kb.sortOf? e = none → P (kb.bind e s)) :
    Preserves P (declare e s) := by
  intro kb hkb
  unfold After declare
  cases hsort : kb.sortOf? e with
  | none => exact hbind kb hkb hsort
  | some declared =>
    by_cases hsame : declared = s
    · simpa [hsame] using hkb
    · simpa [hsame] using hkb

/-- A sort is added if its parent is known and its name is not, and then its instances are declared,
up to the first that is refused. -/
theorem after_registerSort_of {name parent : String} {instances : List String} (hkb : P kb)
    (hadd : ∀ p s t, kb.taxonomy.find parent = .ok p → kb.taxonomy.add name p = .ok (s, t) →
      ∃ I : KnowledgeBase → Prop, I { kb with taxonomy := t } ∧
        (∀ entity, Preserves I (declare entity s)) ∧ ∀ kb', I kb' → P kb') :
    After (registerSort name parent instances) kb (fun _ kb' => P kb') fun _ kb' => P kb' := by
  refine after_bind.2 (after_get.2 (after_bind.2 (after_ofExcept.2 ?_)))
  cases hparent : kb.taxonomy.find parent with
  | error e => exact hkb
  | ok p =>
    refine after_bind.2 (after_ofExcept.2 ?_)
    cases hadded : kb.taxonomy.add name p with
    | error e => exact hkb
    | ok added =>
      -- the sort is there, and its instances follow; any of them may be refused
      obtain ⟨I, hI, hdeclare, hP⟩ := hadd p added.1 added.2 hparent hadded
      have hinstances : Preserves I (do
          instances.forM fun entity => declare entity added.1
          return added.1) :=
        (preserves_forM fun entity _ => hdeclare entity).bind fun _ => preserves_pure _
      exact after_bind.2 ((hinstances _ hI).mono (fun _ => hP) fun _ => hP)

/-- Arguments are bound to the sorts that are required of them, up to the first that is refused. -/
theorem after_checkArguments_of {args : Arguments} (hkb : P kb)
    (hensure : ∀ x ∈ (kb.predicate p).signature.sorts.zip args.entities, ∀ t : KnowledgeBase,
      P t → P (t.ensureSort x.2 x.1).2) :
    After (checkArguments p args) kb (fun _ t => P t) fun _ t => P t := by
  unfold checkArguments
  refine after_bind.2 (after_get.2 ?_)
  dsimp only
  split
  · exact hkb
  · refine preserves_forM (fun x hx => ?_) kb hkb
    -- an entity is bound before its sort is compared, so it is bound even if it is refused
    refine (preserves_modifyGet (hensure x hx)).bind fun _ => preserves_get.bind fun t => ?_
    split
    · exact preserves_pure _
    · exact preserves_throw _

end Laws

/-- The predicates, the relations and the existence predicate are the same. -/
structure SamePredicates (kb kb' : KnowledgeBase) : Prop where
  predicates : kb'.predicates = kb.predicates
  relations : kb'.relations = kb.relations
  existence : kb'.existence = kb.existence

theorem SamePredicates.refl (kb : KnowledgeBase) : SamePredicates kb kb := ⟨rfl, rfl, rfl⟩

theorem SamePredicates.trans {kb' kb'' : KnowledgeBase} (h : SamePredicates kb kb')
    (h' : SamePredicates kb' kb'') : SamePredicates kb kb'' :=
  ⟨h'.predicates.trans h.predicates, h'.relations.trans h.relations,
    h'.existence.trans h.existence⟩

/-- The predicates are the same, each with its number. -/
theorem SamePredicates.predicate {kb' : KnowledgeBase} (h : SamePredicates kb kb') :
    kb'.predicate p = kb.predicate p := by
  rw [KnowledgeBase.predicate, KnowledgeBase.predicate, h.predicates]

/-- To make sure of the sort of an entity changes no predicate. -/
theorem samePredicates_ensureSort (kb : KnowledgeBase) (entity : String) (sort : SortId) :
    SamePredicates kb (kb.ensureSort entity sort).2 :=
  ensureSort_of (SamePredicates.refl kb) fun _ => ⟨rfl, rfl, rfl⟩

/-- To declare an entity changes no predicate, also where it is refused. -/
theorem preserves_declare (entity : String) (sort : SortId) :
    Preserves (SamePredicates kb) (declare entity sort) :=
  preserves_declare_of fun _ h _ => ⟨h.predicates, h.relations, h.existence⟩

/-- To register a sort with its instances changes no predicate, also where it is refused. -/
theorem preserves_registerSort (name parent : String) (instances : List String) :
    Preserves (SamePredicates kb) (registerSort name parent instances) := by
  intro kb' h
  refine after_registerSort_of h fun p s t _ _ => ⟨SamePredicates kb, ?_, ?_, fun _ => id⟩
  · exact ⟨h.predicates, h.relations, h.existence⟩
  · exact fun entity => preserves_declare entity s

/-- To check arguments may register entities, and changes no predicate. -/
theorem preserves_checkArguments (p : PredicateId) (args : Arguments) :
    Preserves (SamePredicates kb) (checkArguments p args) :=
  fun _ h => after_checkArguments_of h fun _ _ t ht => ht.trans (samePredicates_ensureSort t _ _)

/-! ### Predicates -/

/-- A new predicate is found by the next number, and the others by theirs. -/
theorem predicate_push (kb : KnowledgeBase) (q : Predicate) :
    ({ kb with predicates := kb.predicates.push q } : KnowledgeBase).predicate p =
      if p = kb.predicates.size then q else kb.predicate p := by
  show ((kb.predicates.push q)[p]?).getD default = _
  rw [Array.getElem?_push]
  split <;> rfl

/-- A relation changes none of the predicates that it is between. -/
theorem predicate_addRelation (kb : KnowledgeBase) (r : Relation) :
    (kb.addRelation r).predicate p = kb.predicate p := by
  unfold addRelation
  split <;> rfl

/-- A change to one predicate leaves each predicate as it was, or is the change. -/
theorem predicate_modifyPredicate (kb : KnowledgeBase) (f : Predicate → Predicate)
    (p q : PredicateId) : (kb.modifyPredicate q f).predicate p = kb.predicate p ∨
      (kb.modifyPredicate q f).predicate p = f (kb.predicate p) := by
  by_cases hqp : q = p
  · subst hqp
    rcases Nat.lt_or_ge q kb.predicates.size with hlt | hge
    · exact Or.inr (predicate_modify_self f hlt)
    · -- there is no such predicate, so there is nothing to modify
      refine Or.inl ?_
      have hsize : (kb.modifyPredicate q f).predicates.size = kb.predicates.size :=
        Array.size_modify
      rw [predicate_of_ge hge, predicate_of_ge (by rw [hsize]; exact hge)]
  · exact Or.inl (predicate_modify_of_ne f hqp)

/-- The sorts and the entities are the same. -/
structure SameEntities (kb kb' : KnowledgeBase) : Prop where
  taxonomy : kb'.taxonomy = kb.taxonomy
  entities : kb'.entities = kb.entities

theorem SameEntities.trans {kb' kb'' : KnowledgeBase} (h : SameEntities kb kb')
    (h' : SameEntities kb' kb'') : SameEntities kb kb'' :=
  ⟨h'.taxonomy.trans h.taxonomy, h'.entities.trans h.entities⟩

/-- A relation is no matter of sorts or entities. -/
theorem sameEntities_addRelation (kb : KnowledgeBase) (r : Relation) :
    SameEntities kb (kb.addRelation r) := by
  unfold addRelation
  split <;> exact ⟨rfl, rfl⟩

/-- Whether the declaration is about predicates, and not about sorts or entities. -/
def Declaration.ofPredicates : Declaration → Bool
  | .sort _ _ _ | .subsort _ _ | .member _ _ | .entity _ _ | .default _ _ => false
  | _ => true

/-- What is declared of predicates leaves the sorts and the entities as they were. -/
theorem Declaration.sameEntities {d : Declaration} (hd : d.ofPredicates = true)
    (kb : KnowledgeBase) : SameEntities kb (d.perform kb) := by
  cases d with
  | predicate name signature =>
    show SameEntities kb (((kb.definePredicate name signature).toOption.map Prod.snd).getD kb)
    unfold definePredicate
    cases kb.predicateNamed? name <;> exact ⟨rfl, rfl⟩
  | relation kind p q =>
    show SameEntities kb ((kb.relate kind p q).toOption.getD kb)
    unfold relate
    cases kb.checkRelation p q with
    -- predicates that cannot be related leave all as it was
    | error e => exact ⟨rfl, rfl⟩
    | ok _ => exact sameEntities_addRelation kb _
  | exclusion p q =>
    show SameEntities kb ((kb.exclude p q).toOption.getD kb)
    unfold exclude
    cases kb.checkRelation p q with
    | error e => exact ⟨rfl, rfl⟩
    | ok _ =>
      cases kb.checkRelation q p with
      | error e => exact ⟨rfl, rfl⟩
      | ok _ => exact (sameEntities_addRelation kb _).trans (sameEntities_addRelation _ _)
  | existence p => exact ⟨rfl, rfl⟩
  | quiet p b => exact ⟨rfl, rfl⟩
  | implicitSubject p b => exact ⟨rfl, rfl⟩
  | _ => cases hd

/-- What has been made of a predicate: its domain and its existentials. -/
def uses (kb : KnowledgeBase) (p : PredicateId) : Domain × List (SortId × Nat) :=
  ((kb.predicate p).domain, (kb.predicate p).existentials)

/-- Where the predicates are the same, so is what has been made of them. -/
theorem SamePredicates.uses {kb' : KnowledgeBase} (h : SamePredicates kb kb') :
    kb'.uses p = kb.uses p := by
  rw [KnowledgeBase.uses, KnowledgeBase.uses, h.predicate]

/-- Nothing has been made of a new predicate. -/
theorem uses_push (kb : KnowledgeBase) (name : String) (signature : Signature) :
    ({ kb with predicates := kb.predicates.push { name, signature } } : KnowledgeBase).uses p =
      kb.uses p := by
  rw [uses, uses, predicate_push]
  split
  · rename_i hp
    rw [predicate_of_ge (Nat.le_of_eq hp.symm)]
    rfl
  · rfl

/-- A relation changes nothing of what has been made of predicates. -/
theorem uses_addRelation (kb : KnowledgeBase) (r : Relation) :
    (kb.addRelation r).uses p = kb.uses p := by
  rw [uses, uses, predicate_addRelation]

/-- A change that keeps domain and existentials keeps what has been made of every predicate. -/
theorem uses_modifyPredicate {f : Predicate → Predicate} (q : PredicateId)
    (hdomain : ∀ r, (f r).domain = r.domain)
    (hexistentials : ∀ r, (f r).existentials = r.existentials) :
    (kb.modifyPredicate q f).uses p = kb.uses p := by
  rw [uses, uses]
  rcases predicate_modifyPredicate kb f p q with h | h
  · rw [h]
  · rw [h, hdomain, hexistentials]

/-- No declaration makes anything of a predicate. -/
theorem Declaration.uses_perform (d : Declaration) (kb : KnowledgeBase) :
    (d.perform kb).uses p = kb.uses p := by
  cases d with
  | sort name parent instances =>
    exact ((preserves_registerSort name parent instances).stateAfter (SamePredicates.refl kb)).uses
  | subsort name parent => rfl
  | member s e => rfl
  | entity e s => exact ((preserves_declare e s).stateAfter (SamePredicates.refl kb)).uses
  | default e s => exact (samePredicates_ensureSort kb e s).uses
  -- a new predicate is the only one that gets something to be used, and nothing is made of it yet
  | predicate name signature =>
    show (((kb.definePredicate name signature).toOption.map Prod.snd).getD kb).uses p = _
    unfold definePredicate
    cases kb.predicateNamed? name with
    | some q => rfl
    | none => exact uses_push kb name signature
  | relation kind specific general =>
    show ((kb.relate kind specific general).toOption.getD kb).uses p = _
    unfold relate
    cases kb.checkRelation specific general with
    | error e => rfl
    | ok _ => exact uses_addRelation kb _
  | exclusion q r =>
    show ((kb.exclude q r).toOption.getD kb).uses p = _
    unfold exclude
    cases kb.checkRelation q r with
    | error e => rfl
    | ok _ =>
      cases kb.checkRelation r q with
      | error e => rfl
      | ok _ => exact (uses_addRelation _ _).trans (uses_addRelation kb _)
  | existence q => rfl
  | quiet q b => exact uses_modifyPredicate q (fun _ => rfl) fun _ => rfl
  | implicitSubject q b => exact uses_modifyPredicate q (fun _ => rfl) fun _ => rfl

/-- What has only been declared has not been called. -/
theorem Declared.uses (h : Declared kb) : kb.uses p = ({}, []) := by
  induction h with
  | start root => rfl
  | declaration hkb d ih => rw [d.uses_perform, ih]

end KnowledgeBase

end Storyworld
