import Storyworld.Proofs.Knowledge.Development
import Storyworld.Proofs.Knowledge.Links

namespace Storyworld

/-!
# What calls leave in a knowledge base

Calls register entities and put arguments into domains, and leave everything else as it is
(`Grows`). A relation between two predicates makes a link of the calls on the same arguments
(`Relates`), and goes on to do so. A call adds to one domain, so that fewer predicates are left
that the same arguments can be put into (`missing`).
-/

namespace KnowledgeBase

variable {kb kb' kb'' : KnowledgeBase} {p q : Nat} {args args' : Arguments} {a : Nat}

/-! ### Knowledge bases that grow -/

/-- Only entities were registered and arguments put into domains. -/
structure Grows (kb kb' : KnowledgeBase) : Prop where
  stays : Extends kb kb'
  sorts : kb'.taxonomy.size = kb.taxonomy.size
  size : kb'.predicates.size = kb.predicates.size
  name : ∀ p, (kb'.predicate p).name = (kb.predicate p).name
  signature : ∀ p, (kb'.predicate p).signature = (kb.predicate p).signature
  relations : kb'.relations = kb.relations
  atoms : ∀ p args a, kb.atom? p args = some a → kb'.atom? p args = some a

theorem Grows.refl (kb : KnowledgeBase) : Grows kb kb :=
  ⟨Extends.refl kb, rfl, rfl, fun _ => rfl, fun _ => rfl, rfl, fun _ _ _ h => h⟩

theorem Grows.trans (h : Grows kb kb') (h' : Grows kb' kb'') : Grows kb kb'' where
  stays := h.stays.trans h'.stays
  sorts := h'.sorts.trans h.sorts
  size := h'.size.trans h.size
  name p := (h'.name p).trans (h.name p)
  signature p := (h'.signature p).trans (h.signature p)
  relations := h'.relations.trans h.relations
  atoms p args a ha := h'.atoms p args a (h.atoms p args a ha)

/-- To register entities puts no arguments into domains. -/
theorem Enrolls.grows (h : Enrolls kb kb') : Grows kb kb' where
  stays := h.stays
  sorts := h.sorts
  size := congrArg Array.size h.same.predicates
  name _ := by rw [h.same.predicate]
  signature _ := by rw [h.same.predicate]
  relations := h.same.relations
  atoms p args _ ha := by
    rw [atom?, h.same.predicate]
    exact ha

/-- The arguments belong to the domain of the predicate. -/
def Called (kb : KnowledgeBase) (p : PredicateId) (args : Arguments) : Prop :=
  ∃ a, kb.atom? p args = some a

/-- Only predicates there are have been called. -/
theorem lt_of_atom? (h : kb.atom? p args = some a) : p < kb.predicates.size := by
  rcases Nat.lt_or_ge p kb.predicates.size with hlt | hge
  · exact hlt
  · rw [atom?, predicate_of_ge hge] at h
    rw [show (default : Predicate).domain = default from rfl, Domain.get?_default] at h
    cases h

/-! ### One more call -/

/-- The knowledge base with arguments put into the domain of a predicate. -/
def enter (kb : KnowledgeBase) (p : PredicateId) (args : Arguments) (a : Atom) : KnowledgeBase :=
  kb.modifyPredicate p fun q => { q with domain := (q.domain.insert args a).2 }

/-- A call makes no predicate. -/
theorem size_enter : (kb.enter p args a).predicates.size = kb.predicates.size := Array.size_modify

/-- A call changes a predicate in its domain only. -/
theorem predicate_enter (kb : KnowledgeBase) (p q : PredicateId) (args : Arguments) (a : Atom) :
    ((kb.enter p args a).predicate q).name = (kb.predicate q).name ∧
      ((kb.enter p args a).predicate q).signature = (kb.predicate q).signature ∧
      ((kb.enter p args a).predicate q).existentials = (kb.predicate q).existentials := by
  rcases predicate_modifyPredicate kb (fun q => { q with domain := (q.domain.insert args a).2 }) q p
    with h | h
  · rw [enter, h]
    exact ⟨rfl, rfl, rfl⟩
  · rw [enter, h]
    exact ⟨rfl, rfl, rfl⟩

/-- A call that is entered is remembered with its atom. -/
theorem atom?_enter_self (hp : p < kb.predicates.size) (hnone : kb.atom? p args = none) :
    (kb.enter p args a).atom? p args = some a := by
  rw [atom?, enter, predicate_modify_self _ hp]
  exact Domain.get?_insert_self hnone a

/-- Other calls are remembered as they were. -/
theorem atom?_enter_of_ne (h : (p, args) ≠ (q, args')) :
    (kb.enter p args a).atom? q args' = kb.atom? q args' := by
  rw [atom?, atom?]
  rcases predicate_modifyPredicate kb (fun q => { q with domain := (q.domain.insert args a).2 }) q p
    with he | he
  · rw [enter, he]
  · rw [enter, he]
    -- another predicate, or other arguments of the same one
    by_cases hpq : p = q
    · exact Domain.get?_insert_of_ne (fun e => h (Prod.ext hpq e)) a
    · rw [← he, predicate_modify_of_ne _ hpq]

/-- What has an atom after a call had it before, or is the call. -/
theorem atom?_enter_cases {b : Nat} (hp : p < kb.predicates.size)
    (hnone : kb.atom? p args = none) (h : (kb.enter p args a).atom? q args' = some b) :
    (q = p ∧ args' = args ∧ b = a) ∨ kb.atom? q args' = some b := by
  by_cases he : (p, args) = (q, args')
  · obtain ⟨rfl, rfl⟩ := Prod.mk.inj he
    rw [atom?_enter_self hp hnone] at h
    exact Or.inl ⟨rfl, rfl, (Option.some.inj h).symm⟩
  · rw [atom?_enter_of_ne he] at h
    exact Or.inr h

/-- A call changes nothing of what is admitted. -/
theorem admits_enter : (kb.enter p args a).admits q args' = kb.admits q args' := by
  show (kb.enter p args a).fits _ args' = kb.fits _ args'
  rw [(predicate_enter kb p q args a).2.1]
  rfl

/-- A new call is growth. -/
theorem grows_enter (hnone : kb.atom? p args = none) (a : Atom) :
    Grows kb (kb.enter p args a) where
  stays := ⟨Taxonomy.Extends.refl _, fun _ _ h => h⟩
  sorts := rfl
  size := size_enter
  name q := (predicate_enter kb p q args a).1
  signature q := (predicate_enter kb p q args a).2.1
  relations := rfl
  atoms q args' b hb := by
    -- the new entry is for a call that had none, so no other entry is written over
    have hne : (p, args) ≠ (q, args') := by
      intro e
      obtain ⟨rfl, rfl⟩ := Prod.mk.inj e
      rw [hnone] at hb
      cases hb
    rw [atom?_enter_of_ne hne, hb]

/-- A call leaves relations and signatures in order. -/
theorem Orderly.enter (hkb : kb.Orderly) (p : PredicateId) (args : Arguments) (a : Atom) :
    (kb.enter p args a).Orderly := hkb.modifyPredicate p fun _ => ⟨rfl, rfl⟩

/-! ### How many calls are left -/

/-- The number of predicates that have not been called on the arguments. -/
def missing (kb : KnowledgeBase) (args : Arguments) : Nat :=
  (List.range kb.predicates.size).countP fun p => (kb.atom? p args).isNone

/-- At most all predicates are left. -/
theorem missing_le (kb : KnowledgeBase) (args : Arguments) :
    kb.missing args ≤ kb.predicates.size := by
  have hle := List.countP_le_length (p := fun p => (kb.atom? p args).isNone)
    (l := List.range kb.predicates.size)
  rwa [List.length_range] at hle

/-- One is left if there is one that the arguments are not in the domain of. -/
theorem missing_pos (hp : p < kb.predicates.size) (hnone : kb.atom? p args = none) :
    0 < kb.missing args :=
  List.countP_pos_iff.2 ⟨p, List.mem_range.2 hp, by rw [hnone]; rfl⟩

/-- What is not remembered now was not remembered before. -/
theorem Grows.isNone (h : Grows kb kb') (hnone : (kb'.atom? p args).isNone = true) :
    (kb.atom? p args).isNone = true := by
  cases hold : kb.atom? p args with
  | none => rfl
  | some a =>
    rw [h.atoms p args a hold] at hnone
    cases hnone

/-- The fewer predicates are left the more was called. -/
theorem Grows.missing (h : Grows kb kb') (args : Arguments) :
    kb'.missing args ≤ kb.missing args := by
  rw [KnowledgeBase.missing, KnowledgeBase.missing, h.size]
  exact List.countP_mono_left fun p _ => h.isNone

/-- A call that was not made before leaves one less to be made. -/
theorem Grows.missing_lt (h : Grows kb kb') (hp : p < kb.predicates.size)
    (hnone : kb.atom? p args = none) (hsome : kb'.atom? p args = some a) :
    kb'.missing args < kb.missing args := by
  -- counted before the predicate, at it and after it
  obtain ⟨before, after, hrange⟩ := List.append_of_mem (List.mem_range.2 hp)
  have hle : ∀ xs : List Nat, xs.countP (fun q => (kb'.atom? q args).isNone) ≤
      xs.countP fun q => (kb.atom? q args).isNone :=
    fun xs => List.countP_mono_left fun q _ => h.isNone
  have hbefore := hle before
  have hafter := hle after
  rw [KnowledgeBase.missing, KnowledgeBase.missing, h.size, hrange, List.countP_append,
    List.countP_append, List.countP_cons, List.countP_cons, hnone, hsome]
  simp only [Option.isNone_some, Option.isNone_none, if_true, Bool.false_eq_true, if_false]
  omega

/-! ### Relations between calls -/

/-- The predicates related to one are those of its relations. -/
theorem mem_related {kind : RelationKind} :
    q ∈ kb.related kind p ↔ ⟨kind, p, q⟩ ∈ kb.relations := by
  rw [related, List.mem_map]
  constructor
  · rintro ⟨⟨k, s, g⟩, hr, rfl⟩
    obtain ⟨hmem, he⟩ := List.mem_filter.1 hr
    obtain ⟨rfl, rfl⟩ := of_decide_eq_true he
    exact hmem
  · intro hr
    exact ⟨_, List.mem_filter.2 ⟨hr, decide_eq_true ⟨rfl, rfl⟩⟩, rfl⟩

/-- Strong specializations are strong relations, seen from the other end. -/
theorem mem_strongSpecializations :
    q ∈ kb.strongSpecializations p ↔ ⟨.strong, q, p⟩ ∈ kb.relations := by
  rw [strongSpecializations, List.mem_map]
  constructor
  · rintro ⟨⟨k, s, g⟩, hr, rfl⟩
    obtain ⟨hmem, he⟩ := List.mem_filter.1 hr
    obtain ⟨rfl, rfl⟩ := of_decide_eq_true he
    exact hmem
  · intro hr
    exact ⟨_, List.mem_filter.2 ⟨hr, decide_eq_true ⟨rfl, rfl⟩⟩, rfl⟩

/-- An exclusion bears on a call if the predicate that is excluded admits the arguments; other
relations do in any case. -/
def Bears (kb : KnowledgeBase) (r : Relation) (args : Arguments) : Prop :=
  r.kind = .negative → kb.admits r.general args = true

/-- The link is between the atoms of the two predicates on the arguments. -/
structure Relates (kb : KnowledgeBase) (r : Relation) (args : Arguments) (l : Link) : Prop where
  kind : l.kind = r.kind
  specific : kb.atom? r.specific args = some l.specific
  general : kb.atom? r.general args = some l.general

variable {r : Relation} {l : Link}

/-- A relation goes on to make the same link. -/
theorem Grows.relates (h : Grows kb kb') (hl : kb.Relates r args l) : kb'.Relates r args l :=
  ⟨hl.kind, h.atoms _ _ _ hl.specific, h.atoms _ _ _ hl.general⟩

/-- Whether a relation bears on a call is settled once the entities are registered. -/
theorem Extends.bears_iff (h : Extends kb kb') (hkb : kb.Placed) (hargs : kb.Registered args)
    (hsignature : (kb'.predicate r.general).signature = (kb.predicate r.general).signature) :
    kb'.Bears r args ↔ kb.Bears r args := by
  rw [Bears, Bears, h.admits hkb hargs hsignature]

end KnowledgeBase

end Storyworld
