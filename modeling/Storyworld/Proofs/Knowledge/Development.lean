import Storyworld.Proofs.Knowledge.Sorts

namespace Storyworld

/-!
# How declarations develop a knowledge base

A declaration that names sorts and predicates there are keeps a knowledge base in order
(`Orderly`) and only adds to it (`Develops`): predicates keep their names, signatures and
domains, relations stay, and a relation is new only where nothing has been called.
-/

namespace KnowledgeBase

open Action

variable {kb kb' kb'' : KnowledgeBase} {p q : Nat} {args : Arguments}

/-- The atom of a call that was made. -/
def atom? (kb : KnowledgeBase) (p : PredicateId) (args : Arguments) : Option Atom :=
  (kb.predicate p).domain.get? args

/-- Different predicates have different names, and relations and signatures are about predicates
and sorts there are. -/
structure Orderly (kb : KnowledgeBase) : Prop extends Placed kb where
  names : ∀ p q : Nat, p < kb.predicates.size → q < kb.predicates.size →
    (kb.predicate p).name = (kb.predicate q).name → p = q
  signatures : ∀ p : Nat, p < kb.predicates.size →
    ∀ s ∈ (kb.predicate p).signature.sorts, s < kb.taxonomy.size
  relations : ∀ r ∈ kb.relations, r.specific < kb.predicates.size ∧ r.general < kb.predicates.size

/-- The second knowledge base comes from the first by additions. A relation is added only where
its specific predicate has not been called. -/
structure Develops (kb kb' : KnowledgeBase) : Prop where
  stays : Extends kb kb'
  size : kb.predicates.size ≤ kb'.predicates.size
  name : ∀ p : Nat, p < kb.predicates.size → (kb'.predicate p).name = (kb.predicate p).name
  signature : ∀ p : Nat, p < kb.predicates.size →
    (kb'.predicate p).signature = (kb.predicate p).signature
  uses : ∀ p, kb'.uses p = kb.uses p
  relations : ∀ r ∈ kb.relations, r ∈ kb'.relations
  unused : ∀ r ∈ kb'.relations, r ∈ kb.relations ∨ ∀ args, kb.atom? r.specific args = none

/-- A declaration is valid if the sorts and predicates that it gives by number exist. -/
def Declaration.Valid (kb : KnowledgeBase) : Declaration → Prop
  | .sort _ _ _ => True
  | .subsort _ parent => parent < kb.taxonomy.size
  | .member s _ => s < kb.taxonomy.size
  | .entity _ s => s < kb.taxonomy.size
  | .default _ s => s < kb.taxonomy.size
  | .predicate _ signature => ∀ s ∈ signature.sorts, s < kb.taxonomy.size
  | .relation _ specific general =>
    specific < kb.predicates.size ∧ general < kb.predicates.size
  | .exclusion p q => p < kb.predicates.size ∧ q < kb.predicates.size
  | .existence p => p < kb.predicates.size
  | .quiet p _ => p < kb.predicates.size
  | .implicitSubject p _ => p < kb.predicates.size

instance (kb : KnowledgeBase) : (d : Declaration) → Decidable (d.Valid kb)
  | .sort _ _ _ => isTrue trivial
  | .subsort _ s | .member s _ | .entity _ s | .default _ s =>
    inferInstanceAs (Decidable (s < kb.taxonomy.size))
  | .predicate _ signature =>
    inferInstanceAs (Decidable (∀ s ∈ signature.sorts, s < kb.taxonomy.size))
  | .relation _ p q | .exclusion p q =>
    inferInstanceAs (Decidable (p < kb.predicates.size ∧ q < kb.predicates.size))
  | .existence p | .quiet p _ | .implicitSubject p _ =>
    inferInstanceAs (Decidable (p < kb.predicates.size))

/-- Each of the declarations is valid where it is made. -/
def Declaration.ValidAll : List Declaration → KnowledgeBase → Prop
  | [], _ => True
  | d :: ds, kb => d.Valid kb ∧ ValidAll ds (d.perform kb)

instance Declaration.decidableValidAll : (ds : List Declaration) → (kb : KnowledgeBase) →
    Decidable (ValidAll ds kb)
  | [], _ => isTrue trivial
  | d :: ds, kb =>
    have : Decidable (ValidAll ds (d.perform kb)) := decidableValidAll ds _
    inferInstanceAs (Decidable (d.Valid kb ∧ ValidAll ds (d.perform kb)))

/-- Declarations call nothing and take no call back. -/
theorem Develops.atom? (h : Develops kb kb') (p : PredicateId) (args : Arguments) :
    kb'.atom? p args = kb.atom? p args :=
  congrArg (fun u : Domain × List (SortId × Nat) => u.1.get? args) (h.uses p)

theorem Develops.refl (kb : KnowledgeBase) : Develops kb kb where
  stays := Extends.refl kb
  size := Nat.le_refl _
  name _ _ := rfl
  signature _ _ := rfl
  uses _ := rfl
  relations _ hr := hr
  unused _ hr := Or.inl hr

theorem Develops.trans (h : Develops kb kb') (h' : Develops kb' kb'') : Develops kb kb'' where
  stays := h.stays.trans h'.stays
  size := Nat.le_trans h.size h'.size
  name p hp := (h'.name p (Nat.lt_of_lt_of_le hp h.size)).trans (h.name p hp)
  signature p hp := (h'.signature p (Nat.lt_of_lt_of_le hp h.size)).trans (h.signature p hp)
  uses p := (h'.uses p).trans (h.uses p)
  relations r hr := h'.relations r (h.relations r hr)
  unused r hr := by
    rcases h'.unused r hr with hr | hnone
    · exact h.unused r hr
    · exact Or.inr fun args => (h.atom? r.specific args).symm.trans (hnone args)

/-! ### Sorts and entities -/

/-- To register sorts and entities is development. -/
theorem Registers.develops (h : Registers kb kb') : Develops kb kb' where
  stays := h.stays
  size := Nat.le_of_eq (congrArg Array.size h.same.predicates).symm
  name p _ := by rw [h.same.predicate]
  signature p _ := by rw [h.same.predicate]
  uses p := h.same.uses
  relations r hr := by rwa [h.same.relations]
  unused r hr := Or.inl (by rwa [← h.same.relations])

/-- To register sorts and entities keeps relations and signatures in order. -/
theorem Orderly.registers (hkb : kb.Orderly) (h : Registers kb kb') : kb'.Orderly where
  toPlaced := h.placed
  names p q := by
    rw [h.same.predicates, h.same.predicate, h.same.predicate]
    exact hkb.names p q
  signatures p hp s hs := by
    rw [h.same.predicates] at hp
    rw [h.same.predicate] at hs
    exact h.size (hkb.signatures p hp s hs)
  relations := by
    rw [h.same.predicates, h.same.relations]
    exact hkb.relations

/-! ### Predicates and relations -/

/-- A new predicate has been neither called nor related. -/
theorem develops_push (kb : KnowledgeBase) (name : String) (signature : Signature) :
    Develops kb { kb with predicates := kb.predicates.push { name, signature } } where
  stays := ⟨Taxonomy.Extends.refl _, fun _ _ h => h⟩
  size := by simp
  name p hp := by rw [predicate_push, if_neg (Nat.ne_of_lt hp)]
  signature p hp := by rw [predicate_push, if_neg (Nat.ne_of_lt hp)]
  uses p := uses_push kb name signature
  relations r hr := hr
  unused r hr := Or.inl hr

/-- A new predicate has a name that no other has. -/
theorem Orderly.push (hkb : kb.Orderly) {name : String} {signature : Signature}
    (hname : kb.predicateNamed? name = none)
    (hsignature : ∀ s ∈ signature.sorts, s < kb.taxonomy.size) :
    ({ kb with predicates := kb.predicates.push { name, signature } } : KnowledgeBase).Orderly where
  toPlaced := ⟨hkb.tree, hkb.sorts⟩
  names p q hp hq h := by
    -- no predicate there was has the name
    have hother : ∀ r : Nat, r < kb.predicates.size → (kb.predicate r).name ≠ name := by
      intro r hr e
      have hnone := Array.findIdx?_eq_none_iff.1 hname kb.predicates[r] (Array.getElem_mem hr)
      rw [predicate_of_lt hr] at e
      rw [e, beq_self_eq_true] at hnone
      cases hnone
    have hp : p < kb.predicates.size + 1 := by simpa using hp
    have hq : q < kb.predicates.size + 1 := by simpa using hq
    rw [predicate_push, predicate_push] at h
    rcases Nat.lt_succ_iff_lt_or_eq.1 hp with hp | rfl
    · rw [if_neg (Nat.ne_of_lt hp)] at h
      rcases Nat.lt_succ_iff_lt_or_eq.1 hq with hq | rfl
      · rw [if_neg (Nat.ne_of_lt hq)] at h
        exact hkb.names p q hp hq h
      · rw [if_pos rfl] at h
        exact absurd h (hother p hp)
    · rw [if_pos rfl] at h
      rcases Nat.lt_succ_iff_lt_or_eq.1 hq with hq | rfl
      · rw [if_neg (Nat.ne_of_lt hq)] at h
        exact absurd h.symm (hother q hq)
      · rfl
  signatures p hp s hs := by
    have hp : p < kb.predicates.size + 1 := by simpa using hp
    rw [predicate_push] at hs
    split at hs
    · exact hsignature s hs
    · rename_i hne
      exact hkb.signatures p (Nat.lt_of_le_of_ne (Nat.lt_succ_iff.1 hp) hne) s hs
  relations r hr := by
    have hlt := hkb.relations r hr
    rw [Array.size_push]
    exact ⟨Nat.lt_succ_of_lt hlt.1, Nat.lt_succ_of_lt hlt.2⟩

/-- A relation is added beside the others. -/
theorem mem_relations_addRelation (kb : KnowledgeBase) (r r' : Relation) :
    r' ∈ (kb.addRelation r).relations ↔ r' ∈ kb.relations ∨ r' = r := by
  unfold addRelation
  split
  · rename_i hr
    exact (or_iff_left_of_imp fun e => e ▸ hr).symm
  · show r' ∈ kb.relations ++ [r] ↔ _
    rw [List.mem_append, List.mem_singleton]

/-- A relation changes nothing but the relations. -/
theorem addRelation_frame (kb : KnowledgeBase) (r : Relation) :
    ∃ relations, kb.addRelation r = { kb with relations } := by
  unfold addRelation
  split
  · exact ⟨kb.relations, rfl⟩
  · exact ⟨_, rfl⟩

/-- A relation may be added where its specific predicate has not been called. -/
theorem develops_addRelation {r : Relation} (hr : ∀ args, kb.atom? r.specific args = none) :
    Develops kb (kb.addRelation r) := by
  have hmem := mem_relations_addRelation kb r
  obtain ⟨relations, h⟩ := addRelation_frame kb r
  rw [h] at hmem ⊢
  exact
    { Develops.refl kb with
      stays := ⟨Taxonomy.Extends.refl _, fun _ _ h => h⟩
      relations := fun r' hr' => (hmem r').2 (Or.inl hr')
      unused := by
        intro r' hr'
        -- the new relation is about a predicate that has not been called
        rcases (hmem r').1 hr' with hold | rfl
        · exact Or.inl hold
        · exact Or.inr hr }

/-- A relation between predicates there are is in order. -/
theorem Orderly.addRelation (hkb : kb.Orderly) {r : Relation}
    (hr : r.specific < kb.predicates.size ∧ r.general < kb.predicates.size) :
    (kb.addRelation r).Orderly := by
  have hmem := mem_relations_addRelation kb r
  obtain ⟨relations, h⟩ := addRelation_frame kb r
  rw [h] at hmem ⊢
  exact
    { hkb with
      relations := fun r' hr' => ((hmem r').1 hr').elim (hkb.relations r') fun e => e ▸ hr }

/-- A relation is declared only of a predicate that has not been called. -/
theorem checkRelation_eq_ok (h : kb.checkRelation p q = .ok ()) (args : Arguments) :
    kb.atom? p args = none := by
  unfold checkRelation at h
  dsimp only at h
  split at h
  · cases h
  · rename_i hsize
    exact Domain.size_eq_zero_iff.1 (Decidable.not_not.1 hsize) args

/-- A predicate that is defined over sorts there are is in order, and its name was free. -/
theorem definePredicate_eq_ok (hkb : kb.Orderly) {name : String} {signature : Signature}
    (hsignature : ∀ s ∈ signature.sorts, s < kb.taxonomy.size)
    (h : kb.definePredicate name signature = .ok (p, kb')) : Develops kb kb' ∧ kb'.Orderly := by
  unfold definePredicate at h
  split at h
  · cases h
  · rename_i hname
    cases h
    exact ⟨develops_push kb name signature, hkb.push hname hsignature⟩

/-- A relation is accepted only where the specific predicate has not been called. -/
theorem relate_eq_ok (hkb : kb.Orderly) {kind : RelationKind}
    (hpq : p < kb.predicates.size ∧ q < kb.predicates.size) (h : kb.relate kind p q = .ok kb') :
    Develops kb kb' ∧ kb'.Orderly := by
  unfold relate at h
  cases hcheck : kb.checkRelation p q with
  | error e =>
    rw [hcheck] at h
    cases h
  | ok _ =>
    rw [hcheck] at h
    cases h
    exact ⟨develops_addRelation (checkRelation_eq_ok hcheck), hkb.addRelation hpq⟩

/-- The second of two exclusions is declared of what the first has left. -/
theorem exclude_eq_ok (hkb : kb.Orderly)
    (hpq : p < kb.predicates.size ∧ q < kb.predicates.size) (h : kb.exclude p q = .ok kb') :
    Develops kb kb' ∧ kb'.Orderly := by
  unfold exclude at h
  cases hp : kb.checkRelation p q with
  | error e =>
    rw [hp] at h
    cases h
  | ok _ =>
    cases hq : kb.checkRelation q p with
    | error e =>
      rw [hp, hq] at h
      cases h
    | ok _ =>
      rw [hp, hq] at h
      cases h
      have hfirst : Develops kb (kb.addRelation ⟨.negative, p, q⟩) :=
        develops_addRelation (checkRelation_eq_ok hp)
      have horder : (kb.addRelation ⟨.negative, p, q⟩).Orderly := hkb.addRelation hpq
      refine ⟨hfirst.trans (develops_addRelation fun args => ?_), horder.addRelation ?_⟩
      · -- the first exclusion has called nothing
        rw [hfirst.atom?]
        exact checkRelation_eq_ok hq args
      · exact ⟨Nat.lt_of_lt_of_le hpq.2 hfirst.size, Nat.lt_of_lt_of_le hpq.1 hfirst.size⟩

/-- What is kept of a predicate whatever its facts look like in summaries. -/
theorem develops_modifyPredicate (r : PredicateId) {f : Predicate → Predicate}
    (hf : ∀ q, (f q).name = q.name ∧ (f q).signature = q.signature ∧ (f q).domain = q.domain ∧
      (f q).existentials = q.existentials) : Develops kb (kb.modifyPredicate r f) where
  stays := ⟨Taxonomy.Extends.refl _, fun _ _ h => h⟩
  size := Nat.le_of_eq Array.size_modify.symm
  name p _ := by
    rcases predicate_modifyPredicate kb f p r with h | h
    · rw [h]
    · rw [h, (hf _).1]
  signature p _ := by
    rcases predicate_modifyPredicate kb f p r with h | h
    · rw [h]
    · rw [h, (hf _).2.1]
  uses p := uses_modifyPredicate r (fun q => (hf q).2.2.1) fun q => (hf q).2.2.2
  relations r hr := hr
  unused r hr := Or.inl hr

/-- A change that keeps name and signature keeps the order. -/
theorem Orderly.modifyPredicate (hkb : kb.Orderly) (r : PredicateId) {f : Predicate → Predicate}
    (hf : ∀ q, (f q).name = q.name ∧ (f q).signature = q.signature) :
    (kb.modifyPredicate r f).Orderly := by
  have hsize : (kb.modifyPredicate r f).predicates.size = kb.predicates.size := Array.size_modify
  have hname : ∀ p, ((kb.modifyPredicate r f).predicate p).name = (kb.predicate p).name := by
    intro p
    rcases predicate_modifyPredicate kb f p r with h | h
    · rw [h]
    · rw [h, (hf _).1]
  have hsignature : ∀ p,
      ((kb.modifyPredicate r f).predicate p).signature = (kb.predicate p).signature := by
    intro p
    rcases predicate_modifyPredicate kb f p r with h | h
    · rw [h]
    · rw [h, (hf _).2]
  -- order is about sizes, names and signatures, and these are as before
  refine ⟨⟨hkb.tree, hkb.sorts⟩, fun p q => ?_, fun p => ?_, fun r' hr' => ?_⟩
  · rw [hsize, hname, hname]
    exact hkb.names p q
  · rw [hsize, hsignature]
    exact hkb.signatures p
  · rw [hsize]
    exact hkb.relations r' hr'

/-! ### Declarations -/

/-- What is refused leaves the knowledge base as it was. -/
theorem toOption_getD {α : Type} {x : Except Error α} {a : α} {P : α → Prop} (ha : P a)
    (h : ∀ b, x = .ok b → P b) : P (x.toOption.getD a) := by
  cases x with
  | error e => exact ha
  | ok b => exact h b rfl

/-- A valid declaration develops a knowledge base, and keeps it in order. -/
theorem Declaration.develops (d : Declaration) (hd : d.Valid kb) (hkb : kb.Orderly) :
    Develops kb (d.perform kb) ∧ (d.perform kb).Orderly := by
  -- what is refused, and what only registers entities
  have hrefused : Develops kb kb ∧ kb.Orderly := ⟨Develops.refl kb, hkb⟩
  have hregisters : ∀ kb', Registers kb kb' → Develops kb kb' ∧ kb'.Orderly :=
    fun kb' h => ⟨h.develops, hkb.registers h⟩
  cases d with
  | sort name parent instances =>
    exact hregisters _ (after_registerSort hkb.toPlaced name parent instances).stateAfter
  | subsort name parent =>
    refine hregisters _ ?_
    show Registers kb { kb with
      taxonomy := ((kb.taxonomy.add name parent).toOption.map Prod.snd).getD kb.taxonomy }
    cases hadd : kb.taxonomy.add name parent with
    | error e => exact Registers.refl hkb.toPlaced
    | ok added => exact registers_add (t := added.2) hkb.toPlaced hd hadd
  | member s e => exact hregisters _ (registers_pushInstance hkb.toPlaced s e)
  | entity e s =>
    exact hregisters _ ((preserves_registers_declare e hd).stateAfter (Registers.refl hkb.toPlaced))
  | default e s => exact hregisters _ (enrolls_ensureSort hkb.toPlaced e hd).toRegisters
  | predicate name signature =>
    show Develops kb (((kb.definePredicate name signature).toOption.map Prod.snd).getD kb) ∧
      (((kb.definePredicate name signature).toOption.map Prod.snd).getD kb).Orderly
    cases h : kb.definePredicate name signature with
    | error e => exact hrefused
    | ok defined => exact definePredicate_eq_ok (p := defined.1) hkb hd h
  | relation kind specific general =>
    exact toOption_getD (P := fun kb' => Develops kb kb' ∧ kb'.Orderly) hrefused
      fun _ => relate_eq_ok hkb hd
  | exclusion p q =>
    exact toOption_getD (P := fun kb' => Develops kb kb' ∧ kb'.Orderly) hrefused
      fun _ => exclude_eq_ok hkb hd
  | existence p =>
    exact ⟨{ Develops.refl kb with stays := ⟨Taxonomy.Extends.refl _, fun _ _ h => h⟩ },
      { hkb with }⟩
  | quiet p b =>
    exact ⟨develops_modifyPredicate p fun _ => ⟨rfl, rfl, rfl, rfl⟩,
      hkb.modifyPredicate p fun _ => ⟨rfl, rfl⟩⟩
  | implicitSubject p b =>
    exact ⟨develops_modifyPredicate p fun _ => ⟨rfl, rfl, rfl, rfl⟩,
      hkb.modifyPredicate p fun _ => ⟨rfl, rfl⟩⟩

/-- At the start there is only the root sort. -/
theorem orderly_ofRoot (root : String) : (ofRoot root).Orderly where
  tree := Taxonomy.tree_ofRoot root
  sorts := nofun
  names p _ hp := absurd hp (Nat.not_lt_zero p)
  signatures p hp := absurd hp (Nat.not_lt_zero p)
  relations := nofun

end KnowledgeBase

end Storyworld
