import Storyworld.Phrase.Meaning
import Storyworld.Proofs.Knowledge.Grounding
import Storyworld.Proofs.Knowledge.Sorts

namespace Storyworld

/-!
# The steps that phrases come down to

Whatever a phrase leads to, in the end there are five kinds of steps: arguments are checked, a
predicate is changed, an atom is asked for by name, a head is declared and a constraint is asserted.
`Steps` has one law for each of them, whatever numbers predicates and sorts have and whether it is
refused or not, and from the laws follows that phrases preserve the invariant (`Steps.literalOf`).

The law for names may rely on one thing. A call is named after its arguments have been checked, so
each entity that a name mentions is registered by then (`after_checkArguments_registered`).
-/

/-- The proposition is a call that has the entity among its arguments. -/
def Proposition.Mentions (e : String) : Proposition → Prop
  | .word _ => False
  | .call c => Term.entity e ∈ c.args

theorem Proposition.mentions_terms {predicate e : String} {args : Arguments} :
    (Proposition.call ⟨predicate, args.terms⟩).Mentions e ↔ e ∈ args.entities := by
  show Term.entity e ∈ args.entities.map Term.entity ↔ _
  simp

/-- What is said of some member of a sort mentions no entity. -/
theorem Proposition.not_mentions_ofSort (predicate sort e : String) :
    ¬ (Proposition.ofSort predicate sort).Mentions e := by
  show Term.entity e ∉ [Term.sort sort]
  simp

namespace KnowledgeBase

open Action

variable {kb : KnowledgeBase} {args : Arguments} {e : String} {s : SortId}

/-- An entity is registered once its sort has been ensured, and so are those that were before. -/
theorem isSome_sortOf?_ensureSort (kb : KnowledgeBase) (entity : String) (s : SortId)
    (h : e = entity ∨ (kb.sortOf? e).isSome) : ((kb.ensureSort entity s).2.sortOf? e).isSome := by
  unfold ensureSort
  cases hentity : kb.sortOf? entity with
  | some d =>
    rcases h with rfl | h
    · exact Option.isSome_of_eq_some hentity
    · exact h
  | none =>
    -- the entity is new and is bound here, others keep what they had
    show ((kb.bind entity s).sortOf? e).isSome
    rw [sortOf?_bind, Option.isSome_or, Bool.or_eq_true]
    rcases h with rfl | h
    · exact Or.inr (by rw [if_pos rfl]; rfl)
    · exact Or.inl h

/-- **Arguments that pass the check are registered**, whatever sorts are required of them. -/
theorem after_checkArguments_registered (p : PredicateId) (args : Arguments) (kb : KnowledgeBase) :
    After (checkArguments p args) kb (fun _ kb' => kb'.Registered args) (fun _ _ => True) := by
  unfold checkArguments
  refine after_bind.2 (after_get.2 ?_)
  dsimp only
  split
  · trivial
  · rename_i harity
    refine (after_forM (I := fun xs kb' => ∀ x ∈ xs, (kb'.sortOf? x.2).isSome)
      (fun xs x rest _ t ht => ?_) nofun : After _ _ _ fun _ _ => True).imp_done
      fun _ kb' h e he => ?_
    · -- those that were checked before stay registered
      have hnext : ∀ y ∈ xs ++ [x], ((t.ensureSort x.2 x.1).2.sortOf? y.2).isSome := by
        intro y hy
        apply isSome_sortOf?_ensureSort
        rcases List.mem_append.1 hy with hy | hy
        · exact Or.inr (ht y hy)
        · exact Or.inl (by rw [List.mem_singleton.1 hy])
      refine after_bind.2 (after_modifyGet.2 (after_bind.2 (after_get.2 (after_ite.2 ?_))))
      split
      · exact after_pure.2 hnext
      · trivial
    · -- there is a sort for each of the arguments, since they are as many as the sorts
      have hlength : (kb.predicate p).signature.sorts.length = args.entities.length := by
        have harity := Decidable.not_not.1 harity
        cases hsignature : (kb.predicate p).signature <;> cases args <;>
          simp_all [Signature.arity, Arguments.arity, Signature.sorts, Arguments.entities]
      obtain ⟨i, hi, rfl⟩ := List.getElem_of_mem he
      have hzip : ((kb.predicate p).signature.sorts[i], args.entities[i]) ∈
          (kb.predicate p).signature.sorts.zip args.entities := by
        rw [← List.getElem_zip]
        apply List.getElem_mem
        rw [List.length_zip, hlength, Nat.min_self]
        exact hi
      exact h _ hzip

end KnowledgeBase

namespace Grounding

open Action KnowledgeBase

variable {ρ : Type} {P : Grounding ρ → Prop}

/-- The invariant is preserved by each step that calls, existentials and phrases are made of. -/
structure Steps (P : Grounding ρ → Prop) : Prop where
  checks : ∀ p args, Preserves P (onBase (checkArguments p args))
  /-- What changes of a predicate is neither its name nor its signature, and no existential is taken
  away. -/
  modifies : ∀ p f, (∀ q, (f q).name = q.name ∧ (f q).signature = q.signature ∧
    q.existentials ⊆ (f q).existentials) → Preserves P (modifyPredicate p f)
  /-- An atom is asked for by a name that mentions registered entities only. -/
  names : ∀ x g, (∀ e, x.Mentions e → (g.base.sortOf? e).isSome) → P g →
    P { g with solver := (g.solver.proposition x).2 }
  heads : ∀ a, Preserves P (onSolver (Solver.addHead a))
  asserts : ∀ c, Preserves P (assert c)

namespace Steps

/-- A name that mentions no entity can be asked for at any time. -/
theorem proposition (h : Steps P) {x : Proposition} (hx : ∀ e, ¬ x.Mentions e) :
    Preserves P (Grounding.proposition x) :=
  fun g hg => after_onSolver.2 (after_modifyGet.2 (h.names x g (fun e he => absurd he (hx e)) hg))

/-! ### Calls -/

theorem withdraw (h : Steps P) (p : PredicateId) (args : Arguments) (e : Error) :
    Preserves P (Grounding.withdraw p args e) := by
  refine (h.modifies p _ ?_).bind fun _ => preserves_throw e
  exact fun _ => ⟨rfl, rfl, List.Subset.refl _⟩

/-- To relate a call to others preserves the invariant, if the calls it makes do. -/
theorem relateCall (h : Steps P) {call : PredicateId → EStateM Error (Grounding ρ) Atom}
    (hcall : ∀ p, Preserves P (call p)) (p : PredicateId) (args : Arguments) (atom : Atom) :
    Preserves P (Grounding.relateCall call p args atom) := by
  -- what is done for one predicate in each of the loops
  have hgeneral : ∀ q, Preserves P (do
      let general ← call q
      assert (.implication (Literal.pos atom) (Literal.pos general))) :=
    fun q => (hcall q).bind fun _ => h.asserts _
  have hspecific : ∀ q, Preserves P (do
      if q ≠ p && (← get).base.admits q args then
        let _ ← call q) := by
    intro q
    refine preserves_get.bind fun t => ?_
    split
    · exact (hcall q).bind fun _ => preserves_pure _
    · exact preserves_pure _
  have hstrong : ∀ q, Preserves P (do
      let head ← call q
      assert (.rule head [Literal.pos atom])
      ((← get).base.strongSpecializations q).forM fun specific => do
        if specific ≠ p && (← get).base.admits specific args then
          let _ ← call specific) :=
    fun q => (hcall q).bind fun head => (h.asserts _).bind fun _ =>
      preserves_get.bind fun u => preserves_forM fun r _ => hspecific r
  have hnegative : ∀ q, Preserves P (do
      if (← get).base.admits q args then
        let other ← call q
        onSolver (Solver.inconsistent (Literal.pos atom) (Literal.pos other))) := by
    intro q
    refine preserves_get.bind fun t => ?_
    split
    · exact (hcall q).bind fun _ => h.asserts _
    · exact preserves_pure _
  -- the loops themselves, one after the other
  refine preserves_get.bind fun t => (preserves_forM fun q _ => hgeneral q).bind fun _ => ?_
  refine preserves_get.bind fun t => (preserves_forM fun q _ => hstrong q).bind fun _ => ?_
  refine preserves_get.bind fun t => (preserves_forM fun q _ => hnegative q).bind fun _ => ?_
  cases args with
  | two left right => exact preserves_pure _
  | one entity =>
    refine preserves_get.bind fun t => preserves_forM fun e _ => ?_
    refine preserves_get.bind fun u => (preserves_ofExcept _).bind fun b => ?_
    split
    · exact h.asserts _
    · exact preserves_pure _

/-- A call whose arguments are registered is put into the domain. -/
theorem after_enter (h : Steps P) {g : Grounding ρ} {args : Arguments} (hg : P g)
    (hargs : g.base.Registered args) (p : PredicateId) :
    After (Grounding.enter p args) g (fun _ t => P t) fun _ t => P t := by
  refine after_bind.2 (after_get.2 (after_bind.2 (after_onSolver.2 (after_modifyGet.2 ?_))))
  have hnamed := h.names (.call ⟨(g.base.predicate p).name, args.terms⟩) g
    (fun e he => hargs e (Proposition.mentions_terms.1 he)) hg
  refine ((h.modifies p _ ?_).bind fun _ => preserves_pure _) _ hnamed
  exact fun _ => ⟨rfl, rfl, List.Subset.refl _⟩

/-- A call preserves the invariant if what follows a new entry does. -/
theorem callWithin_of_related (h : Steps P) {depth : Nat} {args : Arguments} {p : PredicateId}
    (hrelated : ∀ atom : Atom, Preserves P (match depth with
      | 0 => return atom
      | depth + 1 => do
        tryCatch (Grounding.relateCall (Grounding.callWithin depth args) p args atom)
          (Grounding.withdraw p args)
        return atom)) :
    Preserves P (Grounding.callWithin depth args p) := by
  intro g hg
  have hchecked : After (onBase (checkArguments p args)) g
      (fun _ t => t.base.Registered args) fun _ _ => True :=
    after_onBase.2 (after_checkArguments_registered p args g.base)
  unfold Grounding.callWithin
  refine after_bind.2 (((h.checks p args g hg).and hchecked).mono (fun _ t ht => ?_)
    fun _ _ ht => ht.1)
  -- the check has passed, which registers the arguments: the law for names relies on it
  obtain ⟨ht, hargs⟩ := ht
  refine after_bind.2 (after_get.2 ?_)
  cases (t.base.predicate p).domain.get? args with
  | some atom => exact after_pure.2 ht
  | none =>
    exact after_bind.2 ((h.after_enter ht hargs p).imp_done fun atom u hu => hrelated atom u hu)

/-- Every call preserves the invariant, also one that is refused. -/
theorem callWithin (h : Steps P) (depth : Nat) (args : Arguments) (p : PredicateId) :
    Preserves P (Grounding.callWithin depth args p) := by
  induction depth generalizing p with
  | zero => exact h.callWithin_of_related fun atom => preserves_pure atom
  | succ depth ih =>
    refine h.callWithin_of_related fun atom => ?_
    exact ((h.relateCall ih p args atom).tryCatch fun e => h.withdraw p args e).bind fun _ =>
      preserves_pure atom

/-- Calls preserve the invariant. -/
theorem call (h : Steps P) (p : PredicateId) (args : Arguments) :
    Preserves P (Grounding.call p args) :=
  preserves_get.bind fun _ => h.callWithin _ args p

/-! ### Existentials and phrases -/

theorem openExistential (h : Steps P) (p : PredicateId) (sort : SortId) :
    Preserves P (Grounding.openExistential p sort) := by
  refine preserves_get.bind fun g => ?_
  refine (h.proposition fun e => Proposition.not_mentions_ofSort _ _ e).bind fun head => ?_
  refine (h.heads head).bind fun _ => (h.modifies p _ ?_).bind fun _ => preserves_pure head
  exact fun _ => ⟨rfl, rfl, List.subset_append_left _ _⟩

theorem existentialFrom (h : Steps P) {descend : Atom → EStateM Error (Grounding ρ) Unit}
    (hdescend : ∀ head, Preserves P (descend head)) (p : PredicateId) (sort : SortId) :
    Preserves P (Grounding.existentialFrom descend p sort) := by
  refine preserves_get.bind fun g => ?_
  dsimp only
  split
  · exact preserves_throw _
  · split
    · exact preserves_pure _
    · refine (h.openExistential p sort).bind fun head => (hdescend head).bind fun _ => ?_
      exact preserves_get.bind fun t =>
        (preserves_forM fun _ _ => h.asserts _).bind fun _ => preserves_pure head

theorem existentialWithin (h : Steps P) (depth : Nat) (p : PredicateId) (sort : SortId) :
    Preserves P (Grounding.existentialWithin depth p sort) := by
  induction depth generalizing sort with
  | zero => exact h.existentialFrom (fun _ => preserves_pure _) p sort
  | succ depth ih =>
    refine h.existentialFrom (fun head => preserves_get.bind fun g => ?_) p sort
    exact preserves_forM fun subsort _ => (ih subsort).bind fun _ => h.asserts _

/-- Existentials preserve the invariant. -/
theorem existential (h : Steps P) (p : PredicateId) (sort : SortId) :
    Preserves P (Grounding.existential p sort) :=
  preserves_get.bind fun _ => h.existentialWithin _ p sort

theorem wordAtom (h : Steps P) (w : String) : Preserves P (Grounding.wordAtom w) := by
  have hword : Preserves P (Grounding.proposition (.word w)) := h.proposition fun _ => not_false
  refine preserves_get.bind fun g => ?_
  dsimp only
  split
  · exact hword
  · split
    · exact h.call _ _
    · split
      · exact h.existential _ _
      · exact hword

theorem unaryAtom (h : Steps P) (p : PredicateId) (argument : String) :
    Preserves P (Grounding.unaryAtom p argument) := by
  refine preserves_get.bind fun g => ?_
  dsimp only
  split
  · exact h.existential _ _
  · exact h.call _ _

/-- **What each step preserves, phrases do.** -/
theorem literalOf (h : Steps P) (phrase : Phrase) : Preserves P (Grounding.literalOf phrase) := by
  induction phrase with
  | word w => exact (h.wordAtom w).bind fun _ => preserves_pure _
  | negation phrase ih => exact ih.bind fun _ => preserves_pure _
  | unary p argument => exact (h.unaryAtom p argument).bind fun _ => preserves_pure _
  | binary p left right => exact (h.call p _).bind fun _ => preserves_pure _

end Steps

end Grounding

end Storyworld
