import Storyworld.Proofs.Action
import Storyworld.Proofs.Knowledge.Declarations

namespace Storyworld

/-!
# Sorts and entities stay where they are

A sort keeps its parent and an entity keeps its sort, whatever is declared or registered later
(`Extends`). So what sorts an entity is of does not change, and whether a predicate admits
arguments does not change once their entities are registered (`Extends.admits`).
-/

/-! ### Sorts -/

namespace Taxonomy

variable {t u v : Taxonomy} {s : Nat}

/-- The sorts of the first are sorts of the second, with the same names and below the same
parents. -/
structure Extends (t u : Taxonomy) : Prop where
  size : t.size ≤ u.size
  parent : ∀ s : Nat, s < t.size → u.parent? s = t.parent? s
  name : ∀ s : Nat, s < t.size → u.name s = t.name s

/-- A sort has a larger number than its parent. -/
def Descending (t : Taxonomy) : Prop := ∀ s p : Nat, t.parent? s = some p → p < s

/-- A sort has a larger number than its parent, which lists it below itself, and no two sorts have
the same name. -/
structure Tree (t : Taxonomy) : Prop where
  descending : t.Descending
  mem_subsorts : ∀ s r : Nat, r ∈ t.subsorts s ↔ t.parent? r = some s
  names : ∀ s r : Nat, s < t.size → r < t.size → t.name s = t.name r → s = r

theorem Extends.refl (t : Taxonomy) : Extends t t :=
  ⟨Nat.le_refl _, fun _ _ => rfl, fun _ _ => rfl⟩

theorem Extends.trans (h : Extends t u) (h' : Extends u v) : Extends t v where
  size := Nat.le_trans h.size h'.size
  parent s hs := (h'.parent s (Nat.lt_of_lt_of_le hs h.size)).trans (h.parent s hs)
  name s hs := (h'.name s (Nat.lt_of_lt_of_le hs h.size)).trans (h.name s hs)

/-- The sorts above a sort do not depend on the bound, as long as that is large enough. -/
theorem Extends.ancestorsWithin (h : Extends t u) (ht : t.Descending) {m n : Nat}
    (hs : s < t.size) (hm : s < m) (hn : s < n) :
    u.ancestorsWithin m s = t.ancestorsWithin n s := by
  induction n generalizing m s with
  | zero => exact absurd hn (Nat.not_lt_zero s)
  | succ n ih =>
    obtain ⟨m, rfl⟩ : ∃ k, m = k + 1 := ⟨m - 1, by omega⟩
    rw [Taxonomy.ancestorsWithin, Taxonomy.ancestorsWithin, h.parent s hs]
    cases hp : t.parent? s with
    | none => rfl
    | some p =>
      -- the parent has a smaller number, so the bounds are large enough for it too
      have hlt : p < s := ht s p hp
      dsimp only
      rw [ih (Nat.lt_trans hlt hs) (Nat.lt_of_lt_of_le hlt (Nat.lt_succ_iff.1 hm))
        (Nat.lt_of_lt_of_le hlt (Nat.lt_succ_iff.1 hn))]

/-- Which of the earlier sorts are below which does not change, as their parents do not. -/
theorem Extends.isSubsort (h : Extends t u) (ht : t.Descending) (hs : s < t.size) (g : SortId) :
    u.isSubsort s g = t.isSubsort s g := by
  unfold Taxonomy.isSubsort ancestors
  rw [h.ancestorsWithin ht hs (Nat.lt_of_lt_of_le hs h.size) hs]

/-- Only a sort that there is has a parent. -/
theorem size_le_of_parent? {p : SortId} (h : t.parent? s = some p) : s < t.size := by
  rcases Nat.lt_or_ge s t.size with hlt | hge
  · exact hlt
  · rw [parent?, entry, Array.getElem?_eq_none hge] at h
    cases h

/-- The sorts above a sort are itself and those above its parent. -/
theorem Descending.mem_ancestors_iff (ht : t.Descending) (hs : s < t.size) {r : Nat} :
    r ∈ t.ancestors s ↔ r = s ∨ ∃ p : Nat, t.parent? s = some p ∧ r ∈ t.ancestors p := by
  obtain ⟨n, hn⟩ : ∃ n, t.size = n + 1 := ⟨t.size - 1, by omega⟩
  have hsn : s ≤ n := by omega
  rw [ancestors, hn, Taxonomy.ancestorsWithin]
  cases hp : t.parent? s with
  | none => simp
  | some p =>
    have hlt : p < s := ht s p hp
    have hbound : t.ancestorsWithin n p = t.ancestors p :=
      (Extends.refl t).ancestorsWithin ht (Nat.lt_trans hlt hs)
        (Nat.lt_of_lt_of_le hlt hsn) (Nat.lt_trans hlt hs)
    simp [hbound]

/-- **A sort lies below another if it is that one or lies below one of its subsorts.** -/
theorem Tree.isSubsort_iff (ht : t.Tree) (hs : s < t.size) {r : Nat} :
    t.isSubsort s r = true ↔ s = r ∨ ∃ c ∈ t.subsorts r, t.isSubsort s c = true := by
  unfold isSubsort
  simp only [decide_eq_true_eq, ht.mem_subsorts]
  -- the parent has a smaller number
  induction s using Nat.strongRecOn with
  | ind s ih =>
    rw [ht.descending.mem_ancestors_iff hs]
    have hself : s ∈ t.ancestors s := (ht.descending.mem_ancestors_iff hs).2 (Or.inl rfl)
    constructor
    · rintro (rfl | ⟨p, hp, hr⟩)
      · exact Or.inl rfl
      · have hlt := ht.descending s p hp
        rcases (ih p hlt (Nat.lt_trans hlt hs)).1 hr with rfl | ⟨c, hc, hmem⟩
        · exact Or.inr ⟨s, hp, hself⟩
        · exact Or.inr ⟨c, hc, (ht.descending.mem_ancestors_iff hs).2 (Or.inr ⟨p, hp, hmem⟩)⟩
    · rintro (rfl | ⟨c, hc, hmem⟩)
      · exact Or.inl rfl
      · rcases (ht.descending.mem_ancestors_iff hs).1 hmem with rfl | ⟨p, hp, hmem⟩
        · exact Or.inr ⟨r, hc, (ht.descending.mem_ancestors_iff
            (Nat.lt_trans (ht.descending c r hc) hs)).2 (Or.inl rfl)⟩
        · have hlt := ht.descending s p hp
          exact Or.inr ⟨p, hp, (ih p hlt (Nat.lt_trans hlt hs)).2 (Or.inr ⟨c, hc, hmem⟩)⟩

/-- What has no entry yet is read as an empty one. -/
theorem entry_of_ge {s : Nat} (hs : t.size ≤ s) : t.entry s = default := by
  rw [entry, Array.getElem?_eq_none hs]
  rfl

/-- To change the entry of a sort changes it if there is such a sort, and no other. -/
theorem entry_modify (t : Taxonomy) (p s : Nat) (f : SortEntry → SortEntry) :
    (⟨t.sorts.modify p f⟩ : Taxonomy).entry s =
      if p = s ∧ s < t.size then f (t.entry s) else t.entry s := by
  show (t.sorts.modify p f)[s]?.getD default = _
  rw [Array.getElem?_modify]
  by_cases hps : p = s
  · rw [if_pos hps]
    -- beyond the end nothing is changed, and the entry there is the default
    rcases Nat.lt_or_ge s t.size with hlt | hge
    · rw [if_pos ⟨hps, hlt⟩, entry, Array.getElem?_eq_getElem hlt]
      rfl
    · rw [if_neg fun h => Nat.not_lt_of_le hge h.2, entry_of_ge hge, Array.getElem?_eq_none hge]
      rfl
  · rw [if_neg hps, if_neg fun h => hps h.1]
    rfl

/-- An instance is added to the entry of its sort, and nothing else there changes. -/
theorem entry_pushInstance (t : Taxonomy) (p : SortId) (e : String) (s : Nat) :
    ∃ instances, (t.pushInstance p e).entry s = { t.entry s with instances } := by
  rw [pushInstance, entry_modify]
  split
  · exact ⟨_, rfl⟩
  · exact ⟨_, rfl⟩

/-- To note an entity at a sort leaves names and parents as they were. -/
theorem extends_pushInstance (t : Taxonomy) (s : SortId) (e : String) :
    Extends t (t.pushInstance s e) := by
  refine ⟨Nat.le_of_eq Array.size_modify.symm, fun q _ => ?_, fun q _ => ?_⟩
  all_goals
    obtain ⟨instances, h⟩ := t.entry_pushInstance s e q
  · rw [parent?, h, parent?]
  · rw [name, h, name]

/-- To note an entity at a sort leaves the sorts a tree. -/
theorem Tree.pushInstance (ht : t.Tree) (s : SortId) (e : String) : (t.pushInstance s e).Tree := by
  have hsize : (t.pushInstance s e).size = t.size := Array.size_modify
  have hentry := t.entry_pushInstance s e
  have hparent : ∀ q : Nat, (t.pushInstance s e).parent? q = t.parent? q := by
    intro q
    obtain ⟨instances, h⟩ := hentry q
    rw [parent?, h, parent?]
  -- the tree is made of parents, subsorts and names, and none of these is touched
  refine ⟨fun q p hp => ht.descending q p (hparent q ▸ hp), fun q r => ?_,
    fun q r hq hr hname => ?_⟩
  · obtain ⟨instances, h⟩ := hentry q
    rw [hparent, subsorts, h]
    exact ht.mem_subsorts q r
  · obtain ⟨_, hentryq⟩ := hentry q
    obtain ⟨_, hentryr⟩ := hentry r
    rw [hsize] at hq hr
    rw [name, name, hentryq, hentryr] at hname
    exact ht.names q r hq hr hname

/-- A new sort is the last one, and its parent lists it. -/
theorem add_eq_ok {name : String} {parent : SortId} (hparent : parent < t.size)
    (h : t.add name parent = .ok (s, u)) :
    s = t.size ∧ u.size = t.size + 1 ∧ t.named? name = none ∧ ∀ q : Nat, u.entry q =
      if q = t.size then { name, parent := some parent }
      else if q = parent then { t.entry q with subsorts := t.subsorts q ++ [t.size] }
      else t.entry q := by
  unfold add at h
  split at h
  · cases h
  · rename_i hnone
    cases h
    refine ⟨rfl, by show (Array.modify _ _ _).size = _; simp [size], hnone, fun q => ?_⟩
    have hpush : (⟨t.sorts.push { name, parent := some parent }⟩ : Taxonomy).entry q =
        if q = t.size then { name, parent := some parent } else t.entry q := by
      show (t.sorts.push _)[q]?.getD default = _
      rw [Array.getElem?_push]
      by_cases hq : q = t.size
      · rw [if_pos hq, if_pos (show q = t.sorts.size from hq)]
        rfl
      · rw [if_neg hq, if_neg (show ¬ q = t.sorts.size from hq)]
        rfl
    -- the new entry comes first, and then that of the parent is changed
    refine (entry_modify ⟨t.sorts.push { name, parent := some parent }⟩ parent q _).trans ?_
    rw [hpush]
    by_cases hq : q = t.size
    · rw [if_pos hq, if_pos hq, if_neg fun e => Nat.ne_of_lt hparent (e.1.trans hq)]
    · rw [if_neg hq, if_neg hq]
      by_cases hqp : q = parent
      · have hlt : q < (⟨t.sorts.push { name, parent := some parent }⟩ : Taxonomy).size := by
          show q < (t.sorts.push _).size
          rw [Array.size_push, hqp]
          exact Nat.lt_succ_of_lt hparent
        rw [if_pos ⟨hqp.symm, hlt⟩, if_pos hqp]
        rfl
      · rw [if_neg fun e => hqp e.1.symm, if_neg hqp]

/-- A new sort is below the parent that is given, and the others stay where they are. -/
theorem parent?_add {name : String} {parent : SortId} (hparent : parent < t.size)
    (h : t.add name parent = .ok (s, u)) (q : Nat) :
    u.parent? q = if q = t.size then some parent else t.parent? q := by
  rw [parent?, (add_eq_ok hparent h).2.2.2 q]
  split
  · rfl
  · split <;> rfl

/-- A new sort has the name that is given, and the others keep theirs. -/
theorem name_add {name : String} {parent : SortId} (hparent : parent < t.size)
    (h : t.add name parent = .ok (s, u)) (q : Nat) :
    u.name q = if q = t.size then name else t.name q := by
  rw [Taxonomy.name, (add_eq_ok hparent h).2.2.2 q]
  split
  · rfl
  · split <;> rfl

/-- The parent lists the new sort last, and no other sort lists it. -/
theorem subsorts_add {name : String} {parent : SortId} (hparent : parent < t.size)
    (h : t.add name parent = .ok (s, u)) (q : Nat) :
    u.subsorts q = if q = parent then t.subsorts q ++ [t.size] else t.subsorts q := by
  rw [subsorts, (add_eq_ok hparent h).2.2.2 q]
  split
  · rename_i hq
    rw [if_neg fun e => Nat.ne_of_lt hparent (e.symm.trans hq), subsorts,
      entry_of_ge (Nat.le_of_eq hq.symm)]
    rfl
  · split <;> rfl

/-- To add a sort changes no sort that there is. -/
theorem extends_of_add {name : String} {parent : SortId} (hparent : parent < t.size)
    (h : t.add name parent = .ok (s, u)) : Extends t u := by
  have hsize := (add_eq_ok hparent h).2.1
  refine ⟨by omega, fun q hq => ?_, fun q hq => ?_⟩
  · rw [parent?_add hparent h, if_neg (Nat.ne_of_lt hq)]
  · rw [name_add hparent h, if_neg (Nat.ne_of_lt hq)]

/-- A name is that of a sort there is. -/
theorem lt_of_named? {name : String} (h : t.named? name = some s) : s < t.size :=
  (Array.findIdx?_eq_some_iff_getElem.1 h).1

/-- What is found by its name is a sort there is. -/
theorem lt_of_find {name : String} (h : t.find name = .ok s) : s < t.size := by
  unfold Taxonomy.find at h
  split at h
  · rename_i hnamed
    cases h
    exact lt_of_named? hnamed
  · cases h

/-- No sort there is has a name that is not found. -/
theorem name_ne_of_named? {name : String} (h : t.named? name = none) {q : Nat} (hq : q < t.size) :
    t.name q ≠ name := by
  intro e
  have hq : q < t.sorts.size := hq
  have hget : t.entry q = t.sorts[q] := by
    rw [entry, Array.getElem?_eq_getElem hq]
    rfl
  have hnone := Array.findIdx?_eq_none_iff.1 h t.sorts[q] (Array.getElem_mem hq)
  rw [← hget, ← e, Taxonomy.name, beq_self_eq_true] at hnone
  cases hnone

/-- A sort that is added keeps the tree: its number is larger than that of its parent, which lists
it, and its name was free. -/
theorem Tree.add (ht : t.Tree) {name : String} {parent : SortId}
    (hparent : parent < t.size) (h : t.add name parent = .ok (s, u)) : u.Tree := by
  obtain ⟨-, hsize, hnone, hentry⟩ := add_eq_ok hparent h
  have hparents := parent?_add hparent h
  have hnames := name_add hparent h
  have hnew : t.parent? t.size = none := by
    rw [parent?, entry_of_ge (Nat.le_refl _)]
    rfl
  refine ⟨fun q p hp => ?_, fun q r => ?_, fun q r hq hr hname => ?_⟩
  · rw [hparents] at hp
    split at hp
    · rename_i hq
      rw [hq, ← Option.some.inj hp]
      exact hparent
    · exact ht.descending q p hp
  · rw [hparents, subsorts_add hparent h]
    by_cases hr : r = t.size
    · -- the new sort is below its parent only, and was below no sort
      have hold : t.size ∉ t.subsorts q := by
        rw [ht.mem_subsorts, hnew]
        nofun
      rw [hr, if_pos rfl, Option.some.injEq]
      by_cases hq : q = parent
      · rw [if_pos hq]
        exact ⟨fun _ => hq.symm, fun _ => List.mem_append_right _ List.mem_cons_self⟩
      · rw [if_neg hq]
        exact ⟨fun hmem => absurd hmem hold, fun e => absurd e.symm hq⟩
    · rw [if_neg hr, ← ht.mem_subsorts]
      split
      · rw [List.mem_append, List.mem_singleton]
        exact or_iff_left hr
      · rfl
  · rw [hsize, Nat.lt_succ_iff_lt_or_eq] at hq hr
    rw [hnames, hnames] at hname
    rcases hq with hq | rfl
    · rw [if_neg (Nat.ne_of_lt hq)] at hname
      rcases hr with hr | rfl
      · rw [if_neg (Nat.ne_of_lt hr)] at hname
        exact ht.names q r hq hr hname
      · rw [if_pos rfl] at hname
        exact absurd hname (name_ne_of_named? hnone hq)
    · rw [if_pos rfl] at hname
      rcases hr with hr | rfl
      · rw [if_neg (Nat.ne_of_lt hr)] at hname
        exact absurd hname.symm (name_ne_of_named? hnone hr)
      · rfl

/-- At the start there is only the root. -/
theorem tree_ofRoot (name : String) : (ofRoot name).Tree := by
  have hentry : ∀ s : Nat, (ofRoot name).entry (s + 1) = default := fun s =>
    entry_of_ge (Nat.le_add_left 1 s)
  have hparent : ∀ s : Nat, (ofRoot name).parent? s = none
    | 0 => rfl
    | s + 1 => by rw [parent?, hentry]; rfl
  -- the root is the only sort, and has neither a parent nor anything below it
  refine ⟨fun s p hp => ?_, fun s r => ?_, fun s r hs hr _ => ?_⟩
  · rw [hparent] at hp
    cases hp
  · rw [hparent]
    have hnone : (ofRoot name).subsorts s = [] := by
      cases s with
      | zero => rfl
      | succ s => rw [subsorts, hentry]; rfl
    rw [hnone]
    exact ⟨nofun, nofun⟩
  · exact (Nat.lt_one_iff.1 hs).trans (Nat.lt_one_iff.1 hr).symm

end Taxonomy

/-! ### Entities -/

namespace KnowledgeBase

open Action

variable {kb kb' kb'' : KnowledgeBase} {e : String} {s : Nat} {args : Arguments}

/-- The sorts form a tree, and entities are bound to sorts there are. -/
structure Placed (kb : KnowledgeBase) : Prop where
  tree : kb.taxonomy.Tree
  sorts : ∀ (e : String) (s : Nat), kb.sortOf? e = some s → s < kb.taxonomy.size

/-- Sorts keep their parents, and entities their sorts. -/
structure Extends (kb kb' : KnowledgeBase) : Prop where
  taxonomy : kb.taxonomy.Extends kb'.taxonomy
  sortOf : ∀ e s, kb.sortOf? e = some s → kb'.sortOf? e = some s

theorem Extends.refl (kb : KnowledgeBase) : Extends kb kb :=
  ⟨Taxonomy.Extends.refl _, fun _ _ h => h⟩

theorem Extends.trans (h : Extends kb kb') (h' : Extends kb' kb'') : Extends kb kb'' :=
  ⟨h.taxonomy.trans h'.taxonomy, fun e s he => h'.sortOf e s (h.sortOf e s he)⟩

/-- Whether a registered entity belongs to a sort is settled. -/
theorem Extends.belongs (h : Extends kb kb') (hkb : kb.Placed) (he : (kb.sortOf? e).isSome)
    (s : SortId) :
    kb'.belongs e s = kb.belongs e s := by
  obtain ⟨d, hd⟩ := Option.isSome_iff_exists.1 he
  unfold KnowledgeBase.belongs
  rw [h.sortOf e d hd, hd]
  exact h.taxonomy.isSubsort hkb.tree.descending (hkb.sorts e d hd) s

/-- Only a registered entity belongs to a sort. -/
theorem isSome_of_belongs {s : SortId} (h : kb.belongs e s = true) : (kb.sortOf? e).isSome := by
  unfold KnowledgeBase.belongs at h
  cases he : kb.sortOf? e with
  | some d => rfl
  | none =>
    rw [he] at h
    cases h

/-- An entity is said to be of a sort exactly when it belongs to it. -/
theorem isA_eq_ok_true {s : SortId} : kb.isA e s = .ok true ↔ kb.belongs e s = true := by
  unfold isA KnowledgeBase.belongs
  cases kb.sortOf? e with
  | none => exact ⟨nofun, nofun⟩
  | some d => exact ⟨Except.ok.inj, congrArg Except.ok⟩

/-- The entities of the arguments are registered. -/
def Registered (kb : KnowledgeBase) (args : Arguments) : Prop :=
  ∀ e ∈ args.entities, (kb.sortOf? e).isSome

/-- Arguments fit a signature if they are as many and each belongs to the sort at its place. -/
theorem fits_iff {sig : Signature} : kb.fits sig args = true ↔
    sig.arity = args.arity ∧ ∀ x ∈ sig.sorts.zip args.entities, kb.belongs x.2 x.1 = true := by
  rw [fits, Bool.and_eq_true, beq_iff_eq, List.all_eq_true]

/-- Arguments that fit are registered. -/
theorem registered_of_fits {sig : Signature} (h : kb.fits sig args = true) :
    kb.Registered args := by
  obtain ⟨harity, hall⟩ := fits_iff.1 h
  intro e he
  -- the signature and the arguments have the same arity
  cases sig <;> cases args
  case unary.one s a =>
    rw [List.mem_singleton.1 he]
    exact isSome_of_belongs (hall (s, a) List.mem_cons_self)
  case binary.two s₁ s₂ a b =>
    rcases List.mem_cons.1 he with rfl | he
    · exact isSome_of_belongs (hall (s₁, e) List.mem_cons_self)
    · rw [List.mem_singleton.1 he]
      exact isSome_of_belongs (hall (s₂, b) (List.mem_cons_of_mem _ List.mem_cons_self))
  all_goals cases harity

theorem registered_of_admits {p : PredicateId} (h : kb.admits p args = true) :
    kb.Registered args := registered_of_fits h

/-- Whether arguments are of the sorts of a signature is settled once their entities are
registered. -/
theorem Extends.fits (h : Extends kb kb') (hkb : kb.Placed) (hargs : kb.Registered args)
    (sig : Signature) : kb'.fits sig args = kb.fits sig args := by
  refine Bool.eq_iff_iff.2 ?_
  rw [fits_iff, fits_iff]
  refine and_congr_right fun _ => forall_congr' fun x => imp_congr_right fun hx => ?_
  rw [h.belongs hkb (hargs x.2 (List.of_mem_zip hx).2)]

/-- Whether a predicate admits arguments is settled once their entities are registered. -/
theorem Extends.admits (h : Extends kb kb') (hkb : kb.Placed) (hargs : kb.Registered args)
    {p : PredicateId} (hsignature : (kb'.predicate p).signature = (kb.predicate p).signature) :
    kb'.admits p args = kb.admits p args := by
  unfold KnowledgeBase.admits
  rw [hsignature, h.fits hkb hargs]

/-! ### Registering entities -/

/-- An entity that has a sort keeps it, and another one is bound to the sort given. -/
theorem sortOf?_bind (kb : KnowledgeBase) (entity e : String) (s : SortId) :
    (kb.bind entity s).sortOf? e = (kb.sortOf? e).or (if entity = e then some s else none) := by
  show ((kb.entities.push (entity, s)).find? fun x => x.1 == e).map Prod.snd = _
  rw [Array.find?_push, sortOf?]
  cases kb.entities.find? fun x => x.1 == e with
  | some x => rfl
  | none =>
    by_cases he : entity = e
    · simp [he]
    · simp [he]

/-- To bind an entity changes neither the sorts nor what is bound already. -/
theorem extends_bind (kb : KnowledgeBase) (entity : String) (s : SortId) :
    Extends kb (kb.bind entity s) := by
  refine ⟨Taxonomy.extends_pushInstance _ _ _, fun e d hd => ?_⟩
  rw [sortOf?_bind, hd]
  rfl

/-- An entity that is bound to a sort there is is in its place. -/
theorem Placed.bind (hkb : kb.Placed) (entity : String) (hs : s < kb.taxonomy.size) :
    (kb.bind entity s).Placed := by
  have hsize : (kb.bind entity s).taxonomy.size = kb.taxonomy.size := Array.size_modify
  refine ⟨hkb.tree.pushInstance s entity, fun e d hd => ?_⟩
  rw [hsize]
  rw [sortOf?_bind] at hd
  rcases Option.or_eq_some_iff.1 hd with hd | ⟨-, hd⟩
  · exact hkb.sorts e d hd
  · split at hd
    · exact Option.some.inj hd ▸ hs
    · cases hd

/-- Only sorts and entities were added, where there is room for them. -/
structure Registers (kb kb' : KnowledgeBase) : Prop where
  placed : kb'.Placed
  stays : Extends kb kb'
  same : SamePredicates kb kb'

theorem Registers.refl (hkb : kb.Placed) : Registers kb kb :=
  ⟨hkb, Extends.refl kb, SamePredicates.refl kb⟩

theorem Registers.trans (h : Registers kb kb') (h' : Registers kb' kb'') : Registers kb kb'' :=
  ⟨h'.placed, h.stays.trans h'.stays, h.same.trans h'.same⟩

/-- A sort that there was is there still. -/
theorem Registers.size (h : Registers kb kb') (hs : s < kb.taxonomy.size) :
    s < kb'.taxonomy.size := Nat.lt_of_lt_of_le hs h.stays.taxonomy.size

/-- To bind an entity is to register something. -/
theorem registers_bind (hkb : kb.Placed) (entity : String) (hs : s < kb.taxonomy.size) :
    Registers kb (kb.bind entity s) :=
  ⟨hkb.bind entity hs, extends_bind kb entity s, ⟨rfl, rfl, rfl⟩⟩

/-- Only entities were added. -/
structure Enrolls (kb kb' : KnowledgeBase) : Prop extends Registers kb kb' where
  sorts : kb'.taxonomy.size = kb.taxonomy.size

theorem Enrolls.refl (hkb : kb.Placed) : Enrolls kb kb := ⟨Registers.refl hkb, rfl⟩

theorem Enrolls.trans (h : Enrolls kb kb') (h' : Enrolls kb' kb'') : Enrolls kb kb'' :=
  ⟨h.toRegisters.trans h'.toRegisters, h'.sorts.trans h.sorts⟩

/-- Whether or not the entity is new, to make sure of its sort adds no sort. -/
theorem enrolls_ensureSort (hkb : kb.Placed) (entity : String) (hs : s < kb.taxonomy.size) :
    Enrolls kb (kb.ensureSort entity s).2 :=
  ensureSort_of (Enrolls.refl hkb) fun _ => ⟨registers_bind hkb entity hs, Array.size_modify⟩

/-- To declare an entity is to register it, and nothing at all where it is refused. -/
theorem preserves_registers_declare (entity : String) (hs : s < kb.taxonomy.size) :
    Preserves (Registers kb) (declare entity s) :=
  preserves_declare_of fun _ h _ => h.trans (registers_bind h.placed entity (h.size hs))

/-- To add a sort is to register something. -/
theorem registers_add (hkb : kb.Placed) {name : String} {parent : SortId} {t : Taxonomy}
    (hparent : parent < kb.taxonomy.size) (h : kb.taxonomy.add name parent = .ok (s, t)) :
    Registers kb { kb with taxonomy := t } where
  placed := ⟨hkb.tree.add hparent h, fun e d hd =>
    Nat.lt_of_lt_of_le (hkb.sorts e d hd) (Taxonomy.extends_of_add hparent h).size⟩
  stays := ⟨Taxonomy.extends_of_add hparent h, fun _ _ he => he⟩
  same := ⟨rfl, rfl, rfl⟩

/-- To note an entity at its sort is to register something. -/
theorem registers_pushInstance (hkb : kb.Placed) (s : SortId) (entity : String) :
    Registers kb { kb with taxonomy := kb.taxonomy.pushInstance s entity } where
  placed := ⟨hkb.tree.pushInstance s entity, fun e d hd =>
    Nat.lt_of_lt_of_le (hkb.sorts e d hd) (Taxonomy.extends_pushInstance _ _ _).size⟩
  stays := ⟨Taxonomy.extends_pushInstance _ _ _, fun _ _ he => he⟩
  same := ⟨rfl, rfl, rfl⟩

/-- A sort is registered together with its instances. Where one of them is refused, what came before
it is registered all the same. -/
theorem after_registerSort (hkb : kb.Placed) (name parent : String) (instances : List String) :
    After (registerSort name parent instances) kb (fun _ kb' => Registers kb kb')
      (fun _ kb' => Registers kb kb') := by
  refine after_registerSort_of (Registers.refl hkb) fun p s t hparent hadd => ?_
  have hp : p < kb.taxonomy.size := Taxonomy.lt_of_find hparent
  have hadded := registers_add hkb hp hadd
  -- the sort is new, and its instances are declared to belong to it
  have hs : s < t.size := by
    obtain ⟨hnew, hsize, -⟩ := Taxonomy.add_eq_ok hp hadd
    rw [hnew, hsize]
    exact Nat.lt_succ_self _
  exact ⟨Registers { kb with taxonomy := t }, Registers.refl hadded.placed,
    fun entity => preserves_registers_declare entity hs, fun _ => hadded.trans⟩

/-- Arguments that pass the check are admitted from then on. A check that fails has registered the
entities before. -/
theorem after_checkArguments {p : PredicateId} (hkb : kb.Placed)
    (hsorts : ∀ s ∈ (kb.predicate p).signature.sorts, s < kb.taxonomy.size) :
    After (checkArguments p args) kb
      (fun _ kb' => Enrolls kb kb' ∧ kb'.admits p args = true) (fun _ kb' => Enrolls kb kb') := by
  unfold checkArguments
  refine after_bind.2 (after_get.2 ?_)
  dsimp only
  split
  · exact Enrolls.refl hkb
  · rename_i harity
    -- the entities that have been checked belong where they should, and go on doing so
    refine (after_forM (I := fun xs kb' => Enrolls kb kb' ∧
      ∀ x ∈ xs, kb'.belongs x.2 x.1 = true) (fun xs x rest hxs kb₁ h => ?_) ?_ :
        After _ _ _ fun _ kb' => Enrolls kb kb').imp_done fun _ kb' h => ?_
    · obtain ⟨henrolls, hbelongs⟩ := h
      have hx : x ∈ (kb.predicate p).signature.sorts.zip args.entities := by
        rw [hxs]
        exact List.mem_append_right _ List.mem_cons_self
      have hnext := enrolls_ensureSort henrolls.placed x.2
        (henrolls.size (hsorts x.1 (List.of_mem_zip hx).1))
      refine after_bind.2 (after_modifyGet.2 (after_bind.2 (after_get.2 (after_ite.2 ?_))))
      split
      · rename_i hnew
        refine after_pure.2 ⟨henrolls.trans hnext, fun y hy => ?_⟩
        rcases List.mem_append.1 hy with hy | hy
        · have hold := hbelongs y hy
          rwa [hnext.stays.belongs henrolls.placed (isSome_of_belongs hold)]
        · rw [List.mem_singleton.1 hy]
          exact hnew
      · exact henrolls.trans hnext
    · exact ⟨Enrolls.refl hkb, nofun⟩
    · refine ⟨h.1, ?_⟩
      unfold KnowledgeBase.admits
      rw [h.1.same.predicate]
      exact fits_iff.2 ⟨Decidable.not_not.1 harity, h.2⟩

end KnowledgeBase

end Storyworld
