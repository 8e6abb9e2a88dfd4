import Storyworld.Proofs.Knowledge.Development
import Storyworld.Proofs.Knowledge.Preorder
import Storyworld.Proofs.Knowledge.Register
import Storyworld.Random.Pcg

namespace Storyworld

/-!
# Members of sorts

Who belongs to a sort is written down twice: the register has the sort of each entity, and each sort
has a list of its instances. To bind an entity is to write in both, so that they go on to say the
same (`Filed`), through declarations and calls of every kind, refused or not (`Populated.filed`).

They are read by two different walks. Whether an entity is of a sort is asked of the walk up from its
own sort, and the members of a sort are given by a walk down. In a rooted tree the two agree
(`Populated.members_agree`).
-/

/-- The list has everything of which `P` holds exactly once, and nothing else. -/
def Enumerates {α : Type} (l : List α) (P : α → Prop) : Prop := l.Nodup ∧ ∀ a, a ∈ l ↔ P a

namespace Taxonomy

open Action

/-- The sorts form a tree under the root: a sort is listed, once, below its parent and nowhere else,
only the root has no parent, and every walk up ends at the root. -/
structure UnderRoot (t : Taxonomy) : Prop where
  mem_subsorts : ∀ s r : Nat, r ∈ t.subsorts s ↔ t.parent? r = some s
  nodup : ∀ s, (t.subsorts s).Nodup
  parent : ∀ s : Nat, s < t.size → (t.parent? s = none ↔ s = root)
  ancestors : ∀ s : Nat, s < t.size → Ends (fun n => t.ancestorsUpTo n s) (t.ancestors s) ∧
    (t.ancestors s).getLast? = some root

theorem Rooted.underRoot {t : Taxonomy} (ht : t.Rooted) : t.UnderRoot where
  mem_subsorts := ht.mem_subsorts
  nodup := ht.nodup
  parent _ hs := ht.parent?_eq_none_iff hs
  ancestors _ hs := ht.ends_ancestors hs

end Taxonomy

namespace KnowledgeBase

open Action

variable {kb kb' : KnowledgeBase} {e : String} {s p : Nat} {args : Arguments}

/-! ### The register and the lists of instances -/

/-- The entities that are bound to a sort, in the order they were registered. -/
def boundTo (kb : KnowledgeBase) (s : SortId) : List String :=
  (kb.entities.toList.filter fun x => x.2 == s).map Prod.fst

/-- No entity is registered twice, and the instances of a sort are the entities bound to it. -/
structure Filed (kb : KnowledgeBase) : Prop where
  rooted : kb.taxonomy.Rooted
  nodup : kb.entityNames.Nodup
  instances : ∀ s : Nat, kb.taxonomy.instances s = kb.boundTo s

theorem mem_boundTo_iff (hnodup : kb.entityNames.Nodup) :
    e ∈ kb.boundTo s ↔ kb.sortOf? e = some s := by
  unfold boundTo
  simp only [List.mem_map, List.mem_filter, beq_iff_eq]
  constructor
  · rintro ⟨x, ⟨hx, rfl⟩, rfl⟩
    exact sortOf?_of_mem hnodup hx
  · intro hsort
    obtain ⟨x, hx, rfl⟩ := Option.map_eq_some_iff.1 hsort
    have hname : x.1 = e := by simpa using Array.find?_some hx
    exact ⟨x, ⟨Array.mem_toList_iff.2 (Array.mem_of_find?_eq_some hx), rfl⟩, hname⟩

theorem nodup_boundTo (hnodup : kb.entityNames.Nodup) (s : SortId) : (kb.boundTo s).Nodup :=
  hnodup.sublist (List.filter_sublist.map _)

/-- To bind an entity adds it to what is bound to the sort. -/
theorem boundTo_bind (kb : KnowledgeBase) (entity : String) (s q : Nat) :
    (kb.bind entity s).boundTo q = if s = q then kb.boundTo q ++ [entity] else kb.boundTo q := by
  unfold boundTo bind
  rw [Array.toList_push, List.filter_append, List.map_append]
  by_cases hsq : s = q
  · simp [hsq]
  · simp [hsq]

/-- An entity is registered once, wherever it is looked for. -/
theorem Filed.enumerates_entityNames (h : kb.Filed) :
    Enumerates kb.entityNames fun e => (kb.sortOf? e).isSome :=
  ⟨h.nodup, fun _ => isSome_sortOf?_iff.symm⟩

/-- The instances of a sort are the entities bound to it. -/
theorem Filed.mem_instances_iff (h : kb.Filed) :
    e ∈ kb.taxonomy.instances s ↔ kb.sortOf? e = some s := by
  rw [h.instances, mem_boundTo_iff h.nodup]

/-- Entities are bound to sorts there are. -/
theorem Filed.sort_lt (h : kb.Filed) (hsort : kb.sortOf? e = some s) : s < kb.taxonomy.size := by
  by_contra hge
  have hmem := h.mem_instances_iff.2 hsort
  rw [Taxonomy.instances_of_ge (by omega)] at hmem
  cases hmem

/-- No entity is an instance of two sorts, and none is listed twice by one. -/
theorem Filed.nodup_flatMap_instances (h : kb.Filed) {l : List SortId} (hl : l.Nodup) :
    (l.flatMap kb.taxonomy.instances).Nodup := by
  refine List.nodup_flatMap.2 ⟨fun s _ => ?_, hl.imp fun {s r} hne e hs hr => hne ?_⟩
  · rw [h.instances]
    exact nodup_boundTo h.nodup s
  · rw [h.mem_instances_iff] at hs hr
    exact Option.some.inj (hs.symm.trans hr)

/-- All lists of instances together have each registered entity once. -/
theorem Filed.enumerates_instances (h : kb.Filed) :
    Enumerates ((List.range kb.taxonomy.size).flatMap kb.taxonomy.instances)
      fun e => (kb.sortOf? e).isSome := by
  refine ⟨h.nodup_flatMap_instances List.nodup_range, fun e => ?_⟩
  simp only [List.mem_flatMap, List.mem_range, h.mem_instances_iff, Option.isSome_iff_exists]
  exact exists_congr fun s => and_iff_right_of_imp h.sort_lt

/-- **The members of a sort are the entities that are of the sort**, each once. -/
theorem Filed.enumerates_members (h : kb.Filed) (hs : s < kb.taxonomy.size) :
    Enumerates (kb.taxonomy.members s) fun e => kb.isA e s = .ok true := by
  rw [h.rooted.members_eq hs]
  refine ⟨h.nodup_flatMap_instances (h.rooted.nodup_preorder hs), fun e => ?_⟩
  simp only [isA_eq_ok_true, KnowledgeBase.belongs, List.mem_flatMap, h.mem_instances_iff]
  -- an entity is found at its own sort or not at all
  cases hsort : kb.sortOf? e with
  | none => simp
  | some d => simp [h.rooted.mem_preorder_iff (h.sort_lt hsort)]

/-! ### What keeps them together -/

theorem Filed.congr (h : kb.Filed) (hsame : SameEntities kb kb') : kb'.Filed := by
  refine ⟨hsame.taxonomy ▸ h.rooted, ?_, fun s => ?_⟩
  · rw [entityNames, hsame.entities]
    exact h.nodup
  · rw [hsame.taxonomy, boundTo, hsame.entities]
    exact h.instances s

/-- An entity that is new is written down at both places. -/
theorem Filed.bind (h : kb.Filed) (hnew : kb.sortOf? e = none) (hs : s < kb.taxonomy.size) :
    (kb.bind e s).Filed where
  rooted := h.rooted.pushInstance s e
  nodup := (enlists_bind hnew s).nodup h.nodup
  instances q := by
    rw [boundTo_bind, ← h.instances]
    exact Taxonomy.instances_pushInstance hs e q

/-- A new sort has no instances yet, and no entity is bound to it. -/
theorem Filed.add (h : kb.Filed) {name : String} {parent : SortId} {t : Taxonomy}
    (hparent : parent < kb.taxonomy.size) (hadd : kb.taxonomy.add name parent = .ok (s, t)) :
    ({ kb with taxonomy := t } : KnowledgeBase).Filed where
  rooted := h.rooted.add hparent hadd
  nodup := h.nodup
  instances q := by
    have hsame : t.instances q = kb.taxonomy.instances q := by
      rw [Taxonomy.instances, (Taxonomy.add_eq_ok hparent hadd).2.2.2 q]
      split
      · rename_i hq
        rw [Taxonomy.instances_of_ge (Nat.le_of_eq hq.symm)]
      · split <;> rfl
    exact hsame.trans (h.instances q)

/-- To ensure that an entity has a sort keeps all entities filed. -/
theorem Filed.ensureSort (h : kb.Filed) (e : String) (hs : s < kb.taxonomy.size) :
    (kb.ensureSort e s).2.Filed ∧ (kb.ensureSort e s).2.taxonomy.size = kb.taxonomy.size :=
  ensureSort_of (P := fun t => t.Filed ∧ t.taxonomy.size = kb.taxonomy.size) ⟨h, rfl⟩
    fun hnew => ⟨h.bind hnew hs, Array.size_modify⟩

/-- To bind an entity again changes nothing, whether that is refused or not. -/
theorem preserves_filed_declare {n : Nat} (e : String) (hs : s < n) :
    Preserves (fun kb => kb.Filed ∧ kb.taxonomy.size = n) (declare e s) := by
  apply preserves_declare_of
  rintro kb ⟨h, rfl⟩ hnew
  exact ⟨h.bind hnew hs, Array.size_modify⟩

/-- The instances that come before one that is refused are bound and stay so. -/
theorem after_registerSort_filed (h : kb.Filed) (name parent : String)
    (instances : List String) :
    After (registerSort name parent instances) kb (fun _ kb' => kb'.Filed)
      fun _ kb' => kb'.Filed := by
  refine after_registerSort_of h fun p s t hparent hadd => ?_
  have hp := Taxonomy.lt_of_find hparent
  obtain ⟨hnew, hsize, -⟩ := Taxonomy.add_eq_ok hp hadd
  exact ⟨fun kb' => kb'.Filed ∧ kb'.taxonomy.size = t.size, ⟨h.add hp hadd, rfl⟩,
    fun entity => preserves_filed_declare entity (by omega), fun _ h => h.1⟩

theorem after_checkArguments_filed (h : kb.Filed)
    (hsorts : ∀ s ∈ (kb.predicate p).signature.sorts, s < kb.taxonomy.size) :
    After (checkArguments p args) kb (fun _ kb' => kb'.Filed) fun _ kb' => kb'.Filed := by
  have hchecked : After (checkArguments p args) kb
      (fun _ t => t.Filed ∧ t.taxonomy.size = kb.taxonomy.size)
      fun _ t => t.Filed ∧ t.taxonomy.size = kb.taxonomy.size := by
    refine after_checkArguments_of ⟨h, rfl⟩ fun x hx t ht => ?_
    obtain ⟨hfiled, hsize⟩ := ht.1.ensureSort x.2 (ht.2 ▸ hsorts x.1 (List.of_mem_zip hx).1)
    exact ⟨hfiled, hsize.trans ht.2⟩
  exact hchecked.mono (fun _ _ ht => ht.1) fun _ _ ht => ht.1

/-- Whether the declaration adds instances only by binding entities. -/
def Declaration.binds : Declaration → Bool
  | .member _ _ => false
  | _ => true

/-- **What is declared is written down at both places**, also what is declared before something
is refused. -/
theorem Filed.perform (h : kb.Filed) {d : Declaration} (hd : d.Valid kb)
    (hbinds : d.binds = true) : (d.perform kb).Filed := by
  cases d with
  | sort name parent instances => exact (after_registerSort_filed h name parent instances).stateAfter
  | subsort name parent =>
    show Filed { kb with
      taxonomy := ((kb.taxonomy.add name parent).toOption.map Prod.snd).getD kb.taxonomy }
    -- a sort that is refused leaves the taxonomy as it was
    cases hadd : kb.taxonomy.add name parent with
    | error e => exact h
    | ok added => exact h.add (s := added.1) (t := added.2) hd hadd
  -- the one declaration that writes in one place only
  | member s e => cases hbinds
  | entity e s => exact ((preserves_filed_declare e hd).stateAfter ⟨h, rfl⟩).1
  | default e s => exact (h.ensureSort e hd).1
  | _ => exact h.congr (Declaration.sameEntities rfl kb)

end KnowledgeBase

namespace Grounding

open Action KnowledgeBase

variable {ρ : Type}

theorem preserves_base_onSolver {α : Type} {P : KnowledgeBase → Prop}
    (act : EStateM Error (Solver ρ) α) : Preserves (fun g => P g.base) (onSolver act) := by
  intro g hg
  rw [after_onSolver]
  unfold After
  split <;> exact hg

/-- **Whatever phrases lead to, the register and the lists of instances go on to say the same.** -/
theorem steps_filed : Steps fun g : Grounding ρ => g.base.Orderly ∧ g.base.Filed where
  checks p args := by
    rintro g ⟨horder, h⟩
    have hsorts : ∀ s ∈ (g.base.predicate p).signature.sorts, s < g.base.taxonomy.size := by
      rcases Nat.lt_or_ge p g.base.predicates.size with hp | hp
      · exact horder.signatures p hp
      · -- a predicate that there is not takes the root
        rw [predicate_of_ge hp]
        intro s hs
        rw [List.mem_singleton.1 hs]
        exact h.rooted.pos
    refine after_onBase.2 (((after_checkArguments horder.toPlaced hsorts).and
      (after_checkArguments_filed h hsorts)).mono (fun _ kb' h' => ?_) fun _ kb' h' => ?_)
    · exact ⟨horder.registers h'.1.1.toRegisters, h'.2⟩
    · exact ⟨horder.registers h'.1.toRegisters, h'.2⟩
  modifies p f hf := preserves_modify fun g h =>
    ⟨h.1.modifyPredicate p fun q => ⟨(hf q).1, (hf q).2.1⟩, h.2.congr ⟨rfl, rfl⟩⟩
  names _ _ _ h := h
  heads a := preserves_base_onSolver (P := fun kb => kb.Orderly ∧ kb.Filed) _
  asserts c := preserves_base_onSolver (P := fun kb => kb.Orderly ∧ kb.Filed) _

end Grounding

namespace KnowledgeBase

open Action

variable {kb : KnowledgeBase}

/-- The knowledge base had only a root sort. Then things were declared of sorts and predicates there
are, predicates were called and existentials were requested, with or without success, and with
whatever solver. Instances were only added by binding entities. -/
inductive Populated : KnowledgeBase → Prop where
  | start (root : String) : Populated (ofRoot root)
  | declaration {kb : KnowledgeBase} (hkb : Populated kb) {d : Declaration} (hd : d.Valid kb)
    (hbinds : d.binds = true) : Populated (d.perform kb)
  | call {kb : KnowledgeBase} (hkb : Populated kb) {ρ : Type} (solver : Solver ρ)
    (p : PredicateId) (args : Arguments) :
    Populated (stateAfter (Grounding.call p args) ⟨kb, solver⟩).base
  | existential {kb : KnowledgeBase} (hkb : Populated kb) {ρ : Type} (solver : Solver ρ)
    (p : PredicateId) (s : SortId) :
    Populated (stateAfter (Grounding.existential p s) ⟨kb, solver⟩).base

theorem Populated.declarations (h : Populated kb) {ds : List Declaration}
    (hds : Declaration.ValidAll ds kb) (hbinds : ∀ d ∈ ds, d.binds = true) :
    Populated (ds.foldl (fun kb d => d.perform kb) kb) := by
  induction ds generalizing kb with
  | nil => exact h
  | cons d ds ih =>
    have hfirst := h.declaration hds.1 (hbinds d List.mem_cons_self)
    exact ih hfirst hds.2 fun d' hd' => hbinds d' (List.mem_cons_of_mem _ hd')

theorem filed_ofRoot (root : String) : (ofRoot root).Filed where
  rooted := Taxonomy.rooted_ofRoot root
  nodup := List.nodup_nil
  instances s := by
    cases s with
    | zero => rfl
    | succ s => exact Taxonomy.instances_of_ge (Nat.le_add_left 1 s)

/-- However a knowledge base was filled, its entities are filed. -/
theorem Populated.filed (h : Populated kb) : kb.Orderly ∧ kb.Filed := by
  induction h with
  | start root => exact ⟨orderly_ofRoot root, filed_ofRoot root⟩
  | declaration hkb hd hbinds ih =>
    exact ⟨(Declaration.develops _ hd ih.1).2, ih.2.perform hd hbinds⟩
  | call hkb solver p args ih => exact (Grounding.steps_filed.call p args).stateAfter ih
  | existential hkb solver p s ih => exact (Grounding.steps_filed.existential p s).stateAfter ih

/-- **Members and sorts agree.** The sorts form a tree under the root. Each registered entity is
registered once and is once among all the instances, as an instance of its own sort. To iterate over
the members of a sort comes to an end: they are the instances of the sort and then the members of
the sorts listed below it, and they are all entities that are of the sort, each once. -/
theorem Populated.members_agree (h : Populated kb) :
    kb.taxonomy.UnderRoot ∧
      Enumerates kb.entityNames (fun e => (kb.sortOf? e).isSome) ∧
      Enumerates ((List.range kb.taxonomy.size).flatMap kb.taxonomy.instances)
        (fun e => (kb.sortOf? e).isSome) ∧
      (∀ (e : String) (s : Nat), e ∈ kb.taxonomy.instances s ↔ kb.sortOf? e = some s) ∧
      ∀ s : Nat, s < kb.taxonomy.size →
        Ends (fun n => (Taxonomy.Members.ofSort kb.taxonomy s).collectUpTo kb.taxonomy n)
          (kb.taxonomy.members s) ∧
        kb.taxonomy.members s = kb.taxonomy.instances s ++
          (kb.taxonomy.subsorts s).flatMap kb.taxonomy.members ∧
        Enumerates (kb.taxonomy.members s) fun e => kb.isA e s = .ok true := by
  have hfiled := h.filed.2
  have hrooted := hfiled.rooted
  refine ⟨hrooted.underRoot, hfiled.enumerates_entityNames, hfiled.enumerates_instances,
    fun e s => hfiled.mem_instances_iff, fun s hs => ?_⟩
  -- the walk down ends, its order is that of the tree, and it finds what the walk up finds
  exact ⟨hrooted.ends_members hs, hrooted.members_eq_append hs, hfiled.enumerates_members hs⟩

/-- Tom is an animal, so that he cannot be a plant: the fern has become one before that is refused,
and the moss has not. Rex is no dog, since he was an animal before, and Kit is an animal on account
of sleeping. Dogs come before plants, which are not animals. -/
theorem members_agree_animals :
    let kb₀ := [Declaration.sort "animal" "thing" ["Tom", "Rex"]].foldl
      (fun kb d => d.perform kb) (ofRoot "thing")
    let kb₁ := [Declaration.sort "plant" "thing" ["fern", "Tom", "moss"], .subsort "dog" 1,
      .entity "Fido" 3, .default "Rex" 3, .predicate "sleeps" (.unary 1)].foldl
      (fun kb d => d.perform kb) kb₀
    let solver : Solver Pcg := Solver.ofConfig {} (Pcg.ofSeed 0)
    let kb := (stateAfter (Grounding.call 0 (.one "Kit")) ⟨kb₁, solver⟩).base
    answer (registerSort "plant" "thing" ["fern", "Tom", "moss"]) kb₀ =
        .error (.sortConflict "Tom" "animal" "plant") ∧
      Populated kb ∧ 0 < kb.taxonomy.size ∧
      kb.entityNames = ["Tom", "Rex", "fern", "Fido", "Kit"] ∧
      kb.taxonomy.members 0 = ["Tom", "Rex", "Kit", "Fido", "fern"] ∧
      kb.taxonomy.UnderRoot ∧ Enumerates kb.entityNames (fun e => (kb.sortOf? e).isSome) ∧
      Ends (fun n => (Taxonomy.Members.ofSort kb.taxonomy 0).collectUpTo kb.taxonomy n)
        (kb.taxonomy.members 0) ∧
      Enumerates (kb.taxonomy.members 0) fun e => kb.isA e 0 = .ok true := by
  intro kb₀ kb₁ solver kb
  have hstart : Populated _ := Populated.start "thing"
  have h₀ : Populated kb₀ := hstart.declarations (by decide +kernel) (by decide)
  have h₁ : Populated kb₁ := h₀.declarations (by decide +kernel) (by decide)
  have h : Populated kb := h₁.call solver 0 (.one "Kit")
  have hroot : 0 < kb.taxonomy.size := by decide +kernel
  obtain ⟨htree, hnames, -, -, hmembers⟩ := h.members_agree
  obtain ⟨hends, -, henumerates⟩ := hmembers 0 hroot
  -- the second sort was refused midway, so its first instance is there and its last is not
  exact ⟨by decide +kernel, h, hroot, by decide +kernel, by decide +kernel, htree, hnames, hends,
    henumerates⟩

end KnowledgeBase

end Storyworld
