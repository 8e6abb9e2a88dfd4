import Mathlib.Data.List.Nodup
import Mathlib.Data.List.Perm.Basic
import Storyworld.World.Snapshot

namespace Storyworld

/-!
# Facts in groups

A snapshot refers to its facts by their positions. The positions of the facts that satisfy a test
come in order (`sorted_positions`), and to look them up again gives the facts that satisfy it
(`facts_positions`). So each group has the positions of the facts about its entity, and the groups
are a partition together with what is left over (`perm_positions`). Those are the facts about no
entity, if only every entity that a fact is about is registered (`ungrouped_groupsOf`).
-/

namespace Fact

/-- The subject of a fact is the entity that comes first in it. -/
theorem subject?_eq_some_iff {f : Fact} {e : String} :
    f.subject? = some e ↔ f.args.head? = some (.entity e) := by
  unfold subject?
  split
  · rename_i e' h
    simp [h]
  · rename_i h
    constructor
    · nofun
    · exact fun he => absurd he (h e)

/-- A fact without a subject begins with no entity. -/
theorem subject?_eq_none_iff {f : Fact} :
    f.subject? = none ↔ ∀ e, f.args.head? ≠ some (.entity e) := by
  rw [Option.eq_none_iff_forall_ne_some]
  exact forall_congr' fun e => not_congr subject?_eq_some_iff

end Fact

namespace Snapshot

variable {kb : KnowledgeBase} {test : Fact → Bool} {facts : List Fact} {f : Fact} {i : Nat}
  {e : String} {g : Group}

/-! ### Positions -/

/-- The positions are those at which a fact satisfies the test. -/
theorem mem_positions : i ∈ positions test facts ↔ ∃ f, facts[i]? = some f ∧ test f = true := by
  unfold positions
  simp only [List.mem_map, List.mem_filter, Prod.exists, exists_eq_right,
    List.mk_mem_zipIdx_iff_getElem?]

/-- Positions come in order. -/
theorem sorted_positions (test : Fact → Bool) (facts : List Fact) :
    (positions test facts).Pairwise (· < ·) := by
  have hsublist : (positions test facts).Sublist (facts.zipIdx.map Prod.snd) :=
    List.filter_sublist.map Prod.snd
  refine List.Pairwise.sublist hsublist ?_
  rw [List.zipIdx_map_snd, ← List.range_eq_range']
  exact List.pairwise_lt_range

/-- No position is listed twice. -/
theorem nodup_positions (test : Fact → Bool) (facts : List Fact) :
    (positions test facts).Nodup :=
  (sorted_positions test facts).imp fun h => Nat.ne_of_lt h

/-- To look the positions up again gives the facts that satisfy the test. -/
theorem facts_positions (test : Fact → Bool) (facts : List Fact) :
    (positions test facts).filterMap (fun i => facts[i]?) = facts.filter test := by
  have hlookup : ∀ x ∈ facts.zipIdx.filter fun x => test x.1, facts[x.2]? = some x.1 := by
    intro x hx
    exact List.mk_mem_zipIdx_iff_getElem?.1 (List.mem_filter.1 hx).1
  calc (positions test facts).filterMap (fun i => facts[i]?)
    _ = (facts.zipIdx.filter fun x => test x.1).filterMap fun x => some x.1 := by
      rw [positions, List.filterMap_map]
      exact List.filterMap_congr hlookup
    _ = (facts.zipIdx.map Prod.fst).filter test := by
      rw [List.filter_map, ← List.filterMap_eq_map]
      rfl
    _ = facts.filter test := by rw [List.zipIdx_map_fst]

/-! ### Groups -/

/-- The fact is about the entity. -/
def about (e : String) (f : Fact) : Bool := f.subject? == some e

/-- The fact is about no entity. -/
def aboutNone (f : Fact) : Bool := f.subject? == none

/-- The positions about an entity are those of the facts with it as their subject. -/
theorem mem_positions_about :
    i ∈ positions (about e) facts ↔ ∃ f, facts[i]? = some f ∧ f.subject? = some e := by
  simp only [mem_positions, about, beq_iff_eq]

/-- The positions about no entity are those of the facts without a subject. -/
theorem mem_positions_aboutNone :
    i ∈ positions aboutNone facts ↔ ∃ f, facts[i]? = some f ∧ f.subject? = none := by
  simp only [mem_positions, aboutNone, beq_iff_eq]

/-- There is a group for each registered entity that some fact is about, in the order of the
register. -/
theorem groupsOf_eq (kb : KnowledgeBase) (facts : List Fact) :
    groupsOf kb facts =
      (kb.entities.toList.filter fun x => positions (about x.1) facts ≠ []).map fun x =>
        ⟨x.1, kb.taxonomy.name x.2, positions (about x.1) facts⟩ := by
  unfold groupsOf
  induction kb.entities.toList with
  | nil => rfl
  | cons x xs ih =>
    obtain ⟨entity, sort⟩ := x
    rw [List.filterMap_cons, List.filter_cons, ih]
    dsimp only
    have hpositions : positions (fun f => f.subject? == some entity) facts =
      positions (about entity) facts := rfl
    rw [hpositions]
    -- an entity that no fact is about has no group
    cases h : positions (about entity) facts with
    | nil => simp
    | cons i is => simp [h]

/-- A group is that of an entity of the register, with the positions of all facts about it. -/
theorem mem_groupsOf (hg : g ∈ groupsOf kb facts) :
    (∃ s, (g.entity, s) ∈ kb.entities.toList ∧ g.sort = kb.taxonomy.name s) ∧
      g.facts = positions (about g.entity) facts ∧ g.facts ≠ [] := by
  rw [groupsOf_eq, List.mem_map] at hg
  obtain ⟨x, hx, rfl⟩ := hg
  obtain ⟨hmem, hne⟩ := List.mem_filter.1 hx
  exact ⟨⟨x.2, hmem, rfl⟩, rfl, of_decide_eq_true hne⟩

/-- The facts of a group are about its entity. -/
theorem exists_of_mem_group (hg : g ∈ groupsOf kb facts) (hi : i ∈ g.facts) :
    ∃ f, facts[i]? = some f ∧ f.subject? = some g.entity := by
  rwa [(mem_groupsOf hg).2.1, mem_positions_about] at hi

/-- The groups stand in the order of the register. -/
theorem sublist_groupsOf (kb : KnowledgeBase) (facts : List Fact) :
    ((groupsOf kb facts).map Group.entity).Sublist kb.entityNames := by
  rw [groupsOf_eq, List.map_map]
  exact List.filter_sublist.map Prod.fst

/-- A fact is in the group of an entity of the register exactly when it is about that. -/
theorem exists_group_iff (hf : facts[i]? = some f)
    (hregistered : ∀ e, f.subject? = some e → e ∈ kb.entityNames) :
    (∃ g ∈ groupsOf kb facts, g.entity = e ∧ i ∈ g.facts) ↔ f.subject? = some e := by
  constructor
  · rintro ⟨g, hg, rfl, hi⟩
    obtain ⟨f', hf', hsubject⟩ := exists_of_mem_group hg hi
    rw [hf] at hf'
    rwa [Option.some.inj hf']
  · intro hsubject
    -- the entity is registered, so it has been looked at, and its group is not empty
    obtain ⟨x, hx, rfl⟩ := List.mem_map.1 (hregistered e hsubject)
    have hpos : i ∈ positions (about x.1) facts := mem_positions_about.2 ⟨f, hf, hsubject⟩
    refine ⟨⟨x.1, kb.taxonomy.name x.2, positions (about x.1) facts⟩, ?_, rfl, hpos⟩
    rw [groupsOf_eq]
    refine List.mem_map.2 ⟨x, List.mem_filter.2 ⟨hx, decide_eq_true ?_⟩, rfl⟩
    exact List.ne_nil_of_mem hpos

/-- No two groups share a fact, and none has a fact twice. -/
theorem nodup_grouped (hnodup : kb.entityNames.Nodup) (facts : List Fact) :
    ((groupsOf kb facts).flatMap Group.facts).Nodup := by
  have hentities : ((groupsOf kb facts).map Group.entity).Nodup :=
    hnodup.sublist (sublist_groupsOf kb facts)
  refine List.nodup_flatMap.2 ⟨fun g hg => ?_, ?_⟩
  · rw [(mem_groupsOf hg).2.1]
    exact nodup_positions _ _
  · -- a fact is about one entity at most
    refine (List.pairwise_map.1 hentities).imp_of_mem fun {g g'} hg hg' hne i hi hi' => ?_
    obtain ⟨f, hf, he⟩ := exists_of_mem_group hg hi
    obtain ⟨f', hf', he'⟩ := exists_of_mem_group hg' hi'
    rw [hf] at hf'
    rw [Option.some.inj hf', he'] at he
    exact hne (Option.some.inj he).symm

/-! ### What is left over -/

/-- The facts are about entities of the register only. -/
def Covered (kb : KnowledgeBase) (facts : List Fact) : Prop :=
  ∀ f ∈ facts, ∀ e, f.subject? = some e → e ∈ kb.entityNames

/-- What is left over comes in order. -/
theorem sorted_ungrouped (groups : List Group) (count : Nat) :
    (ungrouped groups count).Pairwise (· < ·) :=
  List.pairwise_lt_range.sublist List.filter_sublist

/-- What is left over is in no group. -/
theorem mem_ungrouped {groups : List Group} {count : Nat} :
    i ∈ ungrouped groups count ↔ i < count ∧ ∀ g ∈ groups, i ∉ g.facts := by
  rw [ungrouped, List.mem_filter, List.mem_range, List.all_eq_true]
  simp only [Bool.not_eq_true', List.contains_eq_mem, decide_eq_false_iff_not]

/-- What no group has are the facts about no entity, as long as the others are about entities of
the register. -/
theorem ungrouped_groupsOf (hcovered : Covered kb facts) :
    ungrouped (groupsOf kb facts) facts.length = positions aboutNone facts := by
  have hsorted := sorted_ungrouped (groupsOf kb facts) facts.length
  -- two increasing lists with the same members are the same
  refine List.Perm.eq_of_pairwise (fun a b _ _ hab hba => absurd hab (Nat.lt_asymm hba)) hsorted
    (sorted_positions _ _) ((List.perm_ext_iff_of_nodup (hsorted.imp fun h => Nat.ne_of_lt h)
      (nodup_positions _ _)).2 fun i => ?_)
  rw [mem_positions_aboutNone, mem_ungrouped]
  constructor
  · rintro ⟨hi, hnone⟩
    have hf : facts[i]? = some facts[i] := List.getElem?_eq_getElem hi
    refine ⟨facts[i], hf, Option.eq_none_iff_forall_ne_some.2 fun e hsubject => ?_⟩
    obtain ⟨g, hg, -, hmem⟩ :=
      (exists_group_iff hf (hcovered _ (List.getElem_mem hi))).2 hsubject
    exact hnone g hg hmem
  · rintro ⟨f, hf, hnone⟩
    refine ⟨(List.getElem?_eq_some_iff.1 hf).1, fun g hg hmem => ?_⟩
    have hsubject := (exists_group_iff hf (hcovered f (List.mem_of_getElem? hf))).1
      ⟨g, hg, rfl, hmem⟩
    rw [hnone] at hsubject
    cases hsubject

/-- If all entities are registered, what is left over are the facts without a subject. -/
theorem mem_ungrouped_iff (hcovered : Covered kb facts) (hf : facts[i]? = some f) :
    i ∈ ungrouped (groupsOf kb facts) facts.length ↔ f.subject? = none := by
  rw [ungrouped_groupsOf hcovered, mem_positions_aboutNone, hf]
  simp

/-- **The groups and what is left over are a partition of the facts.** -/
theorem perm_positions (hnodup : kb.entityNames.Nodup) (facts : List Fact) :
    ((groupsOf kb facts).flatMap Group.facts ++
      ungrouped (groupsOf kb facts) facts.length).Perm (List.range facts.length) := by
  refine (List.perm_ext_iff_of_nodup ?nodup List.nodup_range).2 fun i => ?mem
  case nodup =>
    refine List.nodup_append.2 ⟨nodup_grouped hnodup facts,
      (sorted_ungrouped _ _).imp fun h => Nat.ne_of_lt h, fun i hi j hj => ?_⟩
    rintro rfl
    obtain ⟨g, hg, hi⟩ := List.mem_flatMap.1 hi
    exact (mem_ungrouped.1 hj).2 g hg hi
  case mem =>
    rw [List.mem_append, List.mem_flatMap, List.mem_range, mem_ungrouped]
    constructor
    · rintro (⟨g, hg, hi⟩ | h)
      · obtain ⟨f, hf, -⟩ := exists_of_mem_group hg hi
        exact (List.getElem?_eq_some_iff.1 hf).1
      · exact h.1
    · intro hi
      -- what is in no group is left over
      by_cases hgroup : ∃ g ∈ groupsOf kb facts, i ∈ g.facts
      · exact Or.inl hgroup
      · exact Or.inr ⟨hi, fun g hg hmem => hgroup ⟨g, hg, hmem⟩⟩

/-! ### The summary -/

/-- The facts with that subject, or without one, that are neither quiet nor state existence. -/
def told (facts : List Fact) (subject : Option String) : List Fact :=
  facts.filter fun f => f.subject? = subject ∧ f.quiet = false ∧ f.existence = false

/-- What a summary says of a group. -/
def entry (facts : List Fact) (g : Group) : String :=
  if told facts (some g.entity) = [] then
    "You have " ++ article g.sort ++ " " ++ g.sort ++ " (" ++ g.entity ++ ")."
  else
    g.entity ++ " (" ++ g.sort ++ "): " ++
      String.intercalate ", " ((told facts (some g.entity)).map Fact.item) ++ "."

/-- What a summary says at its end, if there is anything to say of no entity. -/
def also (facts : List Fact) : List String :=
  if told facts none = [] then []
  else ["Also: " ++ String.intercalate ", " ((told facts none).map Fact.proposition) ++ "."]

/-- What is spoken of at positions are the facts that pass the test and are neither quiet nor state
existence. -/
theorem spoken_positions (test : Fact → Bool) (facts : List Fact) :
    spoken facts (positions test facts) =
      facts.filter fun f => test f = true ∧ f.quiet = false ∧ f.existence = false := by
  rw [spoken, facts_positions, List.filter_filter]
  refine List.filter_congr fun f _ => ?_
  cases htest : test f <;> simp [Fact.silent]

/-- The line of a group is what a summary says of it. -/
theorem groupLine_eq (hg : g ∈ groupsOf kb facts) : groupLine facts g = entry facts g := by
  have htold : spoken facts g.facts = told facts (some g.entity) := by
    rw [(mem_groupsOf hg).2.1, spoken_positions, told]
    simp only [about, beq_iff_eq]
  unfold groupLine entry
  rw [htold]
  cases told facts (some g.entity) <;> rfl

/-- The lines at the end are what a summary says of no entity. -/
theorem otherLines_eq (hcovered : Covered kb facts) :
    otherLines facts (ungrouped (groupsOf kb facts) facts.length) = also facts := by
  have htold : spoken facts (positions aboutNone facts) = told facts none := by
    rw [spoken_positions, told]
    simp only [aboutNone, beq_iff_eq]
  unfold otherLines also
  rw [ungrouped_groupsOf hcovered, htold]
  cases told facts none <;> rfl

/-- **A summary has one line for each group, and one more if there is something to say of no
entity.** -/
theorem summaryLines_eq (hcovered : Covered kb facts) :
    summaryLines facts (groupsOf kb facts) (ungrouped (groupsOf kb facts) facts.length) =
      (groupsOf kb facts).map (entry facts) ++ also facts := by
  rw [summaryLines, otherLines_eq hcovered]
  congr 1
  exact List.map_congr_left fun g hg => groupLine_eq hg

end Snapshot

end Storyworld
