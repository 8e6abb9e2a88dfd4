import Mathlib.Data.List.Nodup
import Storyworld.Proofs.Knowledge.Steps
import Storyworld.Proofs.Solver.Naming

namespace Storyworld

/-!
# The register of entities

An entity is registered once, at the end of the register, and is never taken out again (`Enlists`).
Declarations do so and checks of arguments do so, whether they are refused or not. A call is named
after its arguments have been checked, so the register is ahead of the solver: it has every entity
that the name of an atom mentions (`Listed`). That is kept by each step of a phrase
(`steps_listed`).
-/

namespace KnowledgeBase

open Action

variable {kb kb' kb'' : KnowledgeBase} {e : String}

/-- An entity has a sort exactly when it is registered. -/
theorem isSome_sortOf?_iff : (kb.sortOf? e).isSome ↔ e ∈ kb.entityNames := by
  unfold sortOf? entityNames
  rw [Option.isSome_map, Array.find?_isSome, List.mem_map]
  simp only [beq_iff_eq, Array.mem_toList_iff]

/-- An entity that is registered once has the sort that it stands with. -/
theorem sortOf?_of_mem (hnodup : kb.entityNames.Nodup) {s : SortId}
    (h : (e, s) ∈ kb.entities.toList) : kb.sortOf? e = some s := by
  have hsome : (kb.sortOf? e).isSome :=
    isSome_sortOf?_iff.2 (List.mem_map.2 ⟨(e, s), h, rfl⟩)
  obtain ⟨d, hd⟩ := Option.isSome_iff_exists.1 hsome
  obtain ⟨x, hx, rfl⟩ := Option.map_eq_some_iff.1 hd
  have hname : x.1 = e := beq_iff_eq.1 (Array.find?_some hx :)
  have hmem : x ∈ kb.entities.toList := Array.mem_toList_iff.2 (Array.mem_of_find?_eq_some hx)
  rw [hd, List.inj_on_of_nodup_map hnodup hmem h hname]

/-- The register of the second goes on from that of the first: the entities that were added come
last, and none is there twice on that account. -/
structure Enlists (kb kb' : KnowledgeBase) : Prop where
  kept : kb.entityNames <+: kb'.entityNames
  nodup : kb.entityNames.Nodup → kb'.entityNames.Nodup

/-- Where the entities are the same, none was added. -/
theorem enlists_of_entities (h : kb'.entities = kb.entities) : Enlists kb kb' := by
  have hnames : kb'.entityNames = kb.entityNames := by
    unfold entityNames
    rw [h]
  exact ⟨hnames ▸ List.prefix_refl _, hnames ▸ id⟩

theorem Enlists.refl (kb : KnowledgeBase) : Enlists kb kb := enlists_of_entities rfl

theorem Enlists.trans (h : Enlists kb kb') (h' : Enlists kb' kb'') : Enlists kb kb'' :=
  ⟨h.kept.trans h'.kept, fun hkb => h'.nodup (h.nodup hkb)⟩

/-- An entity that was registered is so still. -/
theorem Enlists.registered (h : Enlists kb kb') (he : (kb.sortOf? e).isSome) :
    (kb'.sortOf? e).isSome :=
  isSome_sortOf?_iff.2 (h.kept.subset (isSome_sortOf?_iff.1 he))

/-! ### Who is added -/

/-- Only an entity that is not registered is bound. -/
theorem enlists_bind {entity : String} (hnew : kb.sortOf? entity = none) (s : SortId) :
    Enlists kb (kb.bind entity s) := by
  have hnames : (kb.bind entity s).entityNames = kb.entityNames ++ [entity] := by
    show (kb.entities.push (entity, s)).toList.map Prod.fst = _
    rw [Array.toList_push, List.map_append]
    rfl
  -- the entity has no sort, so it is not in the register
  have hnot : entity ∉ kb.entityNames := by
    intro hmem
    rw [← isSome_sortOf?_iff, hnew] at hmem
    cases hmem
  refine ⟨by rw [hnames]; exact List.prefix_append _ _, fun hnodup => ?_⟩
  rw [hnames]
  refine List.nodup_append.2 ⟨hnodup, by simp, fun a ha b hb => ?_⟩
  rw [List.mem_singleton.1 hb]
  rintro rfl
  exact hnot ha

/-- To make sure of the sort of an entity adds it if it is new. -/
theorem enlists_ensureSort (kb : KnowledgeBase) (entity : String) (s : SortId) :
    Enlists kb (kb.ensureSort entity s).2 :=
  ensureSort_of (Enlists.refl kb) fun hnew => enlists_bind hnew s

/-- To declare an entity adds it, or is refused with nothing changed. -/
theorem preserves_enlists_declare (entity : String) (s : SortId) :
    Preserves (Enlists kb) (declare entity s) :=
  preserves_declare_of fun _ h hnew => h.trans (enlists_bind hnew s)

/-- To register a sort adds the instances that are new, up to one that is refused. -/
theorem preserves_enlists_registerSort (name parent : String) (instances : List String) :
    Preserves (Enlists kb) (registerSort name parent instances) := by
  intro t ht
  refine after_registerSort_of ht fun p s u _ _ => ⟨Enlists kb, ?_, ?_, fun _ => id⟩
  · -- the new sort leaves the register as it was
    exact ht.trans (enlists_of_entities rfl)
  · exact fun entity => preserves_enlists_declare entity s

/-- To check arguments adds those that are new. -/
theorem preserves_enlists_checkArguments (p : PredicateId) (args : Arguments) :
    Preserves (Enlists kb) (checkArguments p args) :=
  fun _ h => after_checkArguments_of h fun _ _ t ht => ht.trans (enlists_ensureSort t _ _)

/-- **A declaration adds entities at the end of the register only.** -/
theorem Declaration.enlists (d : Declaration) (kb : KnowledgeBase) : Enlists kb (d.perform kb) := by
  cases d with
  | sort name parent instances =>
    exact (preserves_enlists_registerSort name parent instances).stateAfter (Enlists.refl kb)
  | subsort name parent => exact enlists_of_entities rfl
  | member s e => exact enlists_of_entities rfl
  | entity e s => exact (preserves_enlists_declare e s).stateAfter (Enlists.refl kb)
  | default e s => exact enlists_ensureSort kb e s
  | _ => exact enlists_of_entities (sameEntities rfl kb).entities

/-- No entity is registered twice by declarations. -/
theorem Declared.nodup (h : kb.Declared) : kb.entityNames.Nodup := by
  induction h with
  | start root => exact List.nodup_nil
  | declaration hkb d ih => exact (d.enlists _).nodup ih

end KnowledgeBase

namespace Grounding

open Action KnowledgeBase

variable {ρ α : Type} {g : Grounding ρ}

/-! ### The register is ahead of the solver -/

/-- Every entity that the name of an atom mentions is registered. -/
def Covers (kb : KnowledgeBase) (atoms : Atoms) : Prop :=
  ∀ a x e, atoms.name? a = some x → x.Mentions e → (kb.sortOf? e).isSome

/-- No entity is registered twice, and the register covers the names of the solver. -/
structure Listed (g : Grounding ρ) : Prop where
  nodup : g.base.entityNames.Nodup
  covers : Covers g.base g.solver.atoms

/-- That the register covers the names is a matter of the names alone. -/
theorem covers_iff_only {kb : KnowledgeBase} {atoms : Atoms} :
    Covers kb atoms ↔ atoms.Only fun x => ∀ e, x.Mentions e → (kb.sortOf? e).isSome :=
  ⟨fun h a x ha e he => h a x e ha he, fun h a x e ha he => h a x ha e he⟩

/-- An atom without a name mentions no entity. -/
theorem padding_covers (kb : KnowledgeBase) : Atoms.Padding (Covers kb) :=
  fun s h => covers_iff_only.2 (Atoms.padding_only _ s (covers_iff_only.1 h))

/-- A name may be given if the entities that it mentions are registered. -/
theorem Covers.proposition {kb : KnowledgeBase} {s : Solver ρ} (h : Covers kb s.atoms)
    {x : Proposition} (hx : ∀ e, x.Mentions e → (kb.sortOf? e).isSome) :
    Covers kb (s.proposition x).2.atoms :=
  covers_iff_only.2 (Solver.only_proposition (covers_iff_only.1 h) hx)

/-- The register may go on. -/
theorem Listed.withBase (hg : g.Listed) {kb : KnowledgeBase} (h : Enlists g.base kb) :
    Listed { g with base := kb } :=
  ⟨h.nodup hg.nodup, fun a x e ha he => h.registered (hg.covers a x e ha he)⟩

/-- What adds to the register at most keeps it ahead of the solver. -/
theorem preserves_listed_onBase {act : EStateM Error KnowledgeBase α}
    (h : ∀ kb, Preserves (Enlists kb) act) : Preserves Listed (onBase (ρ := ρ) act) := by
  intro g hg
  rw [after_onBase]
  exact (h g.base g.base (Enlists.refl _)).mono (fun _ _ => hg.withBase) fun _ _ => hg.withBase

/-- What gives only names of registered entities keeps the register ahead of the solver. -/
theorem preserves_listed_onSolver {act : EStateM Error (Solver ρ) α}
    (h : ∀ kb, Preserves (fun s => Covers kb s.atoms) act) : Preserves Listed (onSolver act) := by
  intro g hg
  rw [after_onSolver]
  exact (h g.base g.solver hg.covers).mono (fun _ _ hs => ⟨hg.nodup, hs⟩)
    fun _ _ hs => ⟨hg.nodup, hs⟩

/-- **Whatever phrases lead to, the register stays ahead of the solver.** -/
theorem steps_listed : Steps (Listed (ρ := ρ)) where
  checks p args := preserves_listed_onBase fun _ => preserves_enlists_checkArguments p args
  modifies p f _ := preserves_modify fun g hg => by
    have henlists : Enlists g.base (g.base.modifyPredicate p f) := enlists_of_entities rfl
    exact hg.withBase henlists
  names _ _ hx hg := ⟨hg.nodup, hg.covers.proposition hx⟩
  heads a := preserves_listed_onSolver fun kb => Solver.preserves_atoms_addHead (Covers kb) a
  asserts c := preserves_listed_onSolver fun kb =>
    Solver.preserves_atoms_assert (padding_covers kb) c

end Grounding

end Storyworld
