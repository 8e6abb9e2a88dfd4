import Storyworld.Proofs.Knowledge.Register
import Storyworld.Proofs.Solver.Unseen
import Storyworld.Proofs.World.Grouping
import Storyworld.Proofs.World.Lasting
import Storyworld.Proofs.World.Modesty

namespace Storyworld

/-!
# A snapshot is a partition of what is true

The snapshot of a commit has one fact for each named atom that is true on its model, and each fact
belongs to the group of the entity that it is about, or to no group if it is about none
(`Introduced.commit_exact`). That a fact is never lost rests on the register: it has every entity
that a named call mentions, and has it once. This holds in every world that is `Introduced`, in
which the solver hears of entities through the knowledge base only.

* `lasting_listed`: the register stays ahead of the solver, whatever the move.
* `Solver.WellFormed.after_modelWith_holds`: what is demanded is true on the model that is found. A
  rule may have top as its head here, so it rests on the search that overlooks unseen clauses.
* `Snapshot.perm_positions` and `Snapshot.summaryLines_eq`: what follows for groups and summary.
-/

namespace Solver

open Action

variable {ρ : Type} {s : Solver ρ}

theorem after_forceAll_assumed (ls : List Literal) (s : Solver ρ) :
    After (forceAll ls) s (fun _ t => t.assumptions = s.assumptions ++ ls) fun _ _ => True := by
  refine after_forM (I := fun ms (t : Solver ρ) => t.assumptions = s.assumptions ++ ms)
    (fun ms l rest _ t ht => ?_) (List.append_nil _).symm
  refine (after_force l t).mono (fun _ u h => ?_) fun _ _ _ => trivial
  rw [h.2, ← List.append_assoc, ← ht]

variable [RandomSource ρ]

/-- What is demanded of a model is true on the one that is found, whatever rules there are. -/
theorem WellFormed.after_modelWith_holds (hs : s.WellFormed) (optimize : Bool)
    (ls : List Literal) :
    After (modelWith optimize ls) s
      (fun m _ => ∀ model, m = some model → ∀ l ∈ ls, model.holds l = true) fun _ _ => True := by
  have hforced := (preserves_forceAll ls s.reset hs.grown.reset).and
    (after_forceAll_assumed ls s.reset)
  refine after_apart.2 (after_bind.2 (hforced.mono (fun _ t ht => ?_) fun _ _ _ => trivial))
  refine after_modifyGet.2 fun model hmodel l hl => ?_
  have hanswers := ht.1.1.solve_seen optimize
  rw [hmodel] at hanswers
  refine Model.satisfies_iff_holds.1 (hanswers.2.2 l ?_)
  rw [ht.2]
  exact List.mem_append_right _ hl

end Solver

namespace Grounding

variable {ρ : Type}

/-- **Whatever is done with a world, the register stays ahead of its solver.** -/
theorem lasting_listed : Lasting (Listed (ρ := ρ)) where
  toSteps := steps_listed
  bounds bound ls := preserves_listed_onSolver fun kb =>
    Solver.preserves_atoms_addAtMost (padding_covers kb) bound ls
  asks g s hsame _ hg := by
    refine ⟨hg.nodup, ?_⟩
    show Covers g.base s.atoms
    rw [hsame.atoms]
    exact hg.covers

end Grounding

/-! ### Facts -/

namespace Model

variable {m : Model} {a : Atom}

theorem sorted_trueAtoms (m : Model) : m.trueAtoms.Pairwise (· < ·) :=
  List.pairwise_lt_range.sublist List.filter_sublist

/-- The true atoms are those whose positive literal holds, top left out. -/
theorem mem_trueAtoms_iff_holds :
    a ∈ m.trueAtoms ↔ a ≠ Atom.top ∧ m.holds (Literal.pos a) = true := by
  rw [mem_trueAtoms, ← satisfies_iff_holds]
  refine and_congr_right fun _ => and_iff_right_of_imp fun htrue => ?_
  have htrue : (m.value? a).getD false = true := htrue
  cases hvalue : m.value? a with
  | none =>
    rw [hvalue] at htrue
    cases htrue
  | some b => exact (Array.getElem?_eq_some_iff.1 hvalue).1

end Model

namespace Fact

theorem atom_ofProposition (kb : KnowledgeBase) (a : Atom) (x : Proposition) :
    (ofProposition kb a x).atom = a := by
  cases x <;> rfl

/-- The entity that a fact is about is mentioned by the proposition. -/
theorem mentions_of_subject? {kb : KnowledgeBase} {a : Atom} {x : Proposition} {e : String}
    (h : (ofProposition kb a x).subject? = some e) : x.Mentions e := by
  have hhead := subject?_eq_some_iff.1 h
  cases x with
  | word w => cases hhead
  | call c => exact List.mem_of_mem_head? (Option.mem_def.2 hhead)

end Fact

namespace Snapshot

variable {kb : KnowledgeBase} {atoms : Atoms} {m : Model} {f : Fact}

/-- The facts are the named atoms that are true on the model. -/
theorem mem_factsOf (htop : atoms.name? Atom.top = none) :
    f ∈ factsOf kb atoms m ↔ ∃ a x, atoms.name? a = some x ∧
      m.holds (Literal.pos a) = true ∧ f = Fact.ofProposition kb a x := by
  unfold factsOf
  simp only [List.mem_filterMap, Option.map_eq_some_iff, Model.mem_trueAtoms_iff_holds]
  constructor
  · rintro ⟨a, ⟨-, hholds⟩, x, hname, rfl⟩
    exact ⟨a, x, hname, hholds, rfl⟩
  · rintro ⟨a, x, hname, hholds, rfl⟩
    refine ⟨a, ⟨?_, hholds⟩, x, hname, rfl⟩
    -- top has no name
    rintro rfl
    rw [htop] at hname
    cases hname

/-- Facts stand in the order of their atoms. -/
theorem increasing_factsOf (kb : KnowledgeBase) (atoms : Atoms) (m : Model) :
    (factsOf kb atoms m).Pairwise fun f f' => f.atom < f'.atom := by
  refine List.Pairwise.filterMap _ (fun a a' hlt f hf f' hf' => ?_) m.sorted_trueAtoms
  obtain ⟨x, -, rfl⟩ := Option.map_eq_some_iff.1 hf
  obtain ⟨x', -, rfl⟩ := Option.map_eq_some_iff.1 hf'
  rwa [Fact.atom_ofProposition, Fact.atom_ofProposition]

/-! ### Snapshots -/

/-- The snapshot is an exact account of its model, on which the literals are true. -/
structure Exact (kb : KnowledgeBase) (atoms : Atoms) (ls : List Literal) (s : Snapshot) :
    Prop where
  /-- The facts are those of the named atoms that are true. -/
  mem_facts : ∀ f, f ∈ s.facts ↔ ∃ a x, atoms.name? a = some x ∧
    s.model.holds (Literal.pos a) = true ∧ f = Fact.ofProposition kb a x
  increasing : s.facts.Pairwise fun f f' => f.atom < f'.atom
  implications : ∀ l ∈ ls, s.holds l = true
  /-- Every position is in one group or in none, and there once. -/
  once : (s.groups.flatMap Group.facts ++ s.other).Perm (List.range s.facts.length)
  mem_group : ∀ i f, s.facts[i]? = some f → ∀ e,
    (∃ g ∈ s.groups, g.entity = e ∧ i ∈ g.facts) ↔ f.args.head? = some (.entity e)
  mem_other : ∀ i f, s.facts[i]? = some f →
    (i ∈ s.other ↔ ∀ e, f.args.head? ≠ some (.entity e))
  nonempty : ∀ g ∈ s.groups, g.facts ≠ []
  ascending : (∀ g ∈ s.groups, g.facts.Pairwise (· < ·)) ∧ s.other.Pairwise (· < ·)
  single : (s.groups.map Group.entity).Nodup
  /-- The groups stand in the order in which the entities were registered. -/
  order : (s.groups.map Group.entity).Sublist kb.entityNames
  sorts : ∀ g ∈ s.groups, ∃ sort, kb.sortOf? g.entity = some sort ∧
    g.sort = kb.taxonomy.name sort
  /-- The lines of the summary are one for each group, and one at the end if there is something to
  say of no entity. -/
  summary : s.summary =
    String.intercalate "\n" (s.groups.map (entry s.facts) ++ also s.facts)

end Snapshot

namespace World

open Action

variable {ρ : Type} [RandomSource ρ] {w t : World ρ}

/-- A commit that goes through takes its snapshot of the model that it has found. -/
theorem modelWith_of_commit {ls : List Literal} {snapshot : Snapshot}
    (h : commit ls w = .ok snapshot t) :
    ∃ m s, Solver.modelWith w.optimize ls w.solver = .ok (some m) s ∧
      snapshot = Snapshot.ofModel w.base w.solver.atoms m := by
  have hatoms := (Solver.twin_modelWith (s := w.solver) rfl w.optimize ls).atoms
  unfold stateAfter at hatoms
  rw [commit_eq] at h
  -- a commit that went through has found a model
  cases hmodel : Solver.modelWith w.optimize ls w.solver with
  | error e s =>
    rw [hmodel] at h
    cases h
  | ok m s =>
    rw [hmodel] at h hatoms
    cases m with
    | none => cases h
    | some m =>
      cases h
      exact ⟨m, s, rfl, congrArg (fun atoms => Snapshot.ofModel w.base atoms m) hatoms.symm⟩

/-! ### Worlds whose entities are introduced -/

/-- The solver is not asked, past the knowledge base, for an atom whose name mentions an entity. -/
def Move.Introduces : Move → Prop
  | .solver m => m.Avoids fun x => ∃ e, x.Mentions e
  | _ => True

/-- The world comes from declarations and a new solver by moves that leave it to the knowledge base to
name calls. -/
inductive Introduced : World ρ → Prop where
  | start {base : KnowledgeBase} (hbase : base.Declared) (config : Config) (source : ρ)
    (grammar : Grammar) (optimize : Bool) :
    Introduced { base, solver := Solver.ofConfig config source, grammar, optimize }
  | move {w : World ρ} (hw : Introduced w) {m : Move} (hm : m.Introduces) :
    Introduced (m.perform w)

theorem Introduced.reachable (hw : w.Introduced) : w.Reachable := by
  induction hw with
  | start hbase config source grammar optimize =>
    exact Reachable.start hbase (Solver.Reachable.start config source) grammar optimize
  | move hw hm ih => exact ih.move _

/-- **In a world whose entities are introduced, the register is ahead of the solver.** -/
theorem Introduced.listed (hw : w.Introduced) : Grounding.Listed w.toGrounding := by
  induction hw with
  | start hbase config source grammar optimize =>
    exact ⟨hbase.nodup, Grounding.covers_iff_only.2 (Solver.only_ofConfig _ config source)⟩
  | move hw hm ih =>
    refine Grounding.lasting_listed.perform hw.reachable.wellFormed ih (fun n hn => ?_)
      fun d _ => ih.withBase (d.enlists _)
    subst hn
    refine ⟨ih.nodup, Solver.atoms_perform (Grounding.padding_covers _) (fun x hx => ?_) ih.covers⟩
    subst hx
    exact ih.covers.proposition fun e he => absurd ⟨e, he⟩ hm

theorem Introduced.run (hw : w.Introduced) {ms : List Move} (hms : ∀ m ∈ ms, m.Introduces) :
    (w.run ms).Introduced := by
  induction ms generalizing w with
  | nil => exact hw
  | cons m ms ih =>
    exact ih (hw.move (hms m List.mem_cons_self)) fun n hn => hms n (List.mem_cons_of_mem _ hn)

/-- Every entity that a fact is about is registered. -/
theorem Introduced.covered (hw : w.Introduced) (m : Model) :
    Snapshot.Covered w.base (Snapshot.factsOf w.base w.solver.atoms m) := by
  have hatoms := hw.reachable.wellFormed.atoms
  intro f hf e he
  obtain ⟨a, x, hname, -, rfl⟩ := (Snapshot.mem_factsOf hatoms.top).1 hf
  refine KnowledgeBase.isSome_sortOf?_iff.1 ?_
  exact hw.listed.covers a x e hname (Fact.mentions_of_subject? he)

/-- **The snapshot of a commit is a partition of exactly the true propositions.** In every world that
comes by moves through its knowledge base and its grammar, a commit that goes through gives a
snapshot whose facts are those of the named atoms that are true on its model, in increasing order,
and on which every implication is true. Each fact is in the group of the entity that is its first
argument, or in no group if that is no entity, and nowhere else. The groups are non-empty and stand
in the order of the register, one for each entity. The summary has one line for each group, which
lists the facts of the group that are neither quiet nor state existence, and a last line for those
that belong to no group. -/
theorem Introduced.commit_exact (hw : w.Introduced) {ls : List Literal} {snapshot : Snapshot}
    (h : commit ls w = .ok snapshot t) : snapshot.Exact w.base w.solver.atoms ls := by
  have hwf := hw.reachable.wellFormed
  obtain ⟨m, u, hm, rfl⟩ := modelWith_of_commit h
  have hholds := (hwf.after_modelWith_holds w.optimize ls).of_ok hm
  -- whoever a fact is about is registered, so no fact falls between the groups
  have hcovered := hw.covered m
  have hnodup := hw.listed.nodup
  exact
    { mem_facts := fun f => Snapshot.mem_factsOf hwf.atoms.top
      increasing := Snapshot.increasing_factsOf _ _ _
      implications := hholds m rfl
      once := Snapshot.perm_positions hnodup _
      mem_group := fun i f hf e => (Snapshot.exists_group_iff hf
        (hcovered f (List.mem_of_getElem? hf))).trans Fact.subject?_eq_some_iff
      mem_other := fun i f hf => by
        rw [← Fact.subject?_eq_none_iff]
        exact Snapshot.mem_ungrouped_iff hcovered hf
      nonempty := fun g hg => (Snapshot.mem_groupsOf hg).2.2
      ascending := ⟨fun g hg => (Snapshot.mem_groupsOf hg).2.1 ▸ Snapshot.sorted_positions _ _,
        Snapshot.sorted_ungrouped _ _⟩
      single := hnodup.sublist (Snapshot.sublist_groupsOf _ _)
      order := Snapshot.sublist_groupsOf _ _
      sorts := fun g hg => by
        obtain ⟨⟨s, hmem, hsort⟩, -⟩ := Snapshot.mem_groupsOf hg
        exact ⟨s, KnowledgeBase.sortOf?_of_mem hnodup hmem, hsort⟩
      summary := congrArg (String.intercalate "\n") (Snapshot.summaryLines_eq hcovered) }

/-- Bob exists, Ann waits, it rains, and some person waits: nothing but his existence is known of
Bob, and the last two facts are about nobody. -/
theorem commit_exact_ann :
    let ms : List Move := [.declare (.subsort "person" 0), .declare (.entity "Ann" 1),
      .declare (.entity "Bob" 1), .declare (.predicate "waits" (.unary 0)), .pattern 0 "_ waits",
      .declare (.predicate "exists" (.unary 0)), .declare (.existence 1), .call "exists" ["Bob"],
      .literal "Ann waits", .literal "rain", .existential "waits" "person"]
    let ls := [Literal.pos 1, Literal.pos 2, Literal.pos 3]
    let w := (World.empty "entity" {}).run ms
    w.Introduced ∧ ∃ snapshot t, commit ls w = .ok snapshot t ∧
      snapshot.groups = [⟨"Ann", "person", [1]⟩, ⟨"Bob", "person", [0]⟩] ∧
      snapshot.other = [2, 3] ∧
      snapshot.summary =
        "Ann (person): waits.\nYou have a person (Bob).\nAlso: rain, waits(§person)." ∧
      snapshot.Exact w.base w.solver.atoms ls := by
  intro ms ls w
  have hw : w.Introduced := by
    refine Introduced.run (.start (.start "entity") {} _ {} false) ?_
    simp [ms, Move.Introduces]
  have hgoes : (value? (commit ls) w).map (fun s => (s.groups, s.other, s.summary)) =
      some ([⟨"Ann", "person", [1]⟩, ⟨"Bob", "person", [0]⟩], [2, 3],
        "Ann (person): waits.\nYou have a person (Bob).\nAlso: rain, waits(§person).") := by
    decide +kernel
  obtain ⟨snapshot, hsnapshot, hparts⟩ := Option.map_eq_some_iff.1 hgoes
  obtain ⟨hgroups, hrest⟩ := Prod.mk.inj hparts
  obtain ⟨hother, hsummary⟩ := Prod.mk.inj hrest
  have hcommit := eq_ok_of_value? hsnapshot
  exact ⟨hw, snapshot, _, hcommit, hgroups, hother, hsummary, hw.commit_exact hcommit⟩

end World

end Storyworld
