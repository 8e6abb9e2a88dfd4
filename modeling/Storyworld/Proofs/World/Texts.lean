import Storyworld.Proofs.Knowledge.Utterances
import Storyworld.Proofs.World.Partition

namespace Storyworld

/-!
# Facts and their texts

A snapshot is searched for facts by their texts. Texts are not quoted, so two facts may have one text,
and then the first is found. In a world where nothing is named but what can be said in phrases
(`World.Spoken`), this happens in the cases of `Proposition.Clash` only (`Spoken.facts_by_text`), all
three of which do happen (`World.facts_clash`).

The crux is that facts are different by their atoms, and atoms by their names (`Reachable.indexed`), so
what is left is how names are spelled (`Utterance.text_eq_iff`).
-/

/-! ### Names and atoms -/

namespace Grounding

open Action

variable {ρ : Type}

/-- **Whatever is done with a world, names and the atoms that have them correspond.** -/
theorem lasting_indexed : Lasting (ρ := ρ) fun g => g.solver.atoms.Indexed := by
  have hsolver : ∀ {α : Type} {act : EStateM Error (Solver ρ) α},
      Preserves (fun s => s.atoms.Indexed) act →
      Preserves (fun g : Grounding ρ => g.solver.atoms.Indexed) (onSolver act) :=
    fun h g hg => after_onSolver.2 (h g.solver hg)
  have hpadding := Atoms.padding_indexed
  -- names are added in one place only, where an atom is made for a name that has none
  exact
    { checks := fun p args g hg => after_onBase.2 (by unfold After; split <;> exact hg)
      modifies := fun p f _ => preserves_modify fun g hg => hg
      names := fun x g _ hg => Solver.indexed_proposition hg x
      heads := fun a => hsolver (Solver.preserves_atoms_addHead _ a)
      asserts := fun c => hsolver (Solver.preserves_atoms_assert hpadding c)
      bounds := fun bound ls => hsolver (Solver.preserves_atoms_addAtMost hpadding bound ls)
      asks := fun g s hsame _ hg => by
        show s.atoms.Indexed
        rw [hsame.atoms]
        exact hg }

end Grounding

namespace World

/-- **In every world that can be reached, names and the atoms that have them correspond.** -/
theorem Reachable.indexed {ρ : Type} [RandomSource ρ] {w : World ρ} (hw : w.Reachable) :
    w.solver.atoms.Indexed := by
  induction hw with
  | start hbase hsolver grammar optimize => exact hsolver.indexed
  | move hw m ih =>
    refine Grounding.lasting_indexed.perform hw.wellFormed ih (fun n _ => ?_) fun _ _ => ih
    exact Solver.atoms_perform Atoms.padding_indexed (fun x _ => Solver.indexed_proposition ih x) ih

end World

/-! ### Facts -/

namespace Fact

/-- The proposition that the fact says is true. -/
def said (f : Fact) : Proposition := f.predicate.elim (.word f.proposition) fun p => .call ⟨p, f.args⟩

variable {f f' : Fact}

theorem said_ofProposition (kb : KnowledgeBase) (a : Atom) (x : Proposition) :
    (ofProposition kb a x).said = x := by
  cases x <;> rfl

theorem proposition_ofProposition (kb : KnowledgeBase) (a : Atom) (x : Proposition) :
    (ofProposition kb a x).proposition = x.text := by
  cases x <;> rfl

/-- What the facts say is different and has one text. -/
def Clashes (f f' : Fact) : Prop := f.said.Clash f'.said ∨ f'.said.Clash f.said

end Fact

namespace Snapshot

variable {kb : KnowledgeBase} {atoms : Atoms} {m : Model} {s : Snapshot} {f f' : Fact}

/-- The atom of a fact has the proposition that is said as its name. -/
theorem named_of_mem_factsOf (htop : atoms.name? Atom.top = none) (hf : f ∈ factsOf kb atoms m) :
    atoms.name? f.atom = some f.said ∧ f.proposition = f.said.text := by
  obtain ⟨a, x, hname, -, rfl⟩ := (mem_factsOf htop).1 hf
  rw [Fact.atom_ofProposition, Fact.said_ofProposition]
  exact ⟨hname, Fact.proposition_ofProposition kb a x⟩

/-- In increasing order, no two facts have one atom. -/
theorem eq_of_atom (h : s.facts.Pairwise fun f f' => f.atom < f'.atom) (hf : f ∈ s.facts)
    (hf' : f' ∈ s.facts) (hatom : f.atom = f'.atom) : f = f' := by
  have hnodup : (s.facts.map Fact.atom).Nodup :=
    List.pairwise_map.2 (h.imp fun hlt => Nat.ne_of_lt hlt)
  exact List.inj_on_of_nodup_map hnodup hf hf' hatom

/-- What is found for a text has it, and no other fact that has it comes before. -/
theorem least_of_fact? (h : s.facts.Pairwise fun f f' => f.atom < f'.atom) {text : String}
    (hf : s.fact? text = some f) :
    f ∈ s.facts ∧ f.proposition = text ∧ ∀ f' ∈ s.facts, f'.proposition = text → f.atom ≤ f'.atom := by
  obtain ⟨htext, before, rest, hsplit, hbefore⟩ := List.find?_eq_some_iff_append.1 hf
  refine ⟨List.mem_of_find?_eq_some hf, eq_of_beq htext, fun f' hf' htext' => ?_⟩
  -- what stands before the one that is found has another text, what follows has larger atoms
  rw [hsplit] at hf' h
  rcases List.mem_append.1 hf' with hf' | hf'
  · have hother := hbefore f' hf'
    rw [htext', beq_self_eq_true] at hother
    cases hother
  · rcases List.mem_cons.1 hf' with rfl | hf'
    · exact Nat.le_refl _
    · have hrest := (List.pairwise_append.1 h).2.1
      exact Nat.le_of_lt ((List.pairwise_cons.1 hrest).1 f' hf')

/-- What is found for a text is the first of the facts that have it. -/
theorem fact?_eq_some_iff (h : s.facts.Pairwise fun f f' => f.atom < f'.atom) {text : String} :
    s.fact? text = some f ↔ f ∈ s.facts ∧ f.proposition = text ∧
      ∀ f' ∈ s.facts, f'.proposition = text → f.atom ≤ f'.atom := by
  refine ⟨least_of_fact? h, fun ⟨hf, htext, hleast⟩ => ?_⟩
  cases hfound : s.fact? text with
  | none => exact absurd (beq_iff_eq.2 htext) (List.find?_eq_none.1 hfound f hf)
  | some g =>
    obtain ⟨hg, htext', hbefore⟩ := least_of_fact? h hfound
    rw [eq_of_atom h hg hf (Nat.le_antisymm (hbefore f hf htext) (hleast g hg htext'))]

/-- Two facts have one text exactly if they are one fact or are related. -/
def ToldApart (s : Snapshot) (R : Fact → Fact → Prop) : Prop :=
  ∀ f ∈ s.facts, ∀ f' ∈ s.facts, f.proposition = f'.proposition ↔ f = f' ∨ R f f'

namespace ToldApart

variable {R : Fact → Fact → Prop}

/-- The texts are different if no facts are related. -/
theorem nodup_iff (hs : s.ToldApart R) (h : s.facts.Pairwise fun f f' => f.atom < f'.atom) :
    (s.facts.map Fact.proposition).Nodup ↔ s.facts.Pairwise fun f f' => ¬ R f f' := by
  rw [List.Nodup, List.pairwise_map]
  constructor
  · intro hnodup
    refine hnodup.imp_of_mem fun hf hf' hne hrelated => ?_
    exact hne ((hs _ hf _ hf').2 (Or.inr hrelated))
  · intro hpairs
    refine (hpairs.and h).imp_of_mem fun hf hf' hpair htext => ?_
    rcases (hs _ hf _ hf').1 htext with rfl | hrelated
    · exact Nat.lt_irrefl _ hpair.2
    · exact hpair.1 hrelated

/-- What is found for a text is the fact that has it, or of related facts the first. -/
theorem fact?_iff (hs : s.ToldApart R) (h : s.facts.Pairwise fun f f' => f.atom < f'.atom)
    {text : String} : s.fact? text = some f ↔ f ∈ s.facts ∧ f.proposition = text ∧
      ∀ f' ∈ s.facts, R f f' → f.atom ≤ f'.atom := by
  rw [fact?_eq_some_iff h]
  refine and_congr_right fun hf => and_congr_right fun htext => ⟨fun hleast => ?_, fun hleast => ?_⟩
  · intro f' hf' hrelated
    have hsame := (hs f hf f' hf').2 (Or.inr hrelated)
    exact hleast f' hf' (hsame.symm.trans htext)
  · intro f' hf' htext'
    rcases (hs f hf f' hf').1 (htext.trans htext'.symm) with rfl | hrelated
    · exact Nat.le_refl _
    · exact hleast f' hf' hrelated

end ToldApart

end Snapshot

namespace World

open Action KnowledgeBase

variable {ρ : Type} {w t : World ρ}

/-! ### Worlds of which is spoken in phrases -/

/-- To read a text names nothing but utterances. -/
theorem maintains_spoken_literal {w₀ : World ρ} (hw : w₀.Regular) (text : String) :
    Maintains (Onto w₀ (Grounding.Spoken w₀.base)) (Onto w₀ (Grounding.Spoken w₀.base))
      (World.literal text) :=
  (Grounding.requests_spoken w₀.base).literal fun _ hread =>
    Grounding.maintains_spoken_literalOf hw.existence (hw.grammar.read hread)
      (Grammar.unbroken_of_read hread)

theorem reading_spoken {w₀ : World ρ} (hw : w₀.Regular) :
    Questionnaire.Reading (Onto w₀ (Grounding.Spoken w₀.base))
      (Onto w₀ (Grounding.Spoken w₀.base)) where
  refused _ := id
  literal := maintains_spoken_literal hw
  asserts c := maintains_onGrounding ((Grounding.requests_spoken w₀.base).asserts c)
  bounds bound ls := maintains_onGrounding (Grounding.maintains_spoken_addAtMost bound ls)

/-- The move names nothing but what can be said in phrases. -/
def Move.Speaks : Move → Prop
  | .solver m => m.Avoids fun x => ∃ c, x = .call c
  | .phrase said => said.Unbroken
  | .call _ entities => ∀ e ∈ entities, Text.Unbroken e
  | _ => True

variable [RandomSource ρ]

/-- The world comes from one that has only a root sort, no patterns and a new solver, by valid moves
that name nothing but what can be said in phrases. -/
inductive Spoken : World ρ → Prop where
  | start (root : String) (config : Config) (source : ρ) (optimize : Bool) :
    Spoken { base := KnowledgeBase.ofRoot root, solver := Solver.ofConfig config source, optimize }
  | move {w : World ρ} (hw : Spoken w) {m : Move} (hm : m.Valid w) (hspeaks : m.Speaks) :
    Spoken (m.perform w)

theorem Spoken.built (hw : w.Spoken) : w.Built := by
  induction hw with
  | start root config source optimize => exact .start root (.start config source) optimize
  | move hw hm _ ih => exact ih.move hm

theorem Spoken.reachable (hw : w.Spoken) : w.Reachable := by
  induction hw with
  | start root config source optimize => exact .start (.start root) (.start config source) {} optimize
  | move _ _ _ ih => exact ih.move _

/-- A world is still spoken after moves that speak. -/
theorem Spoken.run (hw : w.Spoken) {ms : List Move} (hms : ValidAll ms w)
    (hspeak : ∀ m ∈ ms, m.Speaks) : (w.run ms).Spoken := by
  induction ms generalizing w with
  | nil => exact hw
  | cons m ms ih =>
    exact ih (hw.move hms.1 (hspeak m List.mem_cons_self)) hms.2 fun n hn =>
      hspeak n (List.mem_cons_of_mem _ hn)

/-- A move that names nothing but what can be said in phrases keeps it so. -/
theorem Regular.uttered (hw : w.Regular) (huttered : Grounding.Uttered w.toGrounding) {m : Move}
    (hm : m.Valid w) (hspeaks : m.Speaks) : Grounding.Uttered (m.perform w).toGrounding := by
  -- what comes of a phrase names only utterances, whether it goes through or not
  have hspoken : ∀ {α : Type} {act : EStateM Error (World ρ) α},
      Maintains (Onto w (Grounding.Spoken w.base)) (Onto w (Grounding.Spoken w.base)) act →
      Grounding.Uttered (stateAfter act w).toGrounding :=
    fun h => (h w ⟨⟨hw.typed.kept, huttered⟩, rfl⟩).stateAfter.1.2
  have hrequests := Grounding.requests_spoken (ρ := ρ) w.base
  cases m with
  | solver m =>
    refine Solver.atoms_perform (Atoms.padding_only _) (fun x hx => ?_) huttered
    subst hx
    cases x with
    | word v => exact Solver.only_proposition huttered (.word v)
    -- the proposition of a call is not asked for by itself
    | call c => exact absurd ⟨c, rfl⟩ hspeaks
  | declare d => exact huttered.withBase fun _ => (d.develops hm hw.typed.orderly).1.utterance
  | pattern p text => exact huttered
  | phrase said =>
    exact hspoken (maintains_onGrounding
      (Grounding.maintains_spoken_literalOf hw.existence hm hspeaks))
  | literal text => exact hspoken (maintains_spoken_literal hw text)
  | call predicate entities =>
    refine hspoken (hrequests.call predicate fun p args hp hargs => ?_)
    have hwords : args.Unbroken := by
      rw [Arguments.Unbroken, Arguments.entities_of_ofList? hargs]
      exact hspeaks
    exact Grounding.maintains_spoken_atom (r := .call p args) hp hwords
  | existential predicate sort => exact hspoken (hrequests.existentialNamed predicate sort)
  | probe sets =>
    have htwin := Solver.twin_probe (s := w.solver) rfl sets.flatten
    rw [Move.perform, stateAfter_probe]
    exact huttered.withSolver htwin.atoms.symm
  | commit ls =>
    have htwin := Solver.twin_modelWith (s := w.solver) rfl w.optimize ls
    rw [Move.perform, (commit_spec ls w).2]
    exact huttered.withSolver htwin.atoms.symm
  | parse text => exact hspoken ((reading_spoken hw).parse text)

/-- **Where nothing is named but what can be said in phrases, all names are utterances.** -/
theorem Spoken.uttered (hw : w.Spoken) : Grounding.Uttered w.toGrounding := by
  induction hw with
  | start root config source optimize => exact Solver.only_ofConfig _ config source
  | move hw hm hspeaks ih => exact hw.built.regular.uttered ih hm hspeaks

/-! ### Facts by their texts -/

/-- **Texts tell facts apart, unless what the facts say clashes.** In every world in which nothing is
named but what can be said in phrases, a commit that goes through gives a snapshot each of whose facts
has the text of the proposition that is the name of its atom. Two of its facts have one text only if
one is a lone word that is spelled like the call that the other is, or they say the same of a sort
and of an entity that is called like it with the sign of sorts in front, or they are calls of two
predicates the name of one of which goes on, after an opening parenthesis, in the name of the other. So
the texts are different if no facts clash like this. A text leads to the fact that has it, and where
facts clash to the one whose atom was made first; a text that no fact has leads to none. -/
theorem Spoken.facts_by_text (hw : w.Spoken) {ls : List Literal} {snapshot : Snapshot}
    (h : commit ls w = .ok snapshot t) :
    (∀ f ∈ snapshot.facts, w.solver.atoms.name? f.atom = some f.said ∧
      w.base.Utterance f.said ∧ f.proposition = f.said.text) ∧
    (∀ f ∈ snapshot.facts, ∀ f' ∈ snapshot.facts,
      f.proposition = f'.proposition ↔ f = f' ∨ f.Clashes f') ∧
    ((snapshot.facts.map Fact.proposition).Nodup ↔
      snapshot.facts.Pairwise fun f f' => ¬ f.Clashes f') ∧
    ∀ text f, snapshot.fact? text = some f ↔ f ∈ snapshot.facts ∧ f.proposition = text ∧
      ∀ f' ∈ snapshot.facts, f.Clashes f' → f.atom ≤ f'.atom := by
  have hkb : w.base.Orderly := hw.built.regular.typed.orderly
  have htop := hw.reachable.wellFormed.atoms.top
  obtain ⟨m, -, -, rfl⟩ := modelWith_of_commit h
  -- facts are ordered by atoms, and atoms are told apart by names
  have hincreasing : (Snapshot.ofModel w.base w.solver.atoms m).facts.Pairwise
      fun f f' => f.atom < f'.atom := Snapshot.increasing_factsOf _ _ _
  have hnamed : ∀ f ∈ (Snapshot.ofModel w.base w.solver.atoms m).facts,
      w.solver.atoms.name? f.atom = some f.said ∧ w.base.Utterance f.said ∧
        f.proposition = f.said.text := by
    intro f hf
    obtain ⟨hname, htext⟩ := Snapshot.named_of_mem_factsOf htop hf
    exact ⟨hname, hw.uttered _ _ hname, htext⟩
  generalize Snapshot.ofModel w.base w.solver.atoms m = snapshot at *
  have htold : snapshot.ToldApart Fact.Clashes := by
    intro f hf f' hf'
    obtain ⟨hname, hsaid, htext⟩ := hnamed f hf
    obtain ⟨hname', hsaid', htext'⟩ := hnamed f' hf'
    rw [htext, htext', hsaid.text_eq_iff hkb hsaid']
    refine or_congr_left ⟨fun hsame => ?_, fun hsame => congrArg Fact.said hsame⟩
    exact Snapshot.eq_of_atom hincreasing hf hf'
      (hw.reachable.indexed.eq hname (hsame ▸ hname'))
  exact ⟨hnamed, htold, htold.nodup_iff hincreasing, fun _ _ => htold.fact?_iff hincreasing⟩

/-- Some person waits, Ann waits, Ann knows Bob, and it rains. No two of these have one text. -/
theorem facts_by_text_ann :
    let ms : List Move := [.declare (.subsort "person" 0), .declare (.predicate "waits" (.unary 1)),
      .declare (.predicate "knows" (.binary 1 1)), .pattern 0 "_ waits", .pattern 1 "_ knows _",
      .literal "not person waits", .literal "Ann waits", .literal "Ann knows Bob", .literal "rain"]
    let ls := [Literal.pos 1, Literal.pos 2, Literal.pos 3, Literal.pos 4]
    let w := (World.empty "entity" {}).run ms
    w.Spoken ∧ ∃ snapshot t, commit ls w = .ok snapshot t ∧
      snapshot.facts.map Fact.proposition =
        ["waits(§person)", "waits(Ann)", "knows(Ann, Bob)", "rain"] ∧
      (snapshot.facts.Pairwise fun f f' => ¬ f.Clashes f') ∧
      ∀ f ∈ snapshot.facts, snapshot.fact? f.proposition = some f := by
  intro ms ls w
  have hvalid : ValidAll ms (World.empty "entity" {}) := by decide +kernel
  have hw : w.Spoken := by
    refine Spoken.run (.start "entity" {} _ false) hvalid ?_
    simp [ms, Move.Speaks]
  have hgoes : (value? (commit ls) w).map (fun s => s.facts.map Fact.proposition) =
      some ["waits(§person)", "waits(Ann)", "knows(Ann, Bob)", "rain"] := by decide +kernel
  obtain ⟨snapshot, hsnapshot, htexts⟩ := Option.map_eq_some_iff.1 hgoes
  have hcommit := eq_ok_of_value? hsnapshot
  have hnodup : (snapshot.facts.map Fact.proposition).Nodup := by
    rw [htexts]
    decide
  obtain ⟨-, hsame, hdistinct, hfound⟩ := hw.facts_by_text hcommit
  refine ⟨hw, snapshot, _, hcommit, htexts, hdistinct.1 hnodup, fun f hf => ?_⟩
  refine (hfound f.proposition f).2 ⟨hf, rfl, fun f' hf' hclash => ?_⟩
  have htext := (hsame f hf f' hf').2 (Or.inr hclash)
  rw [List.inj_on_of_nodup_map hnodup hf hf' htext]

/-- Each kind of clash does happen. A word is spelled like the call that mother is dead; an entity
is called like the sort of persons, with the sign of sorts; and the name of a predicate goes on in that
of another. -/
theorem facts_clash :
    let ms : List Move := [.declare (.subsort "person" 0), .declare (.predicate "dead" (.unary 1)),
      .declare (.predicate "dead(x" (.unary 1)), .pattern 0 "_ is dead", .pattern 1 "_ is strange",
      .literal "dead(mother)", .literal "mother is dead", .literal "person is dead",
      .literal "§person is dead", .literal "y is strange", .literal "x(y is dead"]
    let ls := [Literal.pos 1, Literal.pos 2, Literal.pos 3, Literal.pos 4, Literal.pos 5,
      Literal.pos 6]
    let w := (World.empty "entity" {}).run ms
    w.Spoken ∧ ∃ snapshot t, commit ls w = .ok snapshot t ∧
      snapshot.facts.map Fact.said =
        [.word "dead(mother)", .ofEntities "dead" ["mother"], .ofSort "dead" "person",
          .ofEntities "dead" ["§person"], .ofEntities "dead(x" ["y"], .ofEntities "dead" ["x(y"]] ∧
      snapshot.facts.map Fact.proposition =
        ["dead(mother)", "dead(mother)", "dead(§person)", "dead(§person)", "dead(x(y)",
          "dead(x(y)"] ∧
      ¬ (snapshot.facts.map Fact.proposition).Nodup ∧
      (snapshot.fact? "dead(mother)").map Fact.said = some (.word "dead(mother)") := by
  intro ms ls w
  have hvalid : ValidAll ms (World.empty "entity" {}) := by decide +kernel
  have hw : w.Spoken := by
    refine Spoken.run (.start "entity" {} _ false) hvalid ?_
    simp [ms, Move.Speaks]
  have hgoes : (value? (commit ls) w).map (fun s => (s.facts.map Fact.said,
      s.facts.map Fact.proposition, (s.fact? "dead(mother)").map Fact.said)) =
      some ([.word "dead(mother)", .ofEntities "dead" ["mother"], .ofSort "dead" "person",
          .ofEntities "dead" ["§person"], .ofEntities "dead(x" ["y"], .ofEntities "dead" ["x(y"]],
        ["dead(mother)", "dead(mother)", "dead(§person)", "dead(§person)", "dead(x(y)",
          "dead(x(y)"],
        some (.word "dead(mother)")) := by decide +kernel
  obtain ⟨snapshot, hsnapshot, hparts⟩ := Option.map_eq_some_iff.1 hgoes
  obtain ⟨hsaid, hrest⟩ := Prod.mk.inj hparts
  obtain ⟨htexts, hfound⟩ := Prod.mk.inj hrest
  refine ⟨hw, snapshot, _, eq_ok_of_value? hsnapshot, hsaid, htexts, ?_, hfound⟩
  rw [htexts]
  decide

end World

end Storyworld
