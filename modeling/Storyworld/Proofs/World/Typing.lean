import Storyworld.Proofs.Knowledge.Phrases
import Storyworld.Proofs.World.Probes

namespace Storyworld

/-!
# Worlds stay well typed

`World.Built` says that a world comes from one without predicates by moves that speak of sorts and
predicates that exist, any of which may be refused. Every move keeps such a world `Regular`: what its
predicates remember is well typed, and its existence predicate and the predicates of its patterns
exist. So the domains, the register of entities, the taxonomy and the names of the solver fit
together in every world that is built (`Built.well_typed`), and nothing is forgotten that was called
before (`Regular.run`).

* `Carried.literal` and `Carried.reading` bring an invariant from groundings to worlds: a phrase that
  is read has predicates of the grammar, and a questionnaire is read phrase by phrase
  (`Questionnaire.Reading.parse`).
* `Regular.perform` is the step, with one case for each move, and `Regular.run` the run.
-/

-- that a text is read is all that matters here, and not what it is read as
seal Grammar.read

namespace World

open Action

variable {ρ α : Type} {w w₀ : World ρ} {P Q : Grounding ρ → Prop}

/-! ### From groundings to worlds -/

/-- The world differs from the first in its grounding only, of which `P` holds. -/
def Onto (w₀ : World ρ) (P : Grounding ρ → Prop) (w : World ρ) : Prop :=
  P w.toGrounding ∧ w = { w₀ with toGrounding := w.toGrounding }

/-- What maintains an invariant of groundings maintains it in a world. -/
theorem maintains_onGrounding {act : EStateM Error (Grounding ρ) α} (h : Maintains P Q act) :
    Maintains (Onto w₀ P) (Onto w₀ Q) (onGrounding act) := by
  rintro w ⟨hP, hw⟩
  refine after_onGrounding.2 ((h w.toGrounding hP).mono (fun a g hg => ⟨hg, ?_⟩)
    fun e g hg => ⟨hg, ?_⟩)
  · rw [hw]
  · rw [hw]

end World

namespace KnowledgeBase

/-- What is found by its name is a predicate there is. -/
theorem lt_of_findPredicate {kb : KnowledgeBase} {name : String} {p : PredicateId}
    (h : kb.findPredicate name = .ok p) : p < kb.predicates.size := by
  unfold findPredicate at h
  split at h
  · rename_i hnamed
    cases h
    exact (Array.findIdx?_eq_some_iff_getElem.1 hnamed).1
  · cases h

end KnowledgeBase

namespace Grounding

open Action KnowledgeBase

variable {ρ : Type} {kb : KnowledgeBase} {P Q : Grounding ρ → Prop} {w₀ : World ρ}

namespace Requests

theorem onto (h : Requests kb P Q) : ∀ w, World.Onto w₀ P w → World.Onto w₀ Q w :=
  fun _ hw => ⟨h.refused _ hw.1, hw.2⟩

/-- To ask for an existential by names is to look up the predicate and the sort first. -/
theorem existentialNamed (h : Requests kb P Q) (predicate sort : String) :
    Maintains (World.Onto w₀ P) (World.Onto w₀ Q) (World.existential predicate sort) := by
  refine maintains_get fun w hw => maintains_ofExcept_bind h.onto fun p hfind =>
    maintains_ofExcept_bind h.onto fun s hsort => ?_
  have hp : p < kb.predicates.size := (h.numbers _ hw.1).size ▸ lt_of_findPredicate hfind
  have hs : s < kb.taxonomy.size := (h.numbers _ hw.1).sorts ▸ Taxonomy.lt_of_find hsort
  exact World.maintains_onGrounding (h.existential hp hs)

/-- A text is read as a phrase of the grammar. -/
theorem literal (h : Requests kb P Q) {text : String}
    (hphrase : ∀ phrase, w₀.grammar.read text = .ok phrase → Maintains P Q (literalOf phrase)) :
    Maintains (World.Onto w₀ P) (World.Onto w₀ Q) (World.literal text) := by
  refine maintains_get fun w hw => maintains_ofExcept_bind h.onto fun phrase hread => ?_
  rw [hw.2] at hread
  exact World.maintains_onGrounding (hphrase phrase hread)

/-- A predicate of the name is called on the entities. -/
theorem call (h : Requests kb P Q) (predicate : String) {entities : List String}
    (hcall : ∀ p args, p < kb.predicates.size → Arguments.ofList? entities = some args →
      Maintains P Q (Grounding.call p args)) :
    Maintains (World.Onto w₀ P) (World.Onto w₀ Q) (World.call predicate entities) := by
  refine maintains_get fun w hw => maintains_ofExcept_bind h.onto fun p hfind => ?_
  have hp : p < kb.predicates.size := (h.numbers _ hw.1).size ▸ lt_of_findPredicate hfind
  split
  · rename_i args hargs
    exact World.maintains_onGrounding (hcall p args hp hargs)
  · exact maintains_throw h.onto _

end Requests

namespace Carried

theorem literal (h : Carried kb P Q) (hgrammar : w₀.grammar.Below kb.predicates.size)
    (text : String) : Maintains (World.Onto w₀ P) (World.Onto w₀ Q) (World.literal text) :=
  h.toRequests.literal fun _ hread => h.literalOf (hgrammar.read hread)

theorem call (h : Carried kb P Q) (predicate : String) (entities : List String) :
    Maintains (World.Onto w₀ P) (World.Onto w₀ Q) (World.call predicate entities) :=
  h.toRequests.call predicate fun p args hp _ => h.calls p args hp

end Carried

end Grounding

/-! ### Questionnaires -/

namespace Questionnaire

open Action

variable {ρ : Type} {P Q : World ρ → Prop}

/-- The invariant `P` is maintained by whatever the reading of a questionnaire comes down to: phrases
are read, and something is asserted of them. -/
structure Reading (P Q : World ρ → Prop) : Prop where
  refused : ∀ w, P w → Q w
  literal : ∀ text, Maintains P Q (World.literal text)
  asserts : ∀ c, Maintains P Q (World.onSolver (Solver.assert c))
  bounds : ∀ bound ls, Maintains P Q (World.onSolver (Solver.addAtMost bound ls))

namespace Reading

/-- A list of phrases is read phrase by phrase. -/
theorem literals (h : Reading P Q) (list : String) :
    Maintains P Q (Questionnaire.literals list) := by
  unfold Questionnaire.literals
  generalize Text.commaParts list = phrases
  induction phrases with
  | nil => exact maintains_pure _
  | cons phrase phrases ih =>
    exact (h.literal phrase).bind fun _ => ih.bind fun _ => maintains_pure _

/-- A head is read like any phrase, and may be refused afterwards. -/
theorem headAtom (h : Reading P Q) (head : String) :
    Maintains P Q (Questionnaire.headAtom head) := by
  refine (h.literal head).bind fun l => ?_
  split
  · exact maintains_pure _
  · exact maintains_throw h.refused _

/-- That exactly one of some literals is true is a clause and a bound. -/
theorem unique (h : Reading P Q) (ls : List Literal) :
    Maintains P Q (World.onSolver (Solver.unique ls)) := by
  intro w hw
  have hassert := World.after_onSolver.1 (h.asserts (.clause ls) w hw)
  refine World.after_onSolver.2 (after_bind.2 (hassert.imp_done fun _ s hs => ?_))
  exact World.after_onSolver.1 (h.bounds 1 ls _ hs)

/-- A line is read phrase by phrase, and then something is asserted. -/
theorem readLine (h : Reading P Q) (d : Draft) (line : String) :
    Maintains P Q (Questionnaire.readLine d line) := by
  unfold Questionnaire.readLine
  split
  · exact maintains_pure _
  · exact maintains_pure _
  · exact maintains_ofExcept h.refused _
  · exact (h.literals _).bind fun _ => maintains_ofExcept h.refused _
  · -- lines with a head read that first, then the phrases of the body
    exact (h.headAtom _).bind fun _ => (h.literals _).bind fun _ =>
      (h.asserts _).bind fun _ => maintains_pure _
  · exact (h.headAtom _).bind fun _ => (h.literals _).bind fun _ =>
      (h.asserts _).bind fun _ => maintains_pure _
  · exact (h.literals _).bind fun _ => (h.asserts _).bind fun _ => maintains_pure _
  · exact (h.literals _).bind fun ls => (h.unique ls).bind fun _ => maintains_pure _
  · exact (h.literals _).bind fun ls => (h.bounds 1 ls).bind fun _ => maintains_pure _
  · exact maintains_throw h.refused _

/-- Lines are read one after the other, up to the first that is refused. -/
theorem readLines (h : Reading P Q) (d : Draft) (number : Nat) (lines : List String) :
    Maintains P Q (Questionnaire.readLines d number lines) := by
  induction lines generalizing d number with
  | nil => exact maintains_pure _
  | cons line lines ih =>
    exact ((h.readLine d line).rethrow _).bind fun d' => ih d' (number + 1)

/-- **What phrases and assertions maintain, a questionnaire does that is read.** -/
theorem parse (h : Reading P Q) (text : String) : Maintains P Q (Questionnaire.parse text) :=
  (h.readLines {} 1 (Text.lines text)).bind fun _ => maintains_pure _

end Reading

end Questionnaire

namespace Grounding

open Action

variable {ρ : Type} {kb : KnowledgeBase} {P Q : Grounding ρ → Prop} {w₀ : World ρ}

/-- What is carried by phrases is maintained when a questionnaire is read. -/
theorem Carried.reading (h : Carried kb P Q) (hgrammar : w₀.grammar.Below kb.predicates.size) :
    Questionnaire.Reading (World.Onto w₀ P) (World.Onto w₀ Q) where
  refused := h.onto
  literal text := h.literal hgrammar text
  asserts c := World.maintains_onGrounding (h.asserts c)
  bounds bound ls := World.maintains_onGrounding (h.bounds bound ls)

end Grounding

/-! ### Declarations and questions -/

namespace KnowledgeBase

variable {kb kb' kb'' : KnowledgeBase}

/-- The predicates of the first knowledge base are there in the second, and so is what was called. -/
structure Remembers (kb kb' : KnowledgeBase) : Prop where
  size : kb.predicates.size ≤ kb'.predicates.size
  atoms : ∀ p args a, kb.atom? p args = some a → kb'.atom? p args = some a

theorem Remembers.refl (kb : KnowledgeBase) : Remembers kb kb := ⟨Nat.le_refl _, fun _ _ _ h => h⟩

theorem Remembers.trans (h : Remembers kb kb') (h' : Remembers kb' kb'') : Remembers kb kb'' :=
  ⟨Nat.le_trans h.size h'.size, fun p args a ha => h'.atoms p args a (h.atoms p args a ha)⟩

/-- A knowledge base that develops keeps its predicates and what was called. -/
theorem Develops.remembers (h : Develops kb kb') : Remembers kb kb' :=
  ⟨h.size, fun p args _ ha => (h.atom? p args).trans ha⟩

/-- The existence predicate is changed where that is declared, and by nothing else. -/
theorem Declaration.existence_perform (d : Declaration) (kb : KnowledgeBase) :
    (∃ p, d = .existence p) ∨ (d.perform kb).existence = kb.existence := by
  -- relations are no matter of the existence predicate
  have hrelation : ∀ (kb : KnowledgeBase) r, (kb.addRelation r).existence = kb.existence := by
    intro kb r
    obtain ⟨relations, h⟩ := addRelation_frame kb r
    rw [h]
  cases d with
  | sort name parent instances =>
    exact Or.inr
      ((preserves_registerSort name parent instances).stateAfter (SamePredicates.refl kb)).existence
  | subsort name parent => exact Or.inr rfl
  | member s e => exact Or.inr rfl
  | entity e s => exact Or.inr ((preserves_declare e s).stateAfter (SamePredicates.refl kb)).existence
  | default e s => exact Or.inr (samePredicates_ensureSort kb e s).existence
  | predicate name signature =>
    refine Or.inr ?_
    show (((kb.definePredicate name signature).toOption.map Prod.snd).getD kb).existence = _
    unfold definePredicate
    cases kb.predicateNamed? name <;> rfl
  | relation kind specific general =>
    refine Or.inr ?_
    show ((kb.relate kind specific general).toOption.getD kb).existence = _
    unfold relate
    cases kb.checkRelation specific general with
    | error e => rfl
    | ok _ => exact hrelation kb _
  | exclusion p q =>
    refine Or.inr ?_
    show ((kb.exclude p q).toOption.getD kb).existence = _
    unfold exclude
    cases kb.checkRelation p q with
    | error e => rfl
    | ok _ =>
      cases kb.checkRelation q p with
      | error e => rfl
      | ok _ => exact (hrelation _ _).trans (hrelation kb _)
  | existence p => exact Or.inl ⟨p, rfl⟩
  | quiet p b => exact Or.inr rfl
  | implicitSubject p b => exact Or.inr rfl

end KnowledgeBase

namespace Solver

open Action

variable {ρ : Type} {s t : Solver ρ} {kind : Proposition → Prop} {config : Config}

/-- What leaves a solver a twin of what it was adds no support. -/
theorem Twin.spares (h : Twin config s t) (hs : s.Backed) (ht : t.WellFormed) : Spares kind s t :=
  SameConstraints.spares hs ⟨h.atoms.symm, h.rules.symm, h.asserted.symm⟩ ht

variable [RandomSource ρ]

/-- A question leaves names with their atoms. -/
theorem Backed.spares_probe (hs : s.Backed) (ls : List Literal) :
    Spares kind s (stateAfter (probe ls) s) :=
  (twin_probe rfl ls).spares hs
    ((preserves_probe ls).stateAfter hs.wellFormed.grown).1

/-- To ask for a model adds no support. -/
theorem Backed.spares_modelWith (hs : s.Backed) (optimize : Bool) (ls : List Literal) :
    Spares kind s (stateAfter (modelWith optimize ls) s) :=
  (twin_modelWith rfl optimize ls).spares hs
    ((preserves_modelWith optimize ls).stateAfter hs.wellFormed.grown).1

/-- A move keeps names with their atoms, and heads heads, whatever it asserts. -/
theorem Backed.spares_move (hs : s.Backed) (m : Move) :
    Spares (fun _ => False) s (m.perform s) := by
  refine spares_perform hs ?_
  cases m with
  | addRule head body => exact fun _ _ => not_false
  | _ => trivial

/-- In a solver that can be reached every support implies its head. -/
theorem Reachable.backed (hs : s.Reachable) : s.Backed := by
  induction hs with
  | start config source => exact backed_ofConfig config source
  | move hs m ih => exact (ih.spares_move m).backed

end Solver

namespace World

open Action KnowledgeBase

variable {ρ : Type} {w t u : World ρ}

/-! ### Worlds that are built -/

/-- A move is valid if the sorts and predicates that it gives by number exist. -/
def Move.Valid (w : World ρ) : Move → Prop
  | .declare d => d.Valid w.base
  | .pattern p _ => p < w.base.predicates.size
  | .phrase said => said.Below w.base.predicates.size
  | _ => True

instance (w : World ρ) : (m : Move) → Decidable (m.Valid w)
  | .declare d => inferInstanceAs (Decidable (d.Valid w.base))
  | .pattern p _ => inferInstanceAs (Decidable (p < w.base.predicates.size))
  | .phrase said => inferInstanceAs (Decidable (said.Below w.base.predicates.size))
  | .solver _ | .literal _ | .call _ _ | .existential _ _ | .probe _ | .commit _ | .parse _ =>
    isTrue trivial

/-- What predicates remember is well typed, and the predicates that phrases may lead to exist. -/
structure Regular (w : World ρ) : Prop where
  typed : Grounding.Typed w.toGrounding
  existence : ∀ p, w.base.existence = some p → p < w.base.predicates.size
  grammar : w.grammar.Below w.base.predicates.size

/-- A regular world has all that calls and phrases need. -/
theorem Regular.carried (hw : w.Regular) :
    Grounding.Carried w.base (Grounding.Kept (ρ := ρ) w.base) (Grounding.Kept w.base) :=
  Grounding.carried_kept hw.existence

/-- Whatever changes the grounding only and keeps what predicates remember keeps the world
regular. -/
theorem Regular.onto (hw : w.Regular) (ht : Onto w (Grounding.Kept w.base) t) :
    t.Regular ∧ Remembers w.base t.base := by
  obtain ⟨⟨htyped, hkeeps⟩, hframe⟩ := ht
  have hgrammar : t.grammar = w.grammar := by rw [hframe]
  refine ⟨⟨htyped, fun p hp => ?_, ?_⟩, ⟨Nat.le_of_eq hkeeps.size.symm, hkeeps.atoms⟩⟩
  · rw [hkeeps.size]
    exact hw.existence p (hkeeps.existence ▸ hp)
  · rw [hgrammar, hkeeps.size]
    exact hw.grammar

/-- What maintains an invariant of typed groundings leaves a world regular, whether or not it is
refused. -/
theorem Regular.maintained {α : Type} {act : EStateM Error (World ρ) α} (hw : w.Regular)
    (h : Maintains (Onto w (Grounding.Kept w.base)) (Onto w (Grounding.Kept w.base)) act) :
    (stateAfter act w).Regular ∧ Remembers w.base (stateAfter act w).base :=
  hw.onto (h w ⟨hw.typed.kept, rfl⟩).stateAfter

/-- The solver may go on by itself, and the snapshot may be another. -/
theorem Regular.spares (hw : w.Regular) {s : Solver ρ}
    (hs : Solver.Spares (fun _ => False) w.solver s) (snapshot? : Option Snapshot) :
    ({ w with solver := s, snapshot? } : World ρ).Regular :=
  ⟨hw.typed.spares hs, hw.existence, hw.grammar⟩

/-- A declaration keeps what predicates remember. -/
theorem Regular.declare (hw : w.Regular) {d : Declaration} (hd : d.Valid w.base) :
    ({ w with base := d.perform w.base } : World ρ).Regular ∧
      Remembers w.base (d.perform w.base) := by
  obtain ⟨hdevelops, horder⟩ := d.develops hd hw.typed.orderly
  refine ⟨⟨hw.typed.develops hdevelops horder, fun p hp => ?_, fun pattern hpattern => ?_⟩,
    hdevelops.remembers⟩
  · refine Nat.lt_of_lt_of_le ?_ hdevelops.size
    rcases d.existence_perform w.base with ⟨q, rfl⟩ | hsame
    · obtain rfl : q = p := Option.some.inj hp
      exact hd
    · exact hw.existence p (hsame ▸ hp)
  · exact Nat.lt_of_lt_of_le (hw.grammar pattern hpattern) hdevelops.size

variable [RandomSource ρ]

/-- **Every valid move keeps a world regular and forgets nothing**, whether it is refused or not. -/
theorem Regular.perform (hw : w.Regular) {m : Move} (hm : m.Valid w) :
    (m.perform w).Regular ∧ Remembers w.base (m.perform w).base := by
  have hrefl : Remembers w.base w.base := Remembers.refl _
  cases m with
  | solver m => exact ⟨hw.spares (hw.typed.backed.spares_move m) w.snapshot?, hrefl⟩
  | declare d => exact hw.declare hm
  | pattern p text => exact ⟨⟨hw.typed, hw.existence, hw.grammar.add hm text⟩, hrefl⟩
  | phrase said => exact hw.maintained (maintains_onGrounding (hw.carried.literalOf hm))
  | literal text => exact hw.maintained (hw.carried.literal hw.grammar text)
  | call predicate entities => exact hw.maintained (hw.carried.call predicate entities)
  | existential predicate sort => exact hw.maintained (hw.carried.existentialNamed predicate sort)
  | probe sets =>
    -- probes and commits ask the solver, which names nothing by itself
    have hsolver := hw.spares (hw.typed.backed.spares_probe sets.flatten) w.snapshot?
    rw [Move.perform, stateAfter_probe]
    exact ⟨hsolver, hrefl⟩
  | commit ls =>
    rw [Move.perform, (commit_spec ls w).2]
    exact ⟨hw.spares (hw.typed.backed.spares_modelWith w.optimize ls) _, hrefl⟩
  | parse text => exact hw.maintained ((hw.carried.reading hw.grammar).parse text)

/-! ### Runs -/

/-- Each of the moves is valid where it is made. -/
def ValidAll : List Move → World ρ → Prop
  | [], _ => True
  | m :: ms, w => m.Valid w ∧ ValidAll ms (m.perform w)

instance decidableValidAll : (ms : List Move) → (w : World ρ) → Decidable (ValidAll ms w)
  | [], _ => isTrue trivial
  | m :: ms, w =>
    have : Decidable (ValidAll ms (m.perform w)) := decidableValidAll ms _
    inferInstanceAs (Decidable (m.Valid w ∧ ValidAll ms (m.perform w)))

/-- A run of valid moves leaves a world regular and forgets nothing that was called. -/
theorem Regular.run (hw : w.Regular) {ms : List Move} (hms : ValidAll ms w) :
    (w.run ms).Regular ∧ Remembers w.base (w.run ms).base := by
  induction ms generalizing w with
  | nil => exact ⟨hw, Remembers.refl _⟩
  | cons m ms ih =>
    obtain ⟨hstep, hremembers⟩ := hw.perform hms.1
    obtain ⟨hrun, hremembers'⟩ := ih hstep hms.2
    exact ⟨hrun, hremembers.trans hremembers'⟩

/-- The world comes by valid moves from one that has only a root sort, no patterns, and a solver that
can be reached. -/
inductive Built : World ρ → Prop where
  | start (root : String) {solver : Solver ρ} (hsolver : solver.Reachable) (optimize : Bool) :
    Built { base := KnowledgeBase.ofRoot root, solver, optimize }
  | move {w : World ρ} (hw : Built w) {m : Move} (hm : m.Valid w) : Built (m.perform w)

/-- A world that is built is regular. -/
theorem Built.regular (hw : w.Built) : w.Regular := by
  induction hw with
  | start root hsolver optimize =>
    have huses : ∀ p, (KnowledgeBase.ofRoot root).uses p = ({}, []) :=
      fun _ => (KnowledgeBase.Declared.start root).uses
    exact ⟨Grounding.typed_start (orderly_ofRoot root) huses hsolver.backed, nofun, nofun⟩
  | move hw hm ih => exact (ih.perform hm).1

/-- Valid moves lead from a world that is built to one that is. -/
theorem Built.run (hw : w.Built) {ms : List Move} (hms : ValidAll ms w) : (w.run ms).Built := by
  induction ms generalizing w with
  | nil => exact hw
  | cons m ms ih => exact ih (hw.move hms.1) hms.2

/-- **What predicates remember is well typed and has the atoms of the solver**, in every world that
is built. Arguments in the domain of a predicate are as many as it takes, registered and of the
sorts it requires; they stand in it once, with the atom that the solver has for the name of the
call. An existential has the atom of its name. So no two calls, no two existentials, and no call and
existential share an atom. -/
theorem Built.well_typed (hw : w.Built) :
    (∀ p args a, (args, a) ∈ (w.base.predicate p).domain.toList →
      args.arity = (w.base.predicate p).signature.arity ∧
      (∀ x ∈ args.entities, (w.base.sortOf? x).isSome) ∧
      (∀ x ∈ (w.base.predicate p).signature.sorts.zip args.entities,
        w.base.isA x.2 x.1 = .ok true) ∧
      ((w.base.predicate p).domain.toList.map Prod.fst).count args = 1 ∧
      w.solver.atoms.named? (.call ⟨(w.base.predicate p).name, args.terms⟩) = some a) ∧
    (∀ p s e, (s, e) ∈ (w.base.predicate p).existentials →
      w.solver.atoms.named? (.ofSort (w.base.predicate p).name (w.base.taxonomy.name s)) =
        some e) ∧
    (∀ p q args args' a, (args, a) ∈ (w.base.predicate p).domain.toList →
      (args', a) ∈ (w.base.predicate q).domain.toList → p = q ∧ args = args') ∧
    (∀ p q s t e, (s, e) ∈ (w.base.predicate p).existentials →
      (t, e) ∈ (w.base.predicate q).existentials → p = q ∧ s = t) ∧
    ∀ p q args s a, (args, a) ∈ (w.base.predicate p).domain.toList →
      (s, a) ∉ (w.base.predicate q).existentials := by
  have h : Grounding.Typed w.toGrounding := hw.regular.typed
  -- what the domain of a predicate lists is what the call is remembered by
  have hcalled : ∀ {p args a}, (args, a) ∈ (w.base.predicate p).domain.toList →
      w.base.atom? p args = some a := fun hmem => Domain.get?_eq_some_iff.2 hmem
  refine ⟨fun p args a hmem => ?_, h.called, fun p q args args' a hp hq => ?_,
    fun p q s t e => h.eq_of_requested, fun p q args s a hmem => ?_⟩
  · have hatom := hcalled hmem
    obtain ⟨harity, hsorts⟩ := fits_iff.1 (h.admitted p args a hatom)
    refine ⟨harity.symm, h.registered hatom, fun x hx => isA_eq_ok_true.2 (hsorts x hx), ?_,
      h.named p args a hatom⟩
    exact List.count_eq_one_of_mem (Domain.nodup_toList _) (List.mem_map_of_mem hmem)
  · exact h.atom_injective (hcalled hp) (hcalled hq)
  · exact h.not_requested (hcalled hmem)

/-- To wait implies to hope, and only persons hope. Granite is refused to wait, and is bound to the
root by that; then some person is to hope, Ann waits, and hope is spoken of in a phrase. -/
theorem well_typed_ann :
    let ms : List Move := [.declare (.subsort "person" 0), .declare (.predicate "waits" (.unary 0)),
      .declare (.predicate "hopes" (.unary 1)), .declare (.relation .generalization 0 1),
      .pattern 1 "_ hopes", .call "waits" ["granite"], .existential "hopes" "person",
      .declare (.entity "Ann" 1), .call "waits" ["Ann"], .literal "not Bob hopes"]
    let w := (World.empty "entity" {}).run ms
    w.Built ∧ (w.base.predicate 0).domain.toList = [(.one "Ann", 3)] ∧
      (w.base.predicate 1).domain.toList = [(.one "Ann", 4), (.one "Bob", 5)] ∧
      (w.base.predicate 1).existentials = [(1, 2)] ∧ w.base.sortOf? "granite" = some 0 ∧
      w.base.isA "Bob" 1 = .ok true ∧
      w.solver.atoms.named? (.call ⟨"hopes", [.entity "Bob"]⟩) = some 5 ∧
      w.solver.atoms.named? (.ofSort "hopes" "person") = some 2 := by
  intro ms w
  have hvalid : ValidAll ms (World.empty "entity" {}) := by decide +kernel
  have hw : w.Built := Built.run (Built.start "entity" (Solver.Reachable.start {} _) false) hvalid
  have hmade : (w.base.predicate 0).domain.toList = [(.one "Ann", 3)] ∧
      (w.base.predicate 1).domain.toList = [(.one "Ann", 4), (.one "Bob", 5)] ∧
      (w.base.predicate 1).existentials = [(1, 2)] ∧ w.base.sortOf? "granite" = some 0 ∧
      (w.base.predicate 1).name = "hopes" ∧ (w.base.predicate 1).signature = .unary 1 ∧
      w.base.taxonomy.name 1 = "person" := by decide +kernel
  obtain ⟨hwaits, hhopes, hsome, hgranite, hname, hsignature, hperson⟩ := hmade
  obtain ⟨hcalled, hrequested, -⟩ := hw.well_typed
  obtain ⟨-, -, hisA, -, hnamed⟩ := hcalled 1 (.one "Bob") 5 (by simp [hhopes])
  rw [hsignature] at hisA
  rw [hname] at hnamed
  have hexistential := hrequested 1 1 2 (by simp [hsome])
  rw [hname, hperson] at hexistential
  exact ⟨hw, hwaits, hhopes, hsome, hgranite, hisA (1, "Bob") List.mem_cons_self, hnamed,
    hexistential⟩

end World

end Storyworld
