import Storyworld.Proofs.Knowledge.Senses
import Storyworld.Proofs.World.Lasting

namespace Storyworld

/-!
# Phrases keep their literals

While sorts, predicates, the existence predicate and patterns stay as they are, a phrase that was read
is read as the same literal later on, whatever else is done with the world, unless it has been
overtaken by an entity (`World.Built.literal_again`). Reading a phrase and calling a predicate may
register entities, so a phrase may be overtaken by nothing but other phrases (`World.overtaken_brave`).

The crux is that all of this is about the sense of the phrase (`Grounding.literalOf_eq_ok`). A world
that goes on remembers what has been asked for (`World.Regular.settled`), and the senses on both sides
of a phrase that is overtaken have different names, so their atoms differ.
-/

namespace Grounding

open Action KnowledgeBase

variable {ρ : Type} {g t : Grounding ρ} {phrase : Phrase} {l : Literal}

/-- A phrase is read as the atom of its sense, with the sign that its marks leave. -/
theorem literalOf_eq_ok : literalOf phrase g = .ok l t ↔
    ∃ a, (g.base.sense phrase).atom g = .ok a t ∧ l = ⟨a, phrase.positive⟩ := by
  rw [literalOf_eq, bind_eq_ok]
  constructor
  · rintro ⟨a, u, hatom, hpure⟩
    cases hpure
    exact ⟨a, hatom, rfl⟩
  · rintro ⟨a, hatom, rfl⟩
    exact ⟨a, t, hatom, rfl⟩

/-- Whatever is done with a world, its ontology stays the same and names stay with their atoms, as
long as nothing is declared. -/
theorem lasting_continues (g : Grounding ρ) : Lasting (Continues g) where
  toSteps := steps_continues g
  bounds bound ls := preserves_continues_onSolver fun _ hR =>
    Solver.preserves_atoms_addAtMost hR bound ls
  asks _ s hsame _ ht := by
    refine ⟨ht.ontology, fun x b hx => ?_⟩
    show s.atoms.named? x = some b
    rw [hsame.atoms]
    exact ht.named? x b hx

end Grounding

namespace World

open Action KnowledgeBase

variable {ρ : Type} {w t u : World ρ} {text : String} {l : Literal}

/-- A text is read as the phrase that the grammar makes of it. -/
theorem literal_eq_ok : World.literal text w = .ok l t ↔
    ∃ phrase g, w.grammar.read text = .ok phrase ∧
      Grounding.literalOf phrase w.toGrounding = .ok l g ∧ t = { w with toGrounding := g } := by
  have hground : ∀ phrase, onGrounding (Grounding.literalOf phrase) w = .ok l t ↔
      ∃ g, Grounding.literalOf phrase w.toGrounding = .ok l g ∧ t = { w with toGrounding := g } := by
    intro phrase
    unfold onGrounding
    cases Grounding.literalOf phrase w.toGrounding with
    | error e g => exact ⟨nofun, fun ⟨_, h, _⟩ => nomatch h⟩
    | ok l' g =>
      constructor
      · intro h
        cases h
        exact ⟨g, rfl, rfl⟩
      · rintro ⟨_, h, rfl⟩
        cases h
        rfl
  -- a text that is no phrase is refused before the grounding is touched
  have hunfold : World.literal text w = match w.grammar.read text with
      | .ok phrase => onGrounding (Grounding.literalOf phrase) w
      | .error e => .error e w := by
    show EStateM.bind (ofExcept (w.grammar.read text)) _ w = _
    cases w.grammar.read text <;> rfl
  rw [hunfold]
  cases w.grammar.read text with
  | error e => exact ⟨nofun, fun ⟨_, _, h, _⟩ => nomatch h⟩
  | ok phrase =>
    refine (hground phrase).trans ⟨fun ⟨g, h⟩ => ⟨phrase, g, rfl, h⟩, ?_⟩
    rintro ⟨_, g, hread, h⟩
    cases hread
    exact ⟨g, h⟩

/-- What a phrase was read as is there from then on. -/
theorem Regular.has_sense (hw : w.Regular) {phrase : Phrase}
    (hphrase : phrase.Below w.base.predicates.size) {g : Grounding ρ}
    (h : Grounding.literalOf phrase w.toGrounding = .ok l g) :
    ({ w with toGrounding := g } : World ρ).Regular ∧ Remembers w.base g.base ∧
      Grounding.Continues w.toGrounding g ∧ (w.base.sense phrase).Has g l.atom ∧
      l.positive = phrase.positive := by
  have honto : Onto w (Grounding.Kept w.base) ({ w with toGrounding := g } : World ρ) :=
    ⟨(hw.carried.literalOf hphrase w.toGrounding hw.typed.kept).of_ok h, rfl⟩
  have hcontinues := ((Grounding.steps_continues w.toGrounding).literalOf phrase w.toGrounding
    (Grounding.Continues.refl _)).of_ok h
  obtain ⟨a, hatom, rfl⟩ := Grounding.literalOf_eq_ok.1 h
  have hhas := (Sense.after_atom hw.typed (sense_valid hw.existence hphrase)).of_ok hatom
  exact ⟨(hw.onto honto).1, (hw.onto honto).2, hcontinues, hhas, rfl⟩

/-! ### Moves that declare nothing -/

/-- The move leaves sorts, predicates, the existence predicate and patterns as they are. It may
register entities. -/
def Move.Settled : Move → Prop
  | .declare (.entity _ _) | .declare (.default _ _) => True
  | .declare _ | .pattern _ _ => False
  | _ => True

instance : (m : Move) → Decidable m.Settled
  | .declare (.entity _ _) | .declare (.default _ _) => isTrue trivial
  | .declare (.sort _ _ _) | .declare (.subsort _ _) | .declare (.member _ _)
  | .declare (.predicate _ _) | .declare (.relation _ _ _) | .declare (.exclusion _ _)
  | .declare (.existence _) | .declare (.quiet _ _) | .declare (.implicitSubject _ _)
  | .pattern _ _ => isFalse id
  | .solver _ | .phrase _ | .literal _ | .call _ _ | .existential _ _ | .probe _ | .commit _
  | .parse _ => isTrue trivial

/-- What is done with the grounding leaves the grammar as it is. -/
theorem preserves_grammar {α : Type} (grammar : Grammar) (act : EStateM Error (Grounding ρ) α) :
    Preserves (fun w : World ρ => w.grammar = grammar) (onGrounding act) :=
  fun _ hw => after_onGrounding.2 (by unfold After; split <;> exact hw)

theorem reading_grammar (grammar : Grammar) :
    Questionnaire.Reading (fun w : World ρ => w.grammar = grammar) fun w => w.grammar = grammar where
  refused _ h := h
  literal _ := preserves_get.bind fun _ => (preserves_ofExcept _).bind fun _ =>
    preserves_grammar grammar _
  asserts _ := preserves_grammar grammar _
  bounds _ _ := preserves_grammar grammar _

variable [RandomSource ρ]

/-- Only patterns change the grammar. -/
theorem Move.Settled.grammar {m : Move} (hm : m.Settled) (w : World ρ) :
    (m.perform w).grammar = w.grammar := by
  have hkeeps : ∀ {α : Type} {act : EStateM Error (World ρ) α},
      Preserves (fun t => t.grammar = w.grammar) act → (stateAfter act w).grammar = w.grammar :=
    fun h => h.stateAfter rfl
  cases m with
  | solver m => rfl
  | declare d => rfl
  -- patterns are what a settled move does not add
  | pattern p text => exact hm.elim
  | phrase said => exact hkeeps (preserves_grammar _ _)
  | literal text => exact hkeeps ((reading_grammar w.grammar).literal text)
  | call predicate entities =>
    refine hkeeps (preserves_get.bind fun _ => (preserves_ofExcept _).bind fun p => ?_)
    split
    · exact preserves_grammar _ _
    · exact preserves_throw _
  | existential predicate sort =>
    exact hkeeps (preserves_get.bind fun _ => (preserves_ofExcept _).bind fun _ =>
      (preserves_ofExcept _).bind fun _ => preserves_grammar _ _)
  | probe sets => exact (untouched_probe sets w).grammar
  | commit ls => rw [Move.perform, (commit_spec ls w).2]
  | parse text => exact hkeeps ((reading_grammar w.grammar).parse text)

/-- A move that declares nothing leaves the ontology as it is, and names with their atoms. -/
theorem Regular.continues (hw : w.Regular) {m : Move} (hm : m.Settled) :
    Grounding.Continues w.toGrounding (m.perform w).toGrounding := by
  have hrefl := Grounding.Continues.refl w.toGrounding
  refine (Grounding.lasting_continues w.toGrounding).perform hw.typed.backed.wellFormed hrefl
    (fun n _ => ⟨hrefl.ontology, (hw.typed.backed.spares_move n).named?⟩) fun d hd => ?_
  subst hd
  have hontology := hrefl.ontology
  -- of the declarations only those of entities are settled
  cases d with
  | entity e s =>
    refine ⟨(preserves_declare_of fun _ hkb _ => ?_ : Preserves (SameOntology w.base)
      (KnowledgeBase.declare e s)).stateAfter hontology, hrefl.named?⟩
    exact hkb.bind e s
  | default e s => exact ⟨ensureSort_of hontology fun _ => hontology.bind e s, hrefl.named?⟩
  | _ => exact hm.elim

/-- A run that declares nothing leaves the ontology and the grammar as they are, and forgets neither
calls nor names. -/
theorem Regular.settled (hw : w.Regular) {ms : List Move} (hms : ValidAll ms w)
    (hsettled : ∀ m ∈ ms, m.Settled) :
    Grounding.Continues w.toGrounding (w.run ms).toGrounding ∧ (w.run ms).grammar = w.grammar := by
  induction ms generalizing w with
  | nil => exact ⟨Grounding.Continues.refl _, rfl⟩
  | cons m ms ih =>
    have hm := hsettled m List.mem_cons_self
    obtain ⟨hcontinues, hgrammar⟩ := ih (hw.perform hms.1).1 hms.2 fun n hn =>
      hsettled n (List.mem_cons_of_mem _ hn)
    exact ⟨(hw.continues hm).trans hcontinues, hgrammar.trans (hm.grammar w)⟩

/-! ### Phrases that are read again -/

/-- **A phrase that was read is read as the same literal until it is overtaken.** Any valid moves may
follow that add no sort, predicate or pattern and leave the existence predicate as it is, refused or
not. Then the text gives the literal again, and to read it changes nothing, unless its lone word has
come to be an entity that the existence predicate admits, or its argument named a sort and no entity
and has come to be one. In these two cases the text does not give that literal any more. -/
theorem Built.literal_again (hw : w.Built) {text : String} {l : Literal}
    (hread : World.literal text w = .ok l t) {ms : List Move} (hms : ValidAll ms t)
    (hsettled : ∀ m ∈ ms, m.Settled) :
    ∃ phrase, w.grammar.read text = .ok phrase ∧
      (¬ phrase.Overtaken w.base (t.run ms).base →
        World.literal text (t.run ms) = .ok l (t.run ms)) ∧
      (phrase.Overtaken w.base (t.run ms).base →
        ∀ v, World.literal text (t.run ms) ≠ .ok l v) := by
  have hregular := hw.regular
  obtain ⟨phrase, g, hphrase, hliteral, rfl⟩ := literal_eq_ok.1 hread
  obtain ⟨ht, -, hfirst, hhas, hsign⟩ :=
    hregular.has_sense (hregular.grammar.read hphrase) hliteral
  generalize hu : ({ w with toGrounding := g } : World ρ).run ms = u
  obtain ⟨hcontinues, hgrammar⟩ := ht.settled hms hsettled
  obtain ⟨hregularu, hremembers⟩ := ht.run hms
  rw [hu] at hcontinues hgrammar hregularu hremembers
  have hontology : SameOntology w.base u.base := hfirst.ontology.trans hcontinues.ontology
  have hhasu := hhas.continues hcontinues hremembers.atoms
  have hphraseu : u.grammar.read text = .ok phrase := by
    rw [hgrammar]
    exact hphrase
  refine ⟨phrase, hphrase, fun hnot => ?_, fun hovertaken v hagain => ?_⟩
  · have hsense := hontology.sense hregular.typed.orderly.toPlaced hnot
    refine literal_eq_ok.2 ⟨phrase, u.toGrounding, hphraseu, ?_, rfl⟩
    refine Grounding.literalOf_eq_ok.2 ⟨l.atom, ?_, ?_⟩
    · rw [hsense]
      exact hhasu.again hregularu.typed
    · rw [← hsign]
  · obtain ⟨phrase', g', hphrase', hliteral', rfl⟩ := literal_eq_ok.1 hagain
    obtain rfl : phrase = phrase' := Except.ok.inj (hphraseu.symm.trans hphrase')
    obtain ⟨hv, hremembers', hsecond, hhas', -⟩ :=
      hregularu.has_sense (hregularu.grammar.read hphraseu) hliteral'
    -- both senses have the atom after the second reading, so they have one name
    have hboth := hhasu.continues hsecond hremembers'.atoms
    have hname := hv.typed.backed.wellFormed.atoms.injective (hboth.named? hv.typed)
      (hhas'.named? hv.typed)
    obtain ⟨⟨p, args, hcall⟩, hother⟩ := hontology.overtaken hovertaken
    rw [hcall] at hname
    obtain ⟨q, args', hsame⟩ := Sense.eq_call_of_proposition hname
    exact hother q args' hsame

/-- Persons may exist and be dead. That some person is not dead is read once more after a mother and
someone named Brave were spoken of; but before, brave was a word of its own. -/
theorem literal_again_person :
    let declared : List Move := [.declare (.subsort "person" 0),
      .declare (.predicate "exists" (.unary 1)), .declare (.predicate "dead" (.unary 1)),
      .declare (.existence 0), .pattern 1 "_ is dead"]
    let w := (World.empty "entity" {}).run declared
    let t := stateAfter (World.literal "not person is dead") w
    let ms : List Move := [.call "dead" ["mother"], .literal "mother", .literal "brave is dead",
      .existential "exists" "person", .probe [[Literal.neg 1]], .commit [Literal.pos 1]]
    let brave := stateAfter (World.literal "brave") w
    w.Built ∧ World.literal "not person is dead" w = .ok (Literal.neg 1) t ∧ ValidAll ms t ∧
      (∀ m ∈ ms, m.Settled) ∧
      World.literal "not person is dead" (t.run ms) = .ok (Literal.neg 1) (t.run ms) ∧
      World.literal "brave" w = .ok (Literal.pos 1) brave ∧ ValidAll ms brave ∧
      ∀ v, World.literal "brave" (brave.run ms) ≠ .ok (Literal.pos 1) v := by
  intro declared w t ms brave
  have hvalid : ValidAll declared (World.empty "entity" {}) := by decide +kernel
  have hw : w.Built := Built.run (Built.start "entity" (Solver.Reachable.start {} _) false) hvalid
  have hsettled : ∀ m ∈ ms, m.Settled := by decide
  have hsome : value? (World.literal "not person is dead") w = some (Literal.neg 1) ∧
      ValidAll ms t ∧
      w.grammar.read "not person is dead" = .ok (.negation (.unary 1 "person")) ∧
      ((t.run ms).base.sortOf? "person").isSome = false := by decide +kernel
  have hbrave : value? (World.literal "brave") w = some (Literal.pos 1) ∧ ValidAll ms brave ∧
      w.grammar.read "brave" = .ok (.word "brave") ∧ w.base.existence = some 0 ∧
      w.base.admits 0 (.one "brave") = false ∧
      (brave.run ms).base.admits 0 (.one "brave") = true := by decide +kernel
  obtain ⟨hread, hms, hphrase, hnone⟩ := hsome
  obtain ⟨hread', hms', hphrase', hadmits⟩ := hbrave
  obtain ⟨said, hsaid, hagain, -⟩ := hw.literal_again (eq_ok_of_value? hread) hms hsettled
  obtain ⟨said', hsaid', -, hother⟩ := hw.literal_again (eq_ok_of_value? hread') hms' hsettled
  obtain rfl := Except.ok.inj (hphrase.symm.trans hsaid)
  obtain rfl := Except.ok.inj (hphrase'.symm.trans hsaid')
  refine ⟨hw, eq_ok_of_value? hread, hms, hsettled, hagain fun hperson => ?_,
    eq_ok_of_value? hread', hms', hother ⟨0, hadmits⟩⟩
  rw [hperson.2.2] at hnone
  cases hnone

/-- To say that Brave is dead makes a person of Brave. The lone word was a proposition of its own
before, and says afterwards that Brave exists. -/
theorem overtaken_brave :
    let declared : List Move := [.declare (.subsort "person" 0),
      .declare (.predicate "exists" (.unary 1)), .declare (.predicate "dead" (.unary 1)),
      .declare (.existence 0), .pattern 1 "_ is dead"]
    let w := (World.empty "entity" {}).run declared
    let t := stateAfter (World.literal "brave") w
    let u := t.run [.literal "brave is dead"]
    let v := stateAfter (World.literal "brave") u
    w.Built ∧ ValidAll [.literal "brave is dead"] t ∧ (Move.literal "brave is dead").Settled ∧
      World.literal "brave" w = .ok (Literal.pos 1) t ∧
      World.literal "brave" u = .ok (Literal.pos 3) v ∧
      v.solver.atoms.name? 1 = some (.word "brave") ∧
      v.solver.atoms.name? 3 = some (.call ⟨"exists", [.entity "brave"]⟩) := by
  intro declared w t u v
  have hvalid : ValidAll declared (World.empty "entity" {}) := by decide +kernel
  have hw : w.Built := Built.run (Built.start "entity" (Solver.Reachable.start {} _) false) hvalid
  have hread : value? (World.literal "brave") w = some (Literal.pos 1) ∧
      value? (World.literal "brave") u = some (Literal.pos 3) ∧
      v.solver.atoms.name? 1 = some (.word "brave") ∧
      v.solver.atoms.name? 3 = some (.call ⟨"exists", [.entity "brave"]⟩) := by decide +kernel
  -- one phrase, two atoms: a word at first, a call once `brave` is an entity
  obtain ⟨hfirst, hsecond, hword, hcall⟩ := hread
  exact ⟨hw, ⟨trivial, trivial⟩, trivial, eq_ok_of_value? hfirst, eq_ok_of_value? hsecond, hword,
    hcall⟩

end World

end Storyworld
