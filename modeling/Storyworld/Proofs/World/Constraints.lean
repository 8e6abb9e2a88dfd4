import Storyworld.Proofs.Solver.Enforcement
import Storyworld.Proofs.World.Lasting

namespace Storyworld

/-!
# Constraint lines stay in force

A line of a questionnaire that states a constraint is read phrase by phrase, and then one thing is
asserted of the literals that its phrases mean (`Questionnaire.after_readLine_enforces`). Nothing that
is read later, and no move that is made afterwards, takes it back (`Grounding.lasting_enforces`).
`World.Reachable.constraints_stay` puts this together for all lines of a text.
-/

namespace Grounding

open Action

variable {ρ : Type} {P : Interpretation → Prop}

theorem preserves_enforces_onSolver {α : Type} {act : EStateM Error (Solver ρ) α}
    (h : Preserves (Solver.Enforces P) act) :
    Preserves (fun g : Grounding ρ => g.solver.Enforces P) (onSolver act) :=
  fun g hg => after_onSolver.2 (h g.solver hg)

/-- **What the solver enforces stays in force, whatever is done with the world.** -/
theorem lasting_enforces (P : Interpretation → Prop) :
    Lasting (fun g : Grounding ρ => g.solver.Enforces P) where
  checks p args g hg := after_onBase.2 (by unfold After; split <;> exact hg)
  modifies p f _ := preserves_modify fun g hg => hg
  names x g _ hg := hg.proposition x
  heads a := preserves_enforces_onSolver (Solver.preserves_enforces_addHead a)
  asserts c := preserves_enforces_onSolver (Solver.preserves_enforces_assert c)
  bounds bound ls := preserves_enforces_onSolver (Solver.preserves_enforces_addAtMost bound ls)
  asks g s hsame _ hg := hsame.enforces hg

end Grounding

/-! ### Lines -/

namespace Questionnaire

open Action

variable {ρ : Type} {w t : World ρ} {d d' : Draft} {lines rest : List String} {number : Nat}

/-- The interpretation keeps to what the line says, where its phrases are read as the literals that
they lead to in the world. Lines that state no constraint say nothing. -/
def Line.Holds (w : World ρ) (i : Interpretation) : Line → Prop
  | .rule head body | .implication head body => ∃ a u ls t, headAtom head w = .ok a u ∧
      literals body u = .ok ls t ∧ (i.SatisfiesAll ls → i a = true)
  | .contradiction list => ∃ ls t, literals list w = .ok ls t ∧ ∃ l ∈ ls, ¬ i.Satisfies l
  | .unique list => ∃ ls t, literals list w = .ok ls t ∧
      (ls.toFinset.filter fun l => i.Satisfies l).card = 1
  | .exclusive list => ∃ ls t, literals list w = .ok ls t ∧
      (ls.toFinset.filter fun l => i.Satisfies l).card ≤ 1
  | .skipped | .question _ | .answer _ | .implications _ | .unknown _ => True

/-- An implication is asserted as a clause, or as what it is if its body is one literal. -/
theorem imp_of_meets {i : Interpretation} {head : Literal} {body : List Literal}
    (h : i.Meets (implicationOf head body)) : i.SatisfiesAll body → i.Satisfies head := by
  unfold implicationOf at h
  split at h
  · rename_i b
    exact fun hbody => h (hbody b List.mem_cons_self)
  · exact Interpretation.isTrue_negations.1 h

theorem isTrue_map_negate {i : Interpretation} {ls : List Literal} :
    i.IsTrue (ls.map Literal.negate) ↔ ∃ l ∈ ls, ¬ i.Satisfies l := by
  unfold Interpretation.IsTrue
  simp only [List.mem_map, exists_exists_and_eq_and, Interpretation.satisfies_negate]

/-- What an action leads to that keeps worlds sound and takes nothing back. -/
theorem after_keeping {α : Type} {act : EStateM Error (World ρ) α} {P : Interpretation → Prop}
    (hsound : Preserves (World.Sound w.atomCount) act)
    (hkeeps : Preserves (fun w : World ρ => w.solver.Enforces P) act) (hw : w.Sound w.atomCount)
    (h : w.solver.Enforces P) :
    After act w (fun a t => act w = .ok a t ∧ t.Sound t.atomCount ∧ t.solver.Enforces P)
      fun _ _ => True :=
  (After.eq_ok ((hsound w hw).and (hkeeps w h))).mono
    (fun _ _ ht => ⟨ht.1, ht.2.1.now, ht.2.2⟩) fun _ _ _ => trivial

/-- What an assertion about the literals of a list makes the solver enforce, a line does that reads the
list and asserts it. -/
theorem after_list_enforces (d : Draft) (list : String)
    (stated : List Literal → Interpretation → Prop)
    {act : List Literal → EStateM Error (Solver ρ) Unit} (hw : w.Sound w.atomCount)
    (h : w.solver.Enforces fun _ => True)
    (hact : ∀ ls (s : Solver ρ), s.WellFormed → (∀ l ∈ ls, l.atom < s.atoms.count) →
      s.Enforces (fun _ => True) →
      After (act ls) s (fun _ t => t.Enforces fun i => True ∧ stated ls i) fun _ _ => True) :
    After (do let ls ← literals list; World.onSolver (act ls); return d) w
      (fun _ t => t.solver.Enforces fun i => ∃ ls u, literals list w = .ok ls u ∧ stated ls i)
      fun _ _ => True := by
  have hkeeps := (Grounding.lasting_enforces (ρ := ρ) fun _ => True).reading.literals list
  -- to read the phrases keeps what is enforced, and the literals they mean are known
  have hread := (after_keeping (preserves_literals list) hkeeps hw h).and
    (after_literalsOf (Text.commaParts list) hw)
  refine after_bind.2 (hread.mono (fun ls u hu => ?_) fun _ _ _ => trivial)
  obtain ⟨⟨hliterals, hsound, henforces⟩, -, hknown⟩ := hu
  refine after_bind.2 (World.after_onSolver.2 ?_)
  refine (hact ls u.solver hsound.solver.1 hknown henforces).imp_done fun _ s hs => ?_
  exact after_pure.2 (hs.imp fun i hi => ⟨ls, u, hliterals, hi.2⟩)

/-- What an assertion about a head and a body makes the solver enforce, a line does that reads them
and asserts it. -/
theorem after_headed_enforces {head body : String} {constraint : Atom → List Literal → Constraint}
    (hw : w.Sound w.atomCount) (h : w.solver.Enforces fun _ => True)
    (hstated : ∀ a ls (i : Interpretation), i.Meets (constraint a ls) →
      i.SatisfiesAll ls → i a = true) :
    After (do
        let a ← headAtom head
        let ls ← literals body
        World.onSolver (Solver.assert (constraint a ls))
        return d) w
      (fun _ t => t.solver.Enforces fun i => ∃ a u ls v, headAtom head w = .ok a u ∧
        literals body u = .ok ls v ∧ (i.SatisfiesAll ls → i a = true))
      fun _ _ => True := by
  have hkeeps := (Grounding.lasting_enforces (ρ := ρ) fun _ => True).reading.headAtom head
  have hread := after_keeping (preserves_headAtom head) hkeeps hw h
  refine after_bind.2 (hread.imp_done fun a u hu => ?_)
  obtain ⟨hhead, hsound, henforces⟩ := hu
  -- behind the head the line goes on as a list of phrases
  have hrest := after_list_enforces d body
    (fun ls i => i.SatisfiesAll ls → i a = true) hsound henforces fun ls s _ _ hs =>
      (Solver.after_assert_enforces hs (constraint a ls)).mono
        (fun _ _ ht => ht.imp fun i hi => ⟨hi.1, hstated a ls i hi.2⟩) fun _ _ _ => trivial
  exact hrest.imp_done fun _ t ht => ht.imp fun i ⟨ls, v, hliterals, hi⟩ =>
    ⟨a, u, ls, v, hhead, hliterals, hi⟩

/-- **A line that is read is enforced from then on.** -/
theorem after_readLine_enforces (hw : w.Sound w.atomCount) (h : w.solver.Enforces fun _ => True)
    (d : Draft) (line : String) :
    After (readLine d line) w
      (fun _ t => t.solver.Enforces fun i => (Line.ofChars line.toList).Holds w i)
      (fun _ _ => True) := by
  -- lines that state no constraint only have to keep what is enforced
  have hsilent : ∀ act : EStateM Error (World ρ) Draft,
      Preserves (fun w : World ρ => w.solver.Enforces fun _ => True) act →
        After act w (fun _ t => t.solver.Enforces fun _ => True) fun _ _ => True :=
    fun act hact => (hact w h).mono (fun _ _ ht => ht) fun _ _ _ => trivial
  have hreading := (Grounding.lasting_enforces (ρ := ρ) fun _ => True).reading
  unfold readLine
  generalize Line.ofChars line.toList = l
  cases l with
  | skipped => exact hsilent _ (preserves_pure _)
  | question text => exact hsilent _ (preserves_pure _)
  | answer text => exact hsilent _ (preserves_ofExcept _)
  | implications list =>
    exact hsilent _ (Preserves.bind (hreading.literals list) fun _ => preserves_ofExcept _)
  | rule head body => exact after_headed_enforces hw h fun a ls i hi => hi
  | implication head body => exact after_headed_enforces hw h fun a ls i hi => imp_of_meets hi
  -- a contradiction is the clause that denies all its literals
  | contradiction list =>
    refine after_list_enforces d list (fun ls i => ∃ l ∈ ls, ¬ i.Satisfies l) hw h
      fun ls s hs hls henforces => ?_
    refine (Solver.after_assert_enforces henforces (.clause (ls.map Literal.negate))).mono
      (fun _ t ht => ?_) fun _ _ _ => trivial
    exact ht.imp fun i hi => ⟨hi.1, isTrue_map_negate.1 hi.2⟩
  | unique list =>
    exact after_list_enforces d list _ hw h fun ls s hs hls henforces =>
      (Solver.after_unique_enforces hs henforces hls).imp fun _ _ ht => ht
  | exclusive list =>
    exact after_list_enforces d list _ hw h fun ls s hs hls henforces =>
      (Solver.after_addAtMost_enforces hs henforces hls 1).imp fun _ _ ht => ht
  | unknown text => exact hsilent _ (preserves_throw _)

/-- Lines that are read are read up to any of them, and from there on. -/
theorem readLines_append (h : readLines d number (lines ++ rest) w = .ok d' t) :
    ∃ d₁ u, readLines d number lines w = .ok d₁ u ∧
      readLines d₁ (number + lines.length) rest u = .ok d' t := by
  induction lines generalizing d number w with
  | nil => exact ⟨d, w, rfl, h⟩
  | cons line lines ih =>
    rw [List.cons_append, readLines_cons] at h
    rw [readLines_cons]
    cases hline : readLine d line w with
    | error e u =>
      rw [hline] at h
      cases h
    | ok d₁ u =>
      rw [hline] at h
      -- the state that the one line leads to is where the others start
      obtain ⟨d₂, v, hlines, hrest⟩ := ih h
      refine ⟨d₂, v, hlines, ?_⟩
      rw [List.length_cons, Nat.add_comm lines.length, ← Nat.add_assoc]
      exact hrest

/-- A text is read line by line. -/
theorem readLines_of_parse {text : String} {q : Questionnaire} (h : parse text w = .ok q t) :
    ∃ d, readLines {} 1 (Text.lines text) w = .ok d t ∧ q = ⟨d.closeQuestion.complete⟩ := by
  obtain ⟨d, u, hlines, h⟩ := bind_eq_ok.1 h
  cases h
  exact ⟨d, hlines, rfl⟩

end Questionnaire

/-! ### What stays in force -/

namespace World

open Action Questionnaire

variable {ρ : Type} [RandomSource ρ] {w t : World ρ} {P : Interpretation → Prop}

/-- What is enforced stays so through any move. -/
theorem enforces_perform (hw : w.Reachable) (h : w.solver.Enforces P) (m : Move) :
    (m.perform w).solver.Enforces P := by
  refine (Grounding.lasting_enforces P).perform hw.wellFormed h (fun n hn => ?_) fun _ _ => h
  exact Solver.Enforces.perform h n

/-- And through any run of moves. -/
theorem enforces_run (hw : w.Reachable) (h : w.solver.Enforces P) (ms : List Move) :
    (w.run ms).solver.Enforces P := by
  induction ms generalizing w with
  | nil => exact h
  | cons m ms ih => exact ih (hw.move m) (enforces_perform hw h m)

/-- In every world that can be reached, the rules and the definitions are enforced. -/
theorem Reachable.enforces (hw : w.Reachable) : w.solver.Enforces fun _ => True := by
  induction hw with
  | start hbase hsolver grammar optimize =>
    induction hsolver with
    | start config source => exact Solver.enforces_ofConfig config source
    | move hs m ih => exact ih.perform m
  | move hw m ih => exact enforces_perform hw ih m

/-- **Every accepted constraint line stays in force.** Let a questionnaire be read into a world that can
be reached, and let anything be done afterwards. Each line of its text was read in the world that
the lines before it have led to, and its phrases as the literals that they led to there. Then every
model of the asserted clauses and of the completion clauses keeps to the line: the head of a rule
or an implication is true if the literals of the body are, of literals that contradict each other
some is false, of unique ones exactly one is true and of exclusive ones one at most, where literals
that occur twice count once. -/
theorem Reachable.constraints_stay (hw : w.Reachable) {text : String} {q : Questionnaire}
    (h : parse text w = .ok q t) (ms : List Move) :
    ∀ before line after, Text.lines text = before ++ line :: after →
      ∃ d u, readLines {} 1 before w = .ok d u ∧
        ∀ i : Interpretation, i.IsModel (t.run ms).solver.formula →
          (Line.ofChars line.toList).Holds u i := by
  intro before line after htext
  obtain ⟨d, hlines, -⟩ := readLines_of_parse h
  rw [htext] at hlines
  obtain ⟨d₁, u, hbefore, hrest⟩ := readLines_append hlines
  refine ⟨d₁, u, hbefore, fun i hi => ?_⟩
  -- what is read before the line keeps the world as it has to be
  have hu : u.Sound u.atomCount := by
    have hdrafts := drafts_readLines {} 1 before w.atomCount w hw.sound (Draft.below_start _)
    exact (hdrafts.of_ok hbefore).1.now
  have henforces : u.solver.Enforces fun _ => True :=
    ((Grounding.lasting_enforces _).reading.readLines {} 1 before w hw.enforces).of_ok hbefore
  rw [readLines_cons] at hrest
  cases hline : readLine d₁ line u with
  | error e v =>
    rw [hline] at hrest
    cases hrest
  | ok d₂ v =>
    rw [hline] at hrest
    have hread := (after_readLine_enforces hu henforces d₁ line).of_ok hline
    have hend := ((Grounding.lasting_enforces _).reading.readLines d₂ _ after v hread).of_ok hrest
    have hreached : t.Reachable := by
      have hstate : stateAfter (parse text) w = t := by
        unfold stateAfter
        rw [h]
      exact hstate ▸ hw.move (.parse text)
    exact (enforces_run hreached hend ms).holds i (Solver.isModel_formula.1 hi).2.1

/-- One of rain and sun, said with rain put twice between two other constraints, before a rule for rain
is added and a commit is made. -/
theorem constraints_stay_weather :
    let text := "dry <= !rain, sun\nunique: rain, sun, rain\nmutually exclusive: fog, sun"
    let ms : List Move := [.solver (.addRule 2 [Literal.pos 5]), .commit []]
    let w := World.empty "entity" {}
    w.Reachable ∧ ∃ q t d u, parse text w = .ok q t ∧
      readLines {} 1 ["dry <= !rain, sun"] w = .ok d u ∧
      (value? (commit [Literal.pos 2]) (t.run ms)).isSome = true ∧
      ∀ i : Interpretation, i.IsModel (t.run ms).solver.formula →
        (Line.unique "rain, sun, rain").Holds u i := by
  intro text ms w
  have hw : w.Reachable := .start (.start "entity") (.start {} _) {} false
  have hfacts : (value? (parse text) (World.empty "entity" {})).isSome = true ∧
      (value? (commit [Literal.pos 2])
        ((stateAfter (parse text) (World.empty "entity" {})).run ms)).isSome = true ∧
      Text.lines text =
        ["dry <= !rain, sun"] ++ "unique: rain, sun, rain" :: ["mutually exclusive: fog, sun"] ∧
      Line.ofChars "unique: rain, sun, rain".toList = .unique "rain, sun, rain" := by
    decide +kernel
  obtain ⟨hparse, hcommit, hlines, hline⟩ := hfacts
  obtain ⟨q, hq⟩ := Option.isSome_iff_exists.1 hparse
  have hparsed := eq_ok_of_value? hq
  obtain ⟨d, u, hbefore, hstays⟩ := hw.constraints_stay hparsed ms _ _ _ hlines
  rw [hline] at hstays
  exact ⟨hw, q, _, d, u, hparsed, hbefore, hcommit, hstays⟩

end World

end Storyworld
