import Storyworld.Proofs.Solver.Attained
import Storyworld.Proofs.Solver.Twins
import Storyworld.Proofs.Solver.Unseen

namespace Storyworld

/-!
# Incremental use is building from scratch

What the constraints fix is found when it is asked for, and kept until the constraints change.
A solver that is not stale has exactly what a refresh would find for its clauses and rules,
whatever was asked, assumed, dropped or refused on the way (`WellFormed.current`). So no question
shows in the answers to later ones: they are those of a new solver that is told the same and
asked nothing in between (`incremental_exact`). This is so for rules too, although a further rule
for a head can take back a value that was fixed, although searches draw on a random source, and
although a solve may be broken off on the way (`Event.interrupt`).

Two ways to build the new solver are considered. One leaves out the questions and keeps every
assumption and every reset in its place. The other makes the atoms and asserts the constraints
first, and then makes the assumptions that are left at the end.
-/

namespace Solver

open Action

variable {ρ : Type} {config : Config} {s t : Solver ρ}

/-- The same fixed values, and models found for the same searches. -/
structure AnswersAlike [RandomSource ρ] (s t : Solver ρ) : Prop where
  fixedValue : ∀ a, answer (fixedValue a) s = answer (fixedValue a) t
  solve : ∀ optimize, (s.solve optimize).1.isSome = (t.solve optimize).1.isSome

/-- The move only asks. -/
def Move.isQuery : Move → Bool
  | .fixedValue _ | .solve _ => true
  | .freshAtom _ | .addClause _ | .addRule _ _ | .addHead _ | .addAtMost _ _ | .force _
  | .reset => false

/-- A question tells the solver nothing. -/
theorem Move.asks_of_isQuery {m : Move} (h : m.isQuery = true) : m.asks = true := by
  cases m with
  | fixedValue a => rfl
  | solve optimize => rfl
  | _ => cases h

/-! ### What is told leaves the assumptions -/

/-- To store a clause assumes nothing. -/
theorem assumptions_store (c : Clause) (s : Solver ρ) :
    (s.store c).2.assumptions = s.assumptions := by
  obtain ⟨clauses, status, h, -⟩ := store_frame c s
  rw [h]

/-- To make a support assumes nothing. -/
theorem assumptions_support (body : Clause) (s : Solver ρ) :
    (s.support body).2.assumptions = s.assumptions := by
  rcases support_cases body s with ⟨l, -, h⟩ | ⟨a, -, h⟩ | ⟨-, h⟩
  · rw [h]
  · rw [h]
  · obtain ⟨clauses, hframe⟩ := defineBody_frame body s
    rw [h, hframe]
    rfl

/-- To store a rule assumes nothing. -/
theorem assumptions_storeRule (head : Atom) (body : Clause) (s : Solver ρ) :
    (s.storeRule head body).2.assumptions = s.assumptions := by
  rcases storeRule_cases head body s with ⟨-, h⟩ | ⟨-, h⟩ | ⟨-, -, h⟩
  · rw [h]
  · rw [h]
  · rw [h]
    exact (assumptions_store _ _).trans (assumptions_support _ s)

/-- An atom that is asked for is not assumed. -/
theorem assumptions_freshAtom (name : Option Proposition) (s : Solver ρ) :
    (s.freshAtom name).2.assumptions = s.assumptions := by
  cases name with
  | none => rfl
  | some p =>
    show (s.proposition p).2.assumptions = s.assumptions
    unfold Solver.proposition
    split <;> rfl

section Told

variable {ls : List Literal}

/-- A clause leaves the assumptions, also where it is refused. -/
theorem keeps_addClause (c : Clause) :
    Preserves (fun s : Solver ρ => s.assumptions = ls) (addClause c) := by
  intro s hs
  refine (after_addClause c s).mono (fun stored t h => ?_) fun _ _ h => h.1 ▸ hs
  obtain rfl : t = (s.store c).2 := congrArg Prod.snd h.2
  exact (assumptions_store c s).trans hs

/-- A rule leaves the assumptions, also where it is refused. -/
theorem keeps_addRule (head : Atom) (body : Clause) :
    Preserves (fun s : Solver ρ => s.assumptions = ls) (addRule head body) := by
  intro s hs
  refine (after_addRule head body s).mono (fun stored t h => ?_) fun _ _ h => h.1 ▸ hs
  obtain rfl : t = (s.storeRule head body).2 := congrArg Prod.snd h.2.2.2
  exact (assumptions_storeRule head body s).trans hs

/-- To declare a head leaves the assumptions. -/
theorem keeps_addHead (head : Atom) :
    Preserves (fun s : Solver ρ => s.assumptions = ls) (addHead head) := by
  intro s hs
  refine (after_addHead head s).mono (fun _ t h => ?_) fun _ _ h => h.1 ▸ hs
  obtain ⟨-, rfl⟩ := h
  exact hs

end Told

section Moves

variable [RandomSource ρ]

/-- What tells the solver something leaves the assumptions. -/
theorem assumptions_perform {m : Move} (hm : m.asks = false) (s : Solver ρ) :
    (m.perform s).assumptions = s.assumptions := by
  cases m with
  | freshAtom name => exact assumptions_freshAtom name s
  | addClause c => exact (keeps_addClause c).stateAfter rfl
  | addRule head body => exact (keeps_addRule head body).stateAfter rfl
  | addHead head => exact (keeps_addHead head).stateAfter rfl
  | addAtMost bound ls =>
    exact (preserves_addAtMost_of (fun _ hs => hs) keeps_addClause bound ls).stateAfter rfl
  | force l => cases hm
  | reset => cases hm
  | fixedValue a => cases hm
  | solve optimize => cases hm

/-- The solver after some moves. -/
def performAll (ms : List Move) (s : Solver ρ) : Solver ρ := ms.foldl (fun s m => m.perform s) s

/-- Moves may be made in two lots. -/
theorem performAll_append (ms ns : List Move) (s : Solver ρ) :
    performAll (ms ++ ns) s = performAll ns (performAll ms s) := List.foldl_append

/-- Moves that tell the solver something leave the assumptions, however many they are. -/
theorem assumptions_performAll {ms : List Move} (hms : ∀ m ∈ ms, m.asks = false)
    (s : Solver ρ) : (performAll ms s).assumptions = s.assumptions := by
  induction ms generalizing s with
  | nil => rfl
  | cons m ms ih =>
    have hrest : ∀ n ∈ ms, n.asks = false := fun n hn => hms n (List.mem_cons_of_mem _ hn)
    exact (ih hrest (m.perform s)).trans (assumptions_perform (hms m List.mem_cons_self) s)

/-- Literals of the language are all assumed, and nothing else happens. -/
theorem performAll_force {ls : List Literal} (hls : ∀ l ∈ ls, l.atom < s.atoms.count) :
    performAll (ls.map Move.force) s = { s with assumptions := s.assumptions ++ ls } := by
  induction ls generalizing s with
  | nil =>
    rw [List.append_nil]
    rfl
  | cons l ls ih =>
    -- the literal is known, so nothing is refused and the assumptions grow by it
    have hknown : s.checkKnown [l] = .ok () := by
      unfold Solver.checkKnown
      rw [Atoms.unknown?_eq_none_iff.2]
      exact List.forall_mem_singleton.2 (hls l List.mem_cons_self)
    have hforce : (Move.force l).perform s = { s with assumptions := s.assumptions ++ [l] } := by
      show stateAfter (Solver.force l) s = _
      unfold stateAfter Solver.force
      rw [hknown]
    have hrest := ih (s := { s with assumptions := s.assumptions ++ [l] })
      fun m hm => hls m (List.mem_cons_of_mem _ hm)
    show performAll (ls.map Move.force) ((Move.force l).perform s) = _
    rw [hforce, hrest, List.append_assoc]
    rfl

/-! ### Twins answer alike -/

/-- Twins with the same assumptions answer alike: what is fixed depends on the constraints, and
whether there is a model on the constraints and the assumptions. -/
theorem TwinAssumed.answersAlike (h : TwinAssumed config s t) : AnswersAlike s t where
  fixedValue := h.reordered.answer_fixedValue h.wellFormed h.wellFormed'
  solve optimize := by
    rw [Bool.eq_iff_iff, h.wellFormed.isSome_solve_iff_seen, h.wellFormed'.isSome_solve_iff_seen,
      h.twin.formula, h.assumptions]

/-- What asks or assumes leaves a solver a twin of what it was. -/
theorem Twin.perform_asks (h : Twin config s t) {m : Move} (hm : m.asks = true) :
    Twin config (m.perform s) t := by
  have hself := (Twin.refl h.left).perform m
  have hsame := sameConstraints_perform hm s
  exact ⟨hself.left, h.right, hsame.atoms.trans h.atoms, hsame.rules.trans h.rules,
    hsame.asserted.trans h.asserted⟩

/-- A solve that is broken off leaves a solver a twin of what it was. -/
theorem Twin.interrupted (h : Twin config s t) (optimize : Bool) (n : Nat) :
    Twin config (s.interrupted optimize n) t := by
  obtain ⟨_, _, _, _, _, _, he, hasserted⟩ := interrupted_frame optimize n s
  rw [he]
  exact ⟨h.left, h.right, h.atoms, h.rules, hasserted.trans h.asserted⟩

/-- Twins stay twins when only one of them is asked, makes assumptions and has its solves broken
off. -/
theorem Twin.happen_told (h : Twin config s t) (es : List Event) :
    Twin config (happen es s)
      (performAll ((es.filterMap Event.move?).filter fun m => !m.asks) t) := by
  induction es generalizing s t with
  | nil => exact h
  | cons e es ih =>
    cases e with
    | interrupt optimize n => exact ih (h.interrupted optimize n)
    | move m =>
      rw [List.filterMap_cons_some (f := Event.move?) (a := .move m) rfl]
      -- the twin is spared the questions, which changes neither constraints nor rules
      cases hm : m.asks with
      | true =>
        rw [List.filter_cons_of_neg (by simp [hm])]
        exact ih (h.perform_asks hm)
      | false =>
        rw [List.filter_cons_of_pos (by simp [hm])]
        exact ih (h.perform m)

/-- A question leaves the assumptions. -/
theorem assumptions_perform_isQuery {m : Move} (hm : m.isQuery = true) (s : Solver ρ) :
    (m.perform s).assumptions = s.assumptions := by
  cases m with
  | fixedValue a => exact assumptions_fixedValue a s
  | solve optimize => exact assumptions_solve optimize s
  | _ => cases hm

/-- Moves that are not questions make the same assumptions in twins. -/
theorem TwinAssumed.perform (h : TwinAssumed config s t) {m : Move} (hm : m.isQuery = false) :
    TwinAssumed config (m.perform s) (m.perform t) := by
  refine ⟨h.twin.perform m, ?_, (h.wellFormed.grown.perform m).1, (h.wellFormed'.grown.perform m).1⟩
  cases hasks : m.asks with
  | false => rw [assumptions_perform hasks, assumptions_perform hasks, h.assumptions]
  | true =>
    cases m with
    | force l => exact (blind_force l s t h).2.assumptions
    | reset => rfl
    | fixedValue a => cases hm
    | solve optimize => cases hm
    | _ => cases hasks

/-- A solve that is broken off takes back no assumption. -/
theorem TwinAssumed.interrupted (h : TwinAssumed config s t) (optimize : Bool) (n : Nat) :
    TwinAssumed config (s.interrupted optimize n) t where
  twin := h.twin.interrupted optimize n
  assumptions := by
    obtain ⟨_, _, _, _, _, _, he, -⟩ := interrupted_frame optimize n s
    rw [he]
    exact h.assumptions
  wellFormed := h.wellFormed.prepared.1.continues (interrupted_continues optimize n s)
  wellFormed' := h.wellFormed'

/-- Twins with the same assumptions stay so when only one of them is asked, whether the solves
that it is asked for come to an end or are broken off. -/
theorem TwinAssumed.happen (h : TwinAssumed config s t) (es : List Event) :
    TwinAssumed config (happen es s)
      (Solver.performAll ((es.filterMap Event.move?).filter fun m => !m.isQuery) t) := by
  induction es generalizing s t with
  | nil => exact h
  | cons e es ih =>
    cases e with
    | interrupt optimize n => exact ih (h.interrupted optimize n)
    | move m =>
      rw [List.filterMap_cons_some (f := Event.move?) (a := .move m) rfl]
      cases hm : m.isQuery with
      | true =>
        rw [List.filter_cons_of_neg (by simp [hm])]
        -- a query is left out, but to force and to reset are not: the assumptions stay the same
        exact ih ⟨h.twin.perform_asks (Move.asks_of_isQuery hm),
          (assumptions_perform_isQuery hm s).trans h.assumptions,
          (h.wellFormed.grown.perform m).1, h.wellFormed'⟩
      | false =>
        rw [List.filter_cons_of_pos (by simp [hm])]
        exact ih (h.perform hm)

/-- The assumptions that are left at the end can as well be made at the end. -/
theorem twinAssumed_told (config : Config) (source source' : ρ) (es : List Event) :
    let s := happen es (ofConfig config source)
    TwinAssumed config s (Solver.performAll
      (((es.filterMap Event.move?).filter fun m => !m.asks) ++ s.assumptions.map Move.force)
      (ofConfig config source')) := by
  intro s
  let told := (es.filterMap Event.move?).filter fun m => !m.asks
  let t := Solver.performAll told (ofConfig config source')
  have htwin : Twin config s t :=
    Twin.happen_told (s := ofConfig config source) (t := ofConfig config source')
      ⟨rfl, rfl, rfl, rfl, rfl⟩ es
  have hs : s.WellFormed := ((Attained.start config source).happen es).wellFormed
  have ht : t.WellFormed := ((Reachable.start config source').moves told).wellFormed
  -- what was told holds no assumption, so those of the twin are the ones forced at the end
  have hnone : t.assumptions = [] :=
    assumptions_performAll (fun m hm => by simpa using (List.mem_filter.1 hm).2) _
  rw [performAll_append, performAll_force fun l hl => htwin.atoms ▸ hs.assumptions l hl]
  refine ⟨⟨htwin.left, htwin.right, htwin.atoms, htwin.rules, htwin.asserted⟩, ?_, hs,
    ht.atoms, ht.clauses, ht.rules, ?_, ht.current⟩
  · show s.assumptions = t.assumptions ++ s.assumptions
    rw [hnone, List.nil_append]
  · show ∀ l ∈ t.assumptions ++ s.assumptions, l.atom < t.atoms.count
    rw [hnone, List.nil_append, ← htwin.atoms]
    exact hs.assumptions

/-- **Incremental use is building from scratch.** After any moves, in any order, and any solves that
were broken off among them: unless the solver knows that it has to find out again, its completion
clauses, the index of its clauses, its status and its fixed valuation are those that a refresh
would find. And it gives the fixed values, and finds a model or none, as a new solver does that is
told the same and asked nothing in between, whether that makes and drops assumptions along the way
or makes those that are left at the end. -/
theorem incremental_exact (config : Config) (source source' : ρ) (es : List Event) :
    let s := happen es (ofConfig config source)
    let ms := es.filterMap Event.move?
    (s.status ≠ .stale →
      s.clauses = s.recompute.clauses ∧ s.status = s.recompute.status ∧
        s.fixed = s.recompute.fixed) ∧
      AnswersAlike s (performAll (ms.filter fun m => !m.isQuery) (ofConfig config source')) ∧
      AnswersAlike s (performAll ((ms.filter fun m => !m.asks) ++ s.assumptions.map Move.force)
        (ofConfig config source')) := by
  intro s ms
  have hs : s.WellFormed := ((Attained.start config source).happen es).wellFormed
  have hstart : TwinAssumed config (ofConfig config source) (ofConfig config source') :=
    ⟨⟨rfl, rfl, rfl, rfl, rfl⟩, rfl, wellFormed_ofConfig config source,
      wellFormed_ofConfig config source'⟩
  refine ⟨fun hstale => ?_, ?_, ?_⟩
  · -- what is not stale is current
    obtain ⟨hclauses, hfixed, hstatus⟩ := hs.current.resolve_left hstale
    exact ⟨hclauses, hstatus, hfixed⟩
  · exact (hstart.happen es).answersAlike
  · exact (twinAssumed_told config source source' es).answersAlike

/-- A head without a rule is fixed to be false, until a rule for it is asserted. A solve that is
broken off after its first decision makes no difference. -/
theorem incremental_exact_taken_back :
    let start : Solver Pcg := ofConfig {} (Pcg.ofSeed 0)
    let before : List Event :=
      [.move (.freshAtom none), .move (.freshAtom none), .move (.addHead 1)]
    let es : List Event := before ++ [.move (.fixedValue 1), .move (.addRule 1 [Literal.pos 2]),
      .interrupt true 1, .move (.force (Literal.pos 1)), .move (.solve false),
      .move (.fixedValue 1)]
    let told : List Move := [.freshAtom none, .freshAtom none, .addHead 1,
      .addRule 1 [Literal.pos 2], .force (Literal.pos 1)]
    let s := happen es start
    answer (fixedValue 1) (happen before start) = .ok (some false) ∧
      answer (fixedValue 1) s = .ok none ∧ s.status ≠ .stale ∧
      (s.clauses = s.recompute.clauses ∧ s.status = s.recompute.status ∧
        s.fixed = s.recompute.fixed) ∧
      AnswersAlike s (performAll told (ofConfig {} (Pcg.ofSeed 1))) := by
  intro start before es told s
  obtain ⟨hcurrent, hscratch, -⟩ := incremental_exact {} (Pcg.ofSeed 0) (Pcg.ofSeed 1) es
  -- the rule has taken a fixed value back, and the question afterwards has refreshed
  have hstale : s.status ≠ .stale := by decide +kernel
  exact ⟨by decide +kernel, by decide +kernel, hstale, hcurrent hstale, hscratch⟩

end Moves

end Solver

end Storyworld
