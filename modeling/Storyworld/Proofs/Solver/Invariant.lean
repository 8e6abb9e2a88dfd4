import Storyworld.Proofs.Solver.Operations

namespace Storyworld

/-!
# Solvers that can be reached

`Solver.Move` is whatever may be done with a solver from outside, and `Solver.Reachable` says
that a solver comes from a new one by such moves, some of which may have been refused. Every
solver that can be reached is well formed (`Reachable.wellFormed`): what it stores is over
its atoms, and what it takes the constraints to fix is what they fix, unless it knows that it
has to find out again.
-/

namespace Solver

open Action

variable {ρ : Type}

/-! ### Well-formed solvers -/

/-- The clauses, the fixed valuation and the status are those found for the constraints. -/
def UpToDate (s : Solver ρ) : Prop :=
  s.clauses = s.recompute.clauses ∧ s.fixed = s.recompute.fixed ∧ s.status = s.recompute.status

/-- What holds of every solver that can be reached. -/
structure WellFormed (s : Solver ρ) : Prop where
  atoms : s.atoms.Sound
  clauses : s.clauses.Over s.atoms.count
  rules : s.rules.Over s.atoms.count
  assumptions : ∀ l ∈ s.assumptions, l.atom < s.atoms.count
  current : s.status = .stale ∨ s.UpToDate

/-- A new solver is well formed, as it has no constraint yet. -/
theorem wellFormed_ofConfig (config : Config) (source : ρ) : (ofConfig config source).WellFormed where
  atoms := Atoms.sound_start
  clauses := by
    intro c hc
    exact absurd hc (Array.not_mem_empty c)
  rules := Rules.over_start _
  assumptions := by
    intro l hl
    cases hl
  current := Or.inl rfl

variable {s : Solver ρ}

/-- Neither the asserted clauses nor the completion clauses mention an atom that there is not. -/
theorem WellFormed.below (hs : s.WellFormed) : Clause.Below s.atoms.count s.formula := by
  intro c hc l hl
  rcases List.mem_append.1 hc with hc | hc
  · exact (hs.clauses c (Array.mem_toList_iff.1 hc)).2 l hl
  · exact hs.rules.below c hc l hl

/-- A new atom, with a name or without, leaves what is stored over the atoms. -/
theorem WellFormed.makeAtom (hs : s.WellFormed) (name : Option Proposition) :
    (s.makeAtom name).2.invalidate.WellFormed := by
  have hle : s.atoms.count ≤ (s.atoms.fresh name).2.count := by
    rw [Atoms.count_fresh]
    exact Nat.le_succ _
  exact
    { atoms := hs.atoms.fresh name
      clauses := hs.clauses.mono hle
      rules := hs.rules.mono hle
      assumptions := fun l hl => Nat.lt_of_lt_of_le (hs.assumptions l hl) hle
      current := Or.inl rfl }

/-- To store a clause over the atoms there are keeps a solver well formed. -/
theorem WellFormed.store (hs : s.WellFormed) {c : Clause} (hc : ∀ l ∈ c, l.atom < s.atoms.count) :
    (s.store c).2.WellFormed := by
  rcases store_cases c s with ⟨-, h⟩ | ⟨-, h⟩ | ⟨key, clauses, -, hpush, h⟩
  · rwa [h]
  · rwa [h]
  · rw [h]
    refine ⟨hs.atoms, fun d hd => ?_, hs.rules, hs.assumptions, Or.inl rfl⟩
    -- only the clause stored now is new, and it is in canonical form
    have hd : d ∈ s.clauses.asserted.push c.canonical := hpush ▸ hd
    rcases Array.mem_push.1 hd with hd | rfl
    · exact hs.clauses d hd
    · exact ⟨Clause.increasing_canonical c, fun l hl => hc l (Clause.mem_canonical.1 hl)⟩

/-- To store clauses one after the other keeps a solver well formed. -/
theorem WellFormed.storeAll (hs : s.WellFormed) {cs : List Clause}
    (hcs : Clause.Below s.atoms.count cs) : (storeAll cs s).WellFormed := by
  induction cs generalizing s with
  | nil => exact hs
  | cons c cs ih =>
    obtain ⟨clauses, status, h, -⟩ := store_frame c s
    have hatoms : (s.store c).2.atoms = s.atoms := by rw [h]
    refine ih (hs.store (hcs c List.mem_cons_self)) fun d hd => ?_
    show ∀ l ∈ d, l.atom < (s.store c).2.atoms.count
    rw [hatoms]
    exact hcs d (List.mem_cons_of_mem _ hd)

/-- The clauses that define a support mention no atom but the support and those of the body. -/
theorem below_definingClauses {count : Nat} {support : Literal} {body : Clause}
    (hsupport : support.atom < count) (hbody : ∀ l ∈ body, l.atom < count) :
    Clause.Below count (definingClauses support body) := by
  intro c hc l hl
  -- one clause for each literal of the body, and one for the whole of it
  rcases List.mem_append.1 hc with hc | hc
  · obtain ⟨m, hm, rfl⟩ := List.mem_map.1 hc
    rcases List.mem_cons.1 hl with rfl | hl
    · exact hsupport
    · rw [List.mem_singleton.1 hl]
      exact hbody m hm
  · rw [List.mem_singleton.1 hc] at hl
    rcases List.mem_append.1 hl with hl | hl
    · obtain ⟨m, hm, rfl⟩ := List.mem_map.1 hl
      exact hbody m hm
    · rw [List.mem_singleton.1 hl]
      exact hsupport

/-- A new support is made before the clauses that mention it are stored. -/
theorem WellFormed.defineBody (hs : s.WellFormed) {body : Clause}
    (hbody : ∀ l ∈ body, l.atom < s.atoms.count) : (defineBody body s).WellFormed := by
  have hcount : s.auxiliary.2.atoms.count = s.atoms.count + 1 := Atoms.count_fresh ..
  have hstored : (Solver.storeAll (definingClauses (Literal.pos s.atoms.count) body)
      s.auxiliary.2).WellFormed := by
    -- the new atom is the support, and the literals of the body are older
    refine (hs.makeAtom none).storeAll (below_definingClauses ?_ fun l hl => ?_)
    · show s.atoms.count < s.auxiliary.2.atoms.count
      omega
    · have := hbody l hl
      show l.atom < s.auxiliary.2.atoms.count
      omega
  obtain ⟨clauses, status, h, hstatus⟩ :=
    storeAll_frame (definingClauses (Literal.pos s.atoms.count) body) s.auxiliary.2
  have hstale : status = .stale := hstatus.elim id id
  unfold Solver.defineBody
  dsimp only
  rw [h] at hstored ⊢
  refine ⟨hstored.atoms, hstored.clauses, hstored.rules.define body ?_, hstored.assumptions,
    Or.inl hstale⟩
  show s.atoms.count < s.auxiliary.2.atoms.count
  omega

/-- The support of a body is a literal of the language. -/
theorem WellFormed.support (hs : s.WellFormed) {body : Clause}
    (hbody : ∀ l ∈ body, l.atom < s.atoms.count) :
    (s.support body).2.WellFormed ∧ s.atoms.count ≤ (s.support body).2.atoms.count ∧
      (s.support body).1.atom < (s.support body).2.atoms.count := by
  rcases support_cases body s with ⟨l, rfl, h⟩ | ⟨a, ha, h⟩ | ⟨-, h⟩
  · rw [h]
    exact ⟨hs, Nat.le_refl _, hbody l List.mem_cons_self⟩
  · rw [h]
    exact ⟨hs, Nat.le_refl _, hs.rules.definitions _ ha⟩
  · -- the body gets an atom of its own, which is the next one
    obtain ⟨clauses, hframe⟩ := defineBody_frame body s
    have hcount : (Solver.defineBody body s).atoms.count = s.atoms.count + 1 := by
      rw [hframe]
      exact Atoms.count_fresh ..
    rw [h]
    refine ⟨hs.defineBody hbody, ?_, ?_⟩
    · show s.atoms.count ≤ (Solver.defineBody body s).atoms.count
      omega
    · show s.atoms.count < (Solver.defineBody body s).atoms.count
      omega

/-- A rule that is recorded may have made an atom for its body. -/
theorem WellFormed.recordRule (hs : s.WellFormed) {head : Atom} {body : Clause}
    (hhead : head < s.atoms.count) (hbody : ∀ l ∈ body, l.atom < s.atoms.count) :
    (recordRule head body s).WellFormed ∧ s.atoms.count ≤ (recordRule head body s).atoms.count := by
  obtain ⟨ht, hle, hsupport⟩ := hs.support hbody
  unfold Solver.recordRule
  dsimp only
  have hstored := ht.store (c := [(s.support body).1.negate, Literal.pos head]) (by
    intro l hl
    rcases List.mem_cons.1 hl with rfl | hl
    · exact hsupport
    · rw [List.mem_singleton.1 hl]
      exact Nat.lt_of_lt_of_le hhead hle)
  -- what is stored is the clause for the rule, along with the support of the head
  obtain ⟨clauses, status, h, -⟩ :=
    store_frame [(s.support body).1.negate, Literal.pos head] (s.support body).2
  rw [h] at hstored ⊢
  have hhead' : head < (s.support body).2.atoms.count := Nat.lt_of_lt_of_le hhead hle
  exact ⟨⟨hstored.atoms, hstored.clauses, hstored.rules.record hhead' body hsupport,
    hstored.assumptions, Or.inl rfl⟩, hle⟩

/-- A rule that is stored keeps a solver well formed, whether or not it is new. -/
theorem WellFormed.storeRule (hs : s.WellFormed) {head : Atom} {body : Clause}
    (hhead : head < s.atoms.count) (hbody : ∀ l ∈ body, l.atom < s.atoms.count) :
    (s.storeRule head body).2.WellFormed ∧
      s.atoms.count ≤ (s.storeRule head body).2.atoms.count := by
  rcases storeRule_cases head body s with ⟨-, h⟩ | ⟨-, h⟩ | ⟨-, -, h⟩
  · rw [h]
    exact ⟨hs, Nat.le_refl _⟩
  · rw [h]
    exact ⟨hs, Nat.le_refl _⟩
  · rw [h]
    exact hs.recordRule hhead fun l hl => hbody l (Clause.mem_canonical.1 hl)

/-! ### What the constraints fix -/

/-- What a solver has just found out is up to date. -/
theorem upToDate_recompute (s : Solver ρ) : s.recompute.UpToDate := ⟨rfl, rfl, rfl⟩

/-- To find out what is fixed changes none of the constraints. -/
theorem WellFormed.recompute (hs : s.WellFormed) : s.recompute.WellFormed where
  atoms := hs.atoms
  clauses := hs.clauses
  rules := hs.rules
  assumptions := hs.assumptions
  current := Or.inr (upToDate_recompute s)

/-- After a refresh the constraints are the same, and what they fix is known. -/
theorem WellFormed.refresh (hs : s.WellFormed) : s.refresh.WellFormed ∧ s.refresh.UpToDate := by
  unfold Solver.refresh
  split
  · exact ⟨hs.recompute, upToDate_recompute s⟩
  · rename_i hstale
    exact ⟨hs, hs.current.resolve_left hstale⟩

/-- A search changes nothing that the invariant speaks of. -/
theorem WellFormed.continues {t : Solver ρ} (hs : s.WellFormed) (h : Continues s t) :
    t.WellFormed := by
  -- a search touches none of what the invariant speaks of
  obtain ⟨_, _, _, rfl⟩ := h
  exact ⟨hs.atoms, hs.clauses, hs.rules, hs.assumptions, hs.current⟩

/-- A solve leaves a solver well formed, whether it finds a model or not. -/
theorem WellFormed.solve [RandomSource ρ] (hs : s.WellFormed) (optimize : Bool) :
    (s.solve optimize).2.WellFormed := hs.refresh.1.continues (solve_continues optimize s)

/-! ### The moves -/

/-- An atom for a name, or one without a name. The atom of a name that has one is not made
again. -/
def freshAtom (name : Option Proposition) (s : Solver ρ) : Atom × Solver ρ :=
  match name with
  | none => s.auxiliary
  | some p => s.proposition p

/-- Well formed, with at least so many atoms. -/
def Grown (count : Nat) (s : Solver ρ) : Prop := s.WellFormed ∧ count ≤ s.atoms.count

variable {count : Nat}

theorem WellFormed.grown (hs : s.WellFormed) : Grown s.atoms.count s := ⟨hs, Nat.le_refl _⟩

/-- A further atom is one more than there have to be. -/
theorem Grown.auxiliary (hs : Grown count s) : Grown count s.auxiliary.2 := by
  refine ⟨hs.1.makeAtom none, ?_⟩
  show count ≤ (s.atoms.fresh none).2.count
  rw [Atoms.count_fresh]
  exact Nat.le_succ_of_le hs.2

/-- A proposition has its atom already, or gets a further one. -/
theorem Grown.proposition (hs : Grown count s) (p : Proposition) :
    Grown count (s.proposition p).2 := by
  unfold Solver.proposition
  split
  · exact hs
  · refine ⟨hs.1.makeAtom (some p), ?_⟩
    show count ≤ (s.atoms.fresh (some p)).2.count
    rw [Atoms.count_fresh]
    exact Nat.le_succ_of_le hs.2

/-- The atom of a proposition belongs to the language. -/
theorem WellFormed.proposition_lt (hs : s.WellFormed) (p : Proposition) :
    (s.proposition p).1 < (s.proposition p).2.atoms.count := by
  unfold Solver.proposition
  split
  · rename_i a ha
    exact hs.atoms.lt ha
  · show s.atoms.count < (s.atoms.fresh (some p)).2.count
    rw [Atoms.count_fresh]
    exact Nat.lt_succ_self _

/-- To look a proposition up, or to make an atom for it, concerns no rule. -/
theorem rules_proposition (s : Solver ρ) (p : Proposition) :
    (s.proposition p).2.rules = s.rules := by
  unfold Solver.proposition
  split <;> rfl

/-- A name leads to its atom from then on. -/
theorem named?_proposition (s : Solver ρ) (p : Proposition) :
    (s.proposition p).2.atoms.named? p = some (s.proposition p).1 := by
  unfold Solver.proposition
  split
  · rename_i a ha
    exact ha
  · exact (Atoms.named?_fresh_some s.atoms p p).trans (if_pos rfl)

/-- No other atom is made for a proposition. -/
theorem lt_or_eq_proposition {p : Proposition} {a : Nat}
    (h : a < (s.proposition p).2.atoms.count) : a < s.atoms.count ∨ a = (s.proposition p).1 := by
  unfold Solver.proposition at h ⊢
  split at h
  · exact Or.inl h
  · have h : a < (s.atoms.fresh (some p)).2.count := h
    rw [Atoms.count_fresh] at h
    exact Nat.lt_succ_iff_lt_or_eq.1 h

/-- An atom that is asked for adds to those there are, if at all. -/
theorem Grown.freshAtom (hs : Grown count s) (name : Option Proposition) :
    Grown count (s.freshAtom name).2 := by
  cases name with
  | none => exact hs.auxiliary
  | some p => exact hs.proposition p

/-- A clause with an unknown atom is refused before it is stored. -/
theorem preserves_addClause (c : Clause) : Preserves (Grown count) (addClause (ρ := ρ) c) := by
  intro s hs
  refine (after_addClause c s).mono (fun stored t h => ?_) fun _ _ h => h.1 ▸ hs
  obtain ⟨clauses, status, hframe, -⟩ := store_frame c s
  obtain rfl : t = (s.store c).2 := congrArg Prod.snd h.2
  refine ⟨hs.1.store h.1, ?_⟩
  rw [hframe]
  exact hs.2

/-- A rule with an unknown atom is refused before anything is made for it. -/
theorem preserves_addRule (head : Atom) (body : Clause) :
    Preserves (Grown count) (addRule (ρ := ρ) head body) := by
  intro s hs
  refine (after_addRule head body s).mono (fun stored t h => ?_) fun _ _ h => h.1 ▸ hs
  obtain rfl : t = (s.storeRule head body).2 := congrArg Prod.snd h.2.2.2
  have hrule := hs.1.storeRule h.2.1 h.2.2.1
  exact ⟨hrule.1, Nat.le_trans hs.2 hrule.2⟩

/-- A head that is not known is refused before it is declared. -/
theorem preserves_addHead (head : Atom) : Preserves (Grown count) (addHead (ρ := ρ) head) := by
  intro s hs
  refine (after_addHead head s).mono (fun _ t h => ?_) fun _ _ h => h.1 ▸ hs
  obtain ⟨hhead, rfl⟩ := h
  exact ⟨⟨hs.1.atoms, hs.1.clauses, hs.1.rules.declareHead hhead, hs.1.assumptions, Or.inl rfl⟩,
    hs.2⟩

/-- To assert a constraint of any kind keeps solvers well formed. -/
theorem preserves_assert (c : Constraint) : Preserves (Grown count) (assert (ρ := ρ) c) := by
  cases c with
  | clause c => exact (preserves_addClause c).bind fun _ => preserves_pure _
  | implication body head => exact (preserves_addClause _).bind fun _ => preserves_pure _
  | rule head body => exact (preserves_addRule head body).bind fun _ => preserves_pure _

/-- A bound keeps solvers well formed at each of its steps, so also where one of them is refused. -/
theorem preserves_addAtMost (bound : Nat) (ls : List Literal) :
    Preserves (Grown count) (addAtMost (ρ := ρ) bound ls) :=
  preserves_addAtMost_of (fun _ hs => hs.auxiliary) preserves_addClause bound ls

/-- An unknown literal is not assumed. -/
theorem preserves_force (l : Literal) : Preserves (Grown count) (force (ρ := ρ) l) := by
  intro s hs
  refine (after_force l s).mono (fun _ t h => ?_) fun _ _ h => h.1 ▸ hs
  obtain ⟨hl, rfl⟩ := h
  refine ⟨⟨hs.1.atoms, hs.1.clauses, hs.1.rules, fun m hm => ?_, hs.1.current⟩, hs.2⟩
  rcases List.mem_append.1 hm with hm | hm
  · exact hs.1.assumptions m hm
  · rw [List.mem_singleton.1 hm]
    exact hl

/-- No assumptions are as good as any. -/
theorem WellFormed.reset (hs : s.WellFormed) : s.reset.WellFormed where
  atoms := hs.atoms
  clauses := hs.clauses
  rules := hs.rules
  assumptions := by
    intro l hl
    cases hl
  current := hs.current

theorem Grown.refresh (hs : Grown count s) : Grown count s.refresh := by
  obtain ⟨clauses, work, fixed, status, h, -⟩ := refresh_frame s
  refine ⟨hs.1.refresh.1, ?_⟩
  rw [h]
  exact hs.2

/-- To ask for a fixed value may refresh what is known, and nothing else. -/
theorem preserves_fixedValue (a : Atom) : Preserves (Grown count) (fixedValue (ρ := ρ) a) := by
  intro s hs
  refine (after_fixedValue a s).mono (fun _ t h => ?_) fun _ _ h => h.1 ▸ hs
  obtain ⟨-, rfl, -⟩ := h
  exact hs.refresh

/-- A solve makes no atom, and takes none away. -/
theorem Grown.solve [RandomSource ρ] (hs : Grown count s) (optimize : Bool) :
    Grown count (s.solve optimize).2 := by
  refine ⟨hs.1.solve optimize, ?_⟩
  obtain ⟨_, _, _, h⟩ := solve_continues optimize s
  rw [h]
  exact hs.refresh.2

/-- What may be done with a solver. -/
inductive Move where
  | freshAtom (name : Option Proposition)
  | addClause (c : Clause)
  | addRule (head : Atom) (body : Clause)
  | addHead (head : Atom)
  | addAtMost (bound : Nat) (ls : List Literal)
  | force (l : Literal)
  | reset
  | fixedValue (a : Atom)
  | solve (optimize : Bool)

/-- The solver after a move, whether it was refused or not. -/
def Move.perform [RandomSource ρ] : Move → Solver ρ → Solver ρ
  | .freshAtom name, s => (s.freshAtom name).2
  | .addClause c, s => stateAfter (Solver.addClause c) s
  | .addRule head body, s => stateAfter (Solver.addRule head body) s
  | .addHead head, s => stateAfter (Solver.addHead head) s
  | .addAtMost bound ls, s => stateAfter (Solver.addAtMost bound ls) s
  | .force l, s => stateAfter (Solver.force l) s
  | .reset, s => s.reset
  | .fixedValue a, s => stateAfter (Solver.fixedValue a) s
  | .solve optimize, s => (s.solve optimize).2

/-- The solver comes from a new one by moves. -/
inductive Reachable [RandomSource ρ] : Solver ρ → Prop where
  | start (config : Config) (source : ρ) : Reachable (ofConfig config source)
  | move {s : Solver ρ} (hs : Reachable s) (m : Move) : Reachable (m.perform s)

/-- Several moves in a row lead to a solver that can be reached. -/
theorem Reachable.moves [RandomSource ρ] (hs : s.Reachable) (ms : List Move) :
    (ms.foldl (fun s m => m.perform s) s).Reachable := by
  induction ms generalizing s with
  | nil => exact hs
  | cons m ms ih => exact ih (hs.move m)

/-- Every move keeps solvers well formed, also where it is refused, and never takes an atom away. -/
theorem Grown.perform [RandomSource ρ] (hs : Grown count s) (m : Move) :
    Grown count (m.perform s) := by
  cases m with
  | freshAtom name => exact hs.freshAtom name
  | addClause c => exact (preserves_addClause c).stateAfter hs
  | addRule head body => exact (preserves_addRule head body).stateAfter hs
  | addHead head => exact (preserves_addHead head).stateAfter hs
  | addAtMost bound ls => exact (preserves_addAtMost bound ls).stateAfter hs
  | force l => exact (preserves_force l).stateAfter hs
  | reset => exact ⟨hs.1.reset, hs.2⟩
  | fixedValue a => exact (preserves_fixedValue a).stateAfter hs
  | solve optimize => exact hs.solve optimize

/-- **Every solver that can be reached is well formed.** -/
theorem Reachable.wellFormed [RandomSource ρ] (hs : s.Reachable) : s.WellFormed := by
  induction hs with
  | start config source => exact wellFormed_ofConfig config source
  | move hs m ih => exact (ih.grown.perform m).1

end Solver

end Storyworld
