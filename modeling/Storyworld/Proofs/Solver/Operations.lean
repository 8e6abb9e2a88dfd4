import Storyworld.Proofs.Action
import Storyworld.Proofs.Solver.Language
import Storyworld.Proofs.Solver.Rounds
import Storyworld.Solver.Cardinality
import Storyworld.Solver.Question

namespace Storyworld

/-!
# What the operations of a solver do

One statement for each operation says all that it can do: which parts of the solver it
changes, and when it is refused. Later modules rest on these and do not look into the
operations again.
-/

namespace Solver

open Action

variable {ρ : Type}

/-! ### Storing a clause -/

/-- A clause is a tautology, or stored already, or is stored now in its canonical form. -/
theorem store_cases (c : Clause) (s : Solver ρ) :
    (c.canonical.clashes = true ∧ s.store c = (.tautology, s)) ∨
      (c.canonical ∈ s.clauses.asserted ∧ s.store c = (.duplicate, s)) ∨
      ∃ key clauses, c.canonical.clashes = false ∧
        clauses.asserted = s.clauses.asserted.push c.canonical ∧
        s.store c = (.added key, { s with clauses, status := .stale }) := by
  unfold store
  split
  · rename_i hclash
    exact Or.inl ⟨hclash, rfl⟩
  · rename_i hclash
    have hclash : c.canonical.clashes = false := by simpa using hclash
    refine Or.inr ?_
    -- known clauses are the asserted ones
    by_cases hmem : c.canonical ∈ s.clauses.known
    · have hstore : s.clauses.store c.canonical = (.duplicate, s.clauses) := by
        rw [Clauses.store, if_pos hmem]
      rw [hstore]
      exact Or.inl ⟨(s.clauses.known_iff _).1 hmem, rfl⟩
    · refine Or.inr ?_
      unfold Clauses.store
      rw [if_neg hmem]
      exact ⟨_, _, hclash, rfl, rfl⟩

/-- To store a clause changes the clauses, and makes the solver stale if anything. -/
theorem store_frame (c : Clause) (s : Solver ρ) :
    ∃ clauses status, (s.store c).2 = { s with clauses, status } ∧
      (status = s.status ∨ status = .stale) := by
  rcases store_cases c s with ⟨-, h⟩ | ⟨-, h⟩ | ⟨key, clauses, -, -, h⟩
  · exact ⟨s.clauses, s.status, by rw [h], Or.inl rfl⟩
  · exact ⟨s.clauses, s.status, by rw [h], Or.inl rfl⟩
  · exact ⟨clauses, .stale, by rw [h], Or.inr rfl⟩

/-- A clause that was stored stays. -/
theorem mem_asserted_store {s : Solver ρ} {c : Clause} (hc : c ∈ s.clauses.asserted) (d : Clause) :
    c ∈ (s.store d).2.clauses.asserted := by
  rcases store_cases d s with ⟨-, h⟩ | ⟨-, h⟩ | ⟨key, clauses, -, hpush, h⟩
  · rwa [h]
  · rwa [h]
  · rw [h]
    show c ∈ clauses.asserted
    rw [hpush]
    exact Array.mem_push_of_mem _ hc

/-- A clause that is stored is there from then on, unless it is a tautology. -/
theorem canonical_mem_store (c : Clause) (s : Solver ρ) :
    c.canonical.clashes = true ∨ c.canonical ∈ (s.store c).2.clauses.asserted := by
  rcases store_cases c s with ⟨hclash, -⟩ | ⟨hmem, h⟩ | ⟨key, clauses, -, hpush, h⟩
  · exact Or.inl hclash
  · rw [h]
    exact Or.inr hmem
  · rw [h]
    refine Or.inr ?_
    show c.canonical ∈ clauses.asserted
    rw [hpush]
    exact Array.mem_push_self

/-- A tautology, or a clause that is stored already, leaves the solver as it is. -/
theorem store_of_known {s : Solver ρ} {c : Clause}
    (h : c.canonical.clashes = true ∨ c.canonical ∈ s.clauses.asserted) : (s.store c).2 = s := by
  unfold store
  split
  · rfl
  · rename_i hclash
    have hmem : c.canonical ∈ s.clauses.known := (s.clauses.known_iff _).2 (h.resolve_left hclash)
    simp [Clauses.store, hmem]

/-- Clauses stored one after the other. -/
def storeAll (cs : List Clause) (s : Solver ρ) : Solver ρ := cs.foldl (fun s c => (s.store c).2) s

/-- To store clauses changes the clauses, and makes the solver stale if anything. -/
theorem storeAll_frame (cs : List Clause) (s : Solver ρ) :
    ∃ clauses status, storeAll cs s = { s with clauses, status } ∧
      (status = s.status ∨ status = .stale) := by
  induction cs generalizing s with
  | nil => exact ⟨s.clauses, s.status, rfl, Or.inl rfl⟩
  | cons c cs ih =>
    obtain ⟨clauses, status, h, hstatus⟩ := store_frame c s
    obtain ⟨clauses', status', h', hstatus'⟩ := ih (s.store c).2
    rw [h] at h' hstatus'
    -- once stale, the status stays so
    refine ⟨clauses', status', ?_, ?_⟩
    · show storeAll cs (s.store c).2 = _
      rw [h, h']
    · rcases hstatus' with e | e
      · exact e ▸ hstatus
      · exact Or.inr e

/-- To store clauses makes no atoms. -/
theorem atoms_storeAll (cs : List Clause) (s : Solver ρ) : (storeAll cs s).atoms = s.atoms := by
  obtain ⟨clauses, status, h, -⟩ := storeAll_frame cs s
  rw [h]

/-- Clauses that were stored stay. -/
theorem mem_asserted_storeAll {s : Solver ρ} {c : Clause} (hc : c ∈ s.clauses.asserted)
    (ds : List Clause) :
    c ∈ (storeAll ds s).clauses.asserted := by
  induction ds generalizing s with
  | nil => exact hc
  | cons d ds ih => exact ih (mem_asserted_store hc d)

/-- What is stored afterwards was stored before or is the canonical form of one of the clauses. -/
theorem mem_asserted_storeAll_cases {s : Solver ρ} {cs : List Clause} {c : Clause}
    (h : c ∈ (storeAll cs s).clauses.asserted) :
    c ∈ s.clauses.asserted ∨ ∃ d ∈ cs, c = d.canonical := by
  induction cs generalizing s with
  | nil => exact Or.inl h
  | cons d ds ih =>
    -- each clause is one there was, or the canonical form of one that is stored
    rcases ih (s := (s.store d).2) h with h | ⟨e, he, rfl⟩
    · rcases store_cases d s with ⟨-, hst⟩ | ⟨-, hst⟩ | ⟨key, clauses, -, hpush, hst⟩
      · rw [hst] at h
        exact Or.inl h
      · rw [hst] at h
        exact Or.inl h
      · rw [hst] at h
        have h : c ∈ clauses.asserted := h
        rw [hpush, Array.mem_push] at h
        apply h.imp_right
        intro e
        exact ⟨d, by simp, e⟩
    · exact Or.inr ⟨e, by simp [he], rfl⟩

/-- Clauses that are stored are there from then on, but for tautologies. -/
theorem canonical_mem_storeAll {cs : List Clause} {c : Clause} (hc : c ∈ cs) (s : Solver ρ) :
    c.canonical.clashes = true ∨ c.canonical ∈ (storeAll cs s).clauses.asserted := by
  induction cs generalizing s with
  | nil => simp at hc
  | cons d ds ih =>
    rcases List.mem_cons.1 hc with rfl | hc
    · apply (canonical_mem_store c s).imp_right
      exact fun h => mem_asserted_storeAll h ds
    · exact ih hc (s.store d).2

/-! ### The support of a body -/

/-- The solver once a new atom stands for a body. -/
def defineBody (body : Clause) (s : Solver ρ) : Solver ρ :=
  let t := storeAll (definingClauses (Literal.pos s.atoms.count) body) s.auxiliary.2
  { t with rules := t.rules.define body s.atoms.count }

/-- The support of a body is its only literal, or the atom that stands for it already, or an
atom that does so from now on. -/
theorem support_cases (body : Clause) (s : Solver ρ) :
    (∃ l, body = [l] ∧ s.support body = (l, s)) ∨
      (∃ a, (body, a) ∈ s.rules.definitions ∧ s.support body = (Literal.pos a, s)) ∨
      s.rules.definition? body = none ∧
        s.support body = (Literal.pos s.atoms.count, defineBody body s) := by
  unfold support
  split
  · exact Or.inl ⟨_, rfl, rfl⟩
  · refine Or.inr ?_
    split
    · rename_i a ha
      refine Or.inl ⟨a, ?_, rfl⟩
      -- what is looked up is among the definitions
      obtain ⟨before, after, hsplit, -⟩ := List.lookup_eq_some_iff.1 ha
      rw [hsplit]
      simp
    · rename_i hnone
      exact Or.inr ⟨hnone, rfl⟩

/-- A new support is the next atom, with clauses that define it and a note of the body. -/
theorem defineBody_frame (body : Clause) (s : Solver ρ) :
    ∃ clauses, defineBody body s =
      { s.auxiliary.2 with clauses, rules := s.rules.define body s.atoms.count } := by
  obtain ⟨clauses, status, h, hstatus⟩ :=
    storeAll_frame (definingClauses (Literal.pos s.atoms.count) body) s.auxiliary.2
  -- the new atom alone has made the status stale
  have hstale : status = .stale := hstatus.elim id id
  subst hstale
  refine ⟨clauses, ?_⟩
  unfold defineBody
  dsimp only
  rw [h]
  rfl

/-! ### Recording a rule -/

/-- The solver once a rule is recorded whose body has a support. -/
def recordRule (head : Atom) (body : Clause) (s : Solver ρ) : Solver ρ :=
  let (support, t) := s.support body
  let u := (t.store [support.negate, Literal.pos head]).2
  { u with rules := u.rules.record head body support, status := .stale }

/-- A rule is a tautology, or recorded already, or recorded now with its body in canonical
form. -/
theorem storeRule_cases (head : Atom) (body : Clause) (s : Solver ρ) :
    (body.canonical.clashes = true ∧ s.storeRule head body = (.tautology, s)) ∨
      ((head, body.canonical) ∈ s.rules.recorded ∧ s.storeRule head body = (.duplicate, s)) ∨
      body.canonical.clashes = false ∧ (head, body.canonical) ∉ s.rules.recorded ∧
        (s.storeRule head body).2 = recordRule head body.canonical s := by
  unfold storeRule
  dsimp only
  split
  · rename_i hclash
    exact Or.inl ⟨hclash, rfl⟩
  · rename_i hclash
    split
    · rename_i hmem
      exact Or.inr (Or.inl ⟨of_decide_eq_true hmem, rfl⟩)
    · -- neither contradictory nor recorded before
      rename_i hmem
      have hmem : (head, body.canonical) ∉ s.rules.recorded := fun h => hmem (decide_eq_true h)
      exact Or.inr (Or.inr ⟨by simpa using hclash, hmem, rfl⟩)

/-! ### Operations that may be refused

Each of them checks its literals and then does its work, or leaves the solver as it was and
names an atom that does not belong to the language. -/

/-- The error names the atom of one of the literals, and no such atom belongs to the solver. -/
def Unknown (ls : List Literal) (s : Solver ρ) (e : Error) : Prop :=
  ∃ l ∈ ls, s.atoms.count ≤ l.atom ∧ e = .unknownAtom l.atom

/-- A refusal names an atom of the literals that there is not. -/
theorem checkKnown_eq_error {s : Solver ρ} {ls : List Literal} {e : Error} (h : s.checkKnown ls = .error e) :
    Unknown ls s e := by
  unfold checkKnown at h
  split at h
  · rename_i a ha
    cases h
    obtain ⟨l, hl, rfl⟩ := Option.map_eq_some_iff.1 ha
    have hfound := List.find?_some hl
    have hnot : s.atoms.contains l.atom = false := by simpa using hfound
    exact ⟨l, List.mem_of_find?_eq_some hl, Nat.le_of_not_lt (of_decide_eq_false hnot), rfl⟩
  · cases h

/-- Literals are known if all their atoms are there. -/
theorem checkKnown_eq_ok {s : Solver ρ} {ls : List Literal} (h : s.checkKnown ls = .ok ()) :
    ∀ l ∈ ls, l.atom < s.atoms.count := by
  unfold checkKnown at h
  split at h
  · cases h
  · rename_i hnone
    exact Atoms.unknown?_eq_none_iff.1 hnone

/-- A clause is stored if its atoms are known, and is refused otherwise with the solver as it
was. -/
theorem after_addClause (c : Clause) (s : Solver ρ) :
    After (addClause c) s
      (fun stored t => (∀ l ∈ c, l.atom < s.atoms.count) ∧ (stored, t) = s.store c)
      (fun e t => t = s ∧ Unknown c s e) := by
  unfold After addClause
  cases h : s.checkKnown c with
  | error e => exact ⟨rfl, checkKnown_eq_error h⟩
  | ok u => exact ⟨checkKnown_eq_ok h, rfl⟩

/-- A rule is stored if its body is not empty and its atoms are known, and is refused otherwise with
the solver as it was. -/
theorem after_addRule (head : Atom) (body : Clause) (s : Solver ρ) :
    After (addRule head body) s
      (fun stored t => body ≠ [] ∧ head < s.atoms.count ∧ (∀ l ∈ body, l.atom < s.atoms.count) ∧
        (stored, t) = s.storeRule head body)
      (fun e t => t = s ∧
        (body = [] ∧ e = .emptyBody head ∨ Unknown (Literal.pos head :: body) s e)) := by
  unfold After addRule
  -- an empty body is refused before the atoms are looked at
  by_cases hempty : body.isEmpty
  · rw [if_pos hempty]
    exact ⟨rfl, Or.inl ⟨List.isEmpty_iff.1 hempty, rfl⟩⟩
  · rw [if_neg hempty]
    cases h : s.checkKnown (Literal.pos head :: body) with
    | error e => exact ⟨rfl, Or.inr (checkKnown_eq_error h)⟩
    | ok u =>
      have hknown := checkKnown_eq_ok h
      exact ⟨fun e => hempty (e ▸ rfl), hknown _ List.mem_cons_self,
        fun l hl => hknown l (List.mem_cons_of_mem _ hl), rfl⟩

/-- A head is declared if it is known, and is refused otherwise with the solver as it was. -/
theorem after_addHead (head : Atom) (s : Solver ρ) :
    After (addHead head) s
      (fun _ t => head < s.atoms.count ∧
        t = { s with rules := s.rules.declareHead head, status := .stale })
      (fun e t => t = s ∧ Unknown [Literal.pos head] s e) := by
  unfold After addHead
  cases h : s.checkKnown [Literal.pos head] with
  | error e => exact ⟨rfl, checkKnown_eq_error h⟩
  | ok u => exact ⟨checkKnown_eq_ok h _ List.mem_cons_self, rfl⟩

/-- A literal is assumed if its atom is known, and is refused otherwise with the solver as it
was. -/
theorem after_force (l : Literal) (s : Solver ρ) :
    After (force l) s
      (fun _ t => l.atom < s.atoms.count ∧ t = { s with assumptions := s.assumptions ++ [l] })
      (fun e t => t = s ∧ Unknown [l] s e) := by
  unfold After force
  cases h : s.checkKnown [l] with
  | error e => exact ⟨rfl, checkKnown_eq_error h⟩
  | ok u => exact ⟨checkKnown_eq_ok h _ List.mem_cons_self, rfl⟩

/-- The value that a refresh fixes is given, or none after a conflict. An unknown atom is refused
before the refresh. -/
theorem after_fixedValue (a : Atom) (s : Solver ρ) :
    After (fixedValue a) s
      (fun b t => a < s.atoms.count ∧ t = s.refresh ∧
        b = if s.refresh.status = .inconsistent then none else s.refresh.fixed.value? a)
      (fun e t => t = s ∧ Unknown [Literal.pos a] s e) := by
  unfold After fixedValue
  cases h : s.checkKnown [Literal.pos a] with
  | error e => exact ⟨rfl, checkKnown_eq_error h⟩
  | ok u => exact ⟨checkKnown_eq_ok h _ List.mem_cons_self, rfl, rfl⟩

/-! ### Bounds -/

section Bounds

variable {P : Solver ρ → Prop}

/-- Registers keep what a further atom keeps. -/
theorem preserves_registers_of (hatom : ∀ s, P s → P s.auxiliary.2) (n : Nat) :
    Preserves P (registers (ρ := ρ) n) := by
  induction n with
  | zero => exact preserves_pure _
  | succ n ih =>
    refine (preserves_modifyGet hatom).bind fun a => ?_
    exact ih.bind fun _ => preserves_pure _

/-- A counter keeps what a further atom and the assertion of clauses keep. -/
theorem preserves_countAlong_of (hatom : ∀ s, P s → P s.auxiliary.2)
    (hclauses : ∀ cs, Preserves P (addClauses (ρ := ρ) cs)) (bound : Nat)
    (before : Option (List Literal)) (ls : List Literal) :
    Preserves P (countAlong (ρ := ρ) bound before ls) := by
  induction ls generalizing before with
  | nil => exact preserves_pure _
  | cons x xs ih =>
    cases xs with
    | nil => exact hclauses _
    | cons y ys =>
      refine (preserves_registers_of hatom bound).bind fun now => ?_
      exact (hclauses _).bind fun _ => ih (some now)

/-- A bound makes atoms without names and asserts clauses. What both keep, the bound keeps. -/
theorem preserves_addAtMost_of (hatom : ∀ s, P s → P s.auxiliary.2)
    (hclause : ∀ c, Preserves P (addClause (ρ := ρ) c)) (bound : Nat) (ls : List Literal) :
    Preserves P (addAtMost (ρ := ρ) bound ls) := by
  have hclauses : ∀ cs, Preserves P (addClauses (ρ := ρ) cs) := fun cs =>
    preserves_forM fun c _ => (hclause c).bind fun _ => preserves_pure _
  unfold addAtMost
  dsimp only
  split
  · exact preserves_pure _
  · split
    · exact hclauses _
    · exact hclauses _
    · exact preserves_countAlong_of hatom hclauses _ _ _

end Bounds

/-! ### What the constraints fix, and searches -/

/-- A refresh changes what is known of the constraints, and not the constraints. -/
theorem refresh_frame (s : Solver ρ) :
    ∃ clauses work fixed status, s.refresh = { s with clauses, work, fixed, status } ∧
      clauses.asserted = s.clauses.asserted := by
  unfold refresh
  split
  · exact ⟨_, _, _, _, rfl, rfl⟩
  · exact ⟨s.clauses, s.work, s.fixed, s.status, rfl, rfl⟩

/-- What has been counted makes no difference to a refresh. -/
theorem refresh_counters (s : Solver ρ) (counters : Counters) :
    ({ s with counters } : Solver ρ).refresh = { s.refresh with counters } := by
  obtain ⟨config, _, atoms, clauses, rules, work, fixed, assumptions, status, source⟩ := s
  cases status <;> rfl

/-- A search changes nothing but the counters, the assignment and the random source, once what
the constraints fix is known. -/
theorem solve_continues [RandomSource ρ] (optimize : Bool) (s : Solver ρ) :
    Continues s.refresh (s.solve optimize).2 := by
  have hcount : Continues s.refresh
      ({ s with counters.solves := s.counters.solves + 1 } : Solver ρ).refresh :=
    ⟨{ s.counters with solves := s.counters.solves + 1 }, s.refresh.work, s.refresh.source,
      refresh_counters s _⟩
  -- counting the search first does not change what the refresh finds
  refine hcount.trans ?_
  unfold solve begin
  dsimp only
  generalize ({ s with counters.solves := s.counters.solves + 1 } : Solver ρ).refresh = t
  split
  · exact Continues.refl t
  · split
    · rename_i u hu
      exact ⟨_, _, _, (Prod.mk.inj hu).2.symm⟩
    · rename_i u hu
      have hbegin : Continues t u := ⟨_, _, _, (Prod.mk.inj hu).2.symm⟩
      have hrounds := rounds_continues optimize (roundLimit u.work.valuation) u
      split
      · rename_i v hv
        rw [hv] at hrounds
        exact hbegin.trans hrounds
      · rename_i progress v _ hv
        rw [hv] at hrounds
        exact hbegin.trans hrounds

end Solver

end Storyworld
