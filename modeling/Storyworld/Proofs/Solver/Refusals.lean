import Storyworld.Proofs.Solver.Recounting

namespace Storyworld

/-!
# What a refused assertion leaves

Clauses, implications, rules, heads, demands that exactly one of some literals be true and forced
literals are refused before anything is done, so that the solver is left as it was. A bound is
written clause by clause, and the literals of each clause are looked at when its turn comes; what
was written before stays (`Assertion.refused_leaves`).

* `Assertion`: what may be asserted or forced, with the literals it is about.
* `Untouched`: the same atoms, asserted clauses, rules with their supports, and forced literals.
* `Solver.knows`: the literals of a clause are over the atoms there are.

The crux is where the literals are looked at. A clause that is stored makes no atom, so of clauses
asserted one after the other exactly those before the first with an unknown atom are stored
(`after_addClauses_knows`). A bound of two or more makes the registers of a literal before it
looks at the literal, so that atoms stay whenever it is refused (`after_countAlong_refused`).
-/

namespace Solver

open Action

variable {ρ : Type} {s t u : Solver ρ} {ls : List Literal} {bound : Nat} {e : Error}

/-! ### Assertions -/

/-- What may be asserted of literals, or demanded of them in the searches to come. -/
inductive Assertion where
  | constraint (c : Constraint)
  | head (head : Atom)
  | atMost (bound : Nat) (ls : List Literal)
  | unique (ls : List Literal)
  | force (l : Literal)
  deriving DecidableEq

namespace Assertion

def perform : Assertion → EStateM Error (Solver ρ) Unit
  | .constraint c => assert c
  | .head h => addHead h
  | .atMost bound ls => addAtMost bound ls
  | .unique ls => Solver.unique ls
  | .force l => Solver.force l

/-- The literals that an assertion is about. -/
def literals : Assertion → List Literal
  | .constraint c => (c.head?.map Literal.pos).toList ++ c.literals
  | .head h => [Literal.pos h]
  | .atMost _ ls => ls
  | .unique ls => ls
  | .force l => [l]

/-- The error names an atom of the assertion that is unknown, or the head of a rule without a
body. -/
def AtFault (a : Assertion) (s : Solver ρ) (e : Error) : Prop :=
  Unknown a.literals s e ∨ ∃ head, a = .constraint (.rule head []) ∧ e = .emptyBody head

end Assertion

/-- The same atoms, asserted clauses, rules with their supports, and forced literals. -/
structure Untouched (s t : Solver ρ) : Prop extends SameConstraints s t where
  assumptions : t.assumptions = s.assumptions

theorem Untouched.refl (s : Solver ρ) : Untouched s s := ⟨SameConstraints.refl s, rfl⟩

/-- Whether the literals of a clause are over the atoms there are. -/
def knows (s : Solver ρ) (c : Clause) : Bool := c.all fun l => s.atoms.contains l.atom

/-- A clause is known when its atoms are below the count. -/
theorem knows_eq_true_iff {c : Clause} : s.knows c = true ↔ ∀ l ∈ c, l.atom < s.atoms.count := by
  simp [knows, Atoms.contains, Atoms.count]

theorem Unknown.knows {c : Clause} (h : Unknown c s e) : s.knows c = false := by
  obtain ⟨l, hl, hge, -⟩ := h
  apply Bool.eq_false_iff.2
  intro hknown
  exact Nat.not_le_of_lt (knows_eq_true_iff.1 hknown l hl) hge

/-- Whose atom is unknown after more atoms were made was unknown before. -/
theorem Unknown.mono {ls' : List Literal} (h : Unknown ls t e) (hle : s.atoms.count ≤ t.atoms.count)
    (hls : ∀ l ∈ ls, t.atoms.count ≤ l.atom → ∃ m ∈ ls', m.atom = l.atom) : Unknown ls' s e := by
  obtain ⟨l, hl, hge, rfl⟩ := h
  obtain ⟨m, hm, hatom⟩ := hls l hl hge
  exact ⟨m, hm, by omega, by rw [hatom]⟩

/-! ### Clauses one after the other -/

/-- Of clauses asserted one after the other those before the first with an unknown atom are stored,
and no others. -/
theorem after_addClauses_knows (cs : List Clause) (s : Solver ρ) :
    After (addClauses cs) s (fun _ t => t = storeAll cs s ∧ Clause.Below s.atoms.count cs)
      fun e t => t = storeAll (cs.takeWhile s.knows) s ∧ ∃ c ∈ cs, Unknown c s e := by
  induction cs generalizing s with
  | nil => exact after_pure.2 ⟨rfl, List.forall_mem_nil _⟩
  | cons c cs ih =>
    show After ((addClause c >>= fun _ => pure ()) >>= fun _ => addClauses cs) s _ _
    refine after_bind.2 (after_bind.2 ((after_addClause c s).mono (fun stored t h => ?_)
      fun e t h => ?_))
    · obtain rfl : t = (s.store c).2 := congrArg Prod.snd h.2
      obtain ⟨clauses, status, hframe, -⟩ := store_frame c s
      have hatoms : (s.store c).2.atoms = s.atoms := by rw [hframe]
      have hknows : (s.store c).2.knows = s.knows := by
        funext d
        rw [knows, hatoms, knows]
      refine (ih (s.store c).2).mono ?_ ?_
      · rintro _ u ⟨rfl, hbelow⟩
        rw [hatoms] at hbelow
        exact ⟨rfl, List.forall_mem_cons.2 ⟨h.1, hbelow⟩⟩
      · rintro e u ⟨rfl, d, hd, hunknown⟩
        rw [hknows, List.takeWhile_cons_of_pos (knows_eq_true_iff.2 h.1)]
        refine ⟨rfl, d, List.mem_cons_of_mem c hd, ?_⟩
        rwa [Unknown, hatoms] at hunknown
    · -- the first clause is refused, and nothing is stored
      rw [List.takeWhile_cons_of_neg (by simp [h.2.knows])]
      exact ⟨h.1, c, List.mem_cons_self, h.2⟩

/-- Storing clauses touches nothing exactly when there is nothing in them to store. -/
theorem untouched_storeAll_iff {cs : List Clause} : Untouched s (storeAll cs s) ↔
    ∀ c ∈ cs, c.canonical.clashes = true ∨ c.canonical ∈ s.clauses.asserted := by
  constructor
  · intro h c hc
    exact (canonical_mem_storeAll hc s).imp_right fun hmem => h.asserted ▸ hmem
  · intro h
    -- if there is nothing to store in any clause, all of them together change nothing
    have hall : storeAll cs s = s := by
      induction cs with
      | nil => rfl
      | cons c cs ih =>
        obtain ⟨hc, hcs⟩ := List.forall_mem_cons.1 h
        show storeAll cs (s.store c).2 = s
        rw [store_of_known hc]
        exact ih hcs
    rw [hall]
    exact Untouched.refl s

/-! ### Bounds -/

theorem atom_of_mem_pairwise {c : Clause} (hc : c ∈ pairwise ls) {l : Literal} (hl : l ∈ c) :
    ∃ m ∈ ls, m.atom = l.atom := by
  induction ls with
  | nil => cases hc
  | cons x xs ih =>
    rcases List.mem_append.1 hc with hc | hc
    · obtain ⟨y, hy, rfl⟩ := List.mem_map.1 hc
      rcases List.mem_pair.1 hl with rfl | rfl
      · exact ⟨x, List.mem_cons_self, rfl⟩
      · exact ⟨y, List.mem_cons_of_mem x hy, rfl⟩
    · obtain ⟨m, hm, hatom⟩ := ih hc
      exact ⟨m, List.mem_cons_of_mem x hm, hatom⟩

/-- The clauses of a bound that needs no registers are about its literals. -/
theorem atom_of_mem_directClauses {c : Clause} (hc : c ∈ directClauses bound ls) {l : Literal}
    (hl : l ∈ c) : ∃ m ∈ ls, m.atom = l.atom := by
  unfold directClauses at hc
  split at hc
  · cases hc
  · split at hc
    · obtain ⟨m, hm, rfl⟩ := List.mem_map.1 hc
      rw [List.mem_singleton.1 hl]
      exact ⟨m, hm, rfl⟩
    · exact atom_of_mem_pairwise hc hl

theorem after_addAtMost_direct (hfew : bound ≤ 1) (s : Solver ρ) :
    After (addAtMost bound ls) s (fun _ _ => True) fun e t => Unknown ls s e ∧
      t = storeAll ((directClauses bound (Clause.canonical ls)).takeWhile s.knows) s := by
  rw [addAtMost_direct (Or.inl hfew)]
  refine (after_addClauses_knows _ s).mono (fun _ _ _ => trivial) ?_
  rintro e t ⟨ht, c, hc, hunknown⟩
  refine ⟨hunknown.mono (Nat.le_refl _) fun l hl _ => ?_, ht⟩
  obtain ⟨m, hm, hatom⟩ := atom_of_mem_directClauses hc hl
  exact ⟨m, Clause.mem_canonical.1 hm, hatom⟩

/-- If clauses are about one literal and otherwise about known atoms, it is the literal whose atom is
unknown where one of them is refused. -/
theorem after_addClauses_about {cs : List Clause} {x : Literal}
    (hcs : ∀ c ∈ cs, ∀ l ∈ c, l.atom = x.atom ∨ l.atom < s.atoms.count) :
    After (addClauses cs) s (fun _ t => t = storeAll cs s ∧ Clause.Below s.atoms.count cs)
      fun e t => Unknown [x] s e ∧ t.atoms = s.atoms := by
  refine (after_addClauses_knows cs s).mono (fun _ _ h => h) ?_
  rintro e t ⟨rfl, c, hc, hunknown⟩
  refine ⟨hunknown.mono (Nat.le_refl _) fun l hl hge => ?_, atoms_storeAll _ s⟩
  rcases hcs c hc l hl with hatom | hlt
  · exact ⟨x, List.mem_cons_self, hatom.symm⟩
  · exact absurd hge (Nat.not_le_of_lt hlt)

/-- A counter that is refused leaves whole rows of registers, at least one if there is more than
one literal to be counted. -/
theorem after_countAlong_refused {before : Option (List Literal)} (hs : s.WellFormed)
    (hbefore : ∀ r ∈ before.getD [], r.atom < s.atoms.count) :
    After (countAlong bound before ls) s (fun _ _ => True) fun e t => Unknown ls s e ∧
      ∃ rows, t.atoms.count = s.atoms.count + bound * rows ∧ (1 < ls.length → 0 < rows) := by
  induction ls generalizing before s with
  | nil => exact after_pure.2 trivial
  | cons x xs ih =>
    cases xs with
    | nil =>
      -- the last literal needs no registers of its own
      refine (after_addClauses_about (x := x) fun c hc l hl => ?_).mono (fun _ _ _ => trivial) ?_
      · obtain ⟨full, hfull, rfl⟩ := List.mem_map.1 hc
        rcases List.mem_pair.1 hl with rfl | rfl
        · exact Or.inl rfl
        · exact Or.inr (hbefore full (List.mem_of_mem_drop hfull))
      · rintro e t ⟨hunknown, hatoms⟩
        exact ⟨hunknown, 0, by rw [hatoms]; rfl, fun h => absurd h (Nat.lt_irrefl 1)⟩
    | cons y ys =>
      refine after_bind.2 ((after_registers hs bound).imp fun now t h => ?_)
      obtain ⟨rfl, ht, hgrown, -⟩ := h
      -- registers are known, so it is the literal that may be at fault
      have hregisters : ∀ r ∈ before.getD [] ++ freshLiterals s.atoms.count bound,
          r.atom < t.atoms.count := by
        intro r hr
        rw [hgrown]
        rcases List.mem_append.1 hr with hr | hr
        · exact Nat.lt_add_right _ (hbefore r hr)
        · exact (atom_of_mem_freshLiterals hr).2
      show After (addClauses (countClauses x before (freshLiterals s.atoms.count bound)) >>=
        fun _ => countAlong bound (some (freshLiterals s.atoms.count bound)) (y :: ys)) t _ _
      refine after_bind.2 ((after_addClauses_about (x := x) fun c hc l hl => ?_).mono ?_ ?_)
      · rcases of_mem_countClauses hc hl with rfl | ⟨r, hr, hatom⟩
        · exact Or.inl rfl
        · exact Or.inr (hatom ▸ hregisters r hr)
      · rintro _ u ⟨rfl, hbelow⟩
        have hatoms := atoms_storeAll (countClauses x before (freshLiterals s.atoms.count bound)) t
        refine (ih (ht.storeAll hbelow) fun r hr => ?_).mono (fun _ _ _ => trivial) ?_
        · rw [hatoms]
          exact hregisters r (List.mem_append_right _ hr)
        · rintro e v ⟨hunknown, rows, hrows, -⟩
          rw [hatoms] at hrows
          refine ⟨hunknown.mono (by rw [hatoms]; omega)
              fun l hl _ => ⟨l, List.mem_cons_of_mem x hl, rfl⟩,
            rows + 1, ?_, fun _ => Nat.succ_pos rows⟩
          rw [hrows, hgrown, Nat.mul_succ]
          omega
      · -- refused at this literal, after its registers were made
        rintro e u ⟨hunknown, hatoms⟩
        refine ⟨hunknown.mono (by omega) fun l hl _ => ?_, 1, ?_, fun _ => Nat.one_pos⟩
        · rw [List.mem_singleton.1 hl]
          exact ⟨x, List.mem_cons_self, rfl⟩
        · rw [hatoms, Nat.mul_one]
          exact hgrown

theorem after_addAtMost_counter (hs : s.WellFormed) (hpos : 1 < bound)
    (hmany : bound < (Clause.canonical ls).length) :
    After (addAtMost bound ls) s (fun _ _ => True) fun e t => Unknown ls s e ∧
      ∃ rows, 0 < rows ∧ t.atoms.count = s.atoms.count + bound * rows := by
  -- the bound is neither zero nor one and there are more literals, so the counter is run
  have hrun : addAtMost (ρ := ρ) bound ls = countAlong bound none (Clause.canonical ls) := by
    unfold addAtMost
    dsimp only
    rw [if_neg (Nat.not_le_of_lt hmany)]
    match bound, hpos with
    | n + 2, _ => rfl
  rw [hrun]
  refine (after_countAlong_refused hs (List.forall_mem_nil _)).mono (fun _ _ _ => trivial) ?_
  rintro e t ⟨hunknown, rows, hrows, hsome⟩
  refine ⟨hunknown.mono (Nat.le_refl _) fun l hl _ => ⟨l, Clause.mem_canonical.1 hl, rfl⟩,
    rows, hsome (by omega), hrows⟩

/-- A bound leaves the rules and the forced literals as they are. -/
theorem preserves_rules_assumptions_addAtMost (bound : Nat) (ls : List Literal) :
    Preserves (fun t : Solver ρ => t.rules = s.rules ∧ t.assumptions = s.assumptions)
      (addAtMost bound ls) := by
  refine preserves_addAtMost_of (fun t ht => ht) (fun c t ht => ?_) bound ls
  refine (after_addClause c t).mono (fun stored u h => ?_) fun _ _ h => h.1 ▸ ht
  obtain ⟨clauses, status, hframe, -⟩ := store_frame c t
  obtain rfl : u = (t.store c).2 := congrArg Prod.snd h.2
  rwa [hframe]

/-- The clause of a demand for exactly one literal is refused before anything is done, and what
follows it is not refused. -/
theorem after_unique_refused (hs : s.WellFormed) :
    After (unique ls) s (fun _ _ => True) fun e t => t = s ∧ Unknown ls s e := by
  refine after_bind.2 (after_bind.2 ((after_addClause ls s).mono (fun stored t h => ?_)
    fun e t h => h))
  obtain rfl : t = (s.store ls).2 := congrArg Prod.snd h.2
  obtain ⟨clauses, status, hframe, -⟩ := store_frame ls s
  have hatoms : (s.store ls).2.atoms = s.atoms := by rw [hframe]
  exact (after_addAtMost (hs.store h.1) (hatoms ▸ h.1) 1).imp fun _ _ _ => trivial

/-! ### Assertions that are refused -/

namespace Assertion

/-- Whatever is no bound is refused before anything is done. -/
theorem after_perform (hs : s.WellFormed) {a : Assertion} (ha : ∀ bound ls, a ≠ .atMost bound ls) :
    After a.perform s (fun _ _ => True) fun e t => t = s ∧ a.AtFault s e := by
  cases a with
  | constraint c =>
    cases c with
    | clause c =>
      exact after_bind.2 ((after_addClause c s).mono (fun _ _ _ => trivial)
        fun e t h => ⟨h.1, Or.inl h.2⟩)
    | implication body head =>
      exact after_bind.2 ((after_addClause _ s).mono (fun _ _ _ => trivial)
        fun e t h => ⟨h.1, Or.inl h.2⟩)
    | rule head body =>
      refine after_bind.2 ((after_addRule head body s).mono (fun _ _ _ => trivial) ?_)
      -- a rule is refused for its empty body, too
      rintro e t ⟨ht, ⟨rfl, he⟩ | hunknown⟩
      · exact ⟨ht, Or.inr ⟨head, rfl, he⟩⟩
      · exact ⟨ht, Or.inl hunknown⟩
  | head h =>
    exact (after_addHead h s).mono (fun _ _ _ => trivial) fun e t h => ⟨h.1, Or.inl h.2⟩
  | atMost bound ls => exact absurd rfl (ha bound ls)
  | unique ls => exact (after_unique_refused hs).mono (fun _ _ h => h) fun e t h => ⟨h.1, Or.inl h.2⟩
  | force l =>
    exact (after_force l s).mono (fun _ _ _ => trivial) fun e t h => ⟨h.1, Or.inl h.2⟩

/-- The clauses that a bound up to one writes before it meets an atom it does not know. -/
def written (bound : Nat) (ls : List Literal) (s : Solver ρ) : List Clause :=
  (directClauses bound (Clause.canonical ls)).takeWhile s.knows

/-- **A refused assertion leaves the solver as it was, unless it is a bound.** For every solver that
can be reached, and every clause, implication, rule, head, bound, demand for exactly one literal and
forced literal that is refused: the error names an atom of it that is unknown, or a rule has no
body, and the rules with their supports and the forced literals are as before. Whatever is no bound
leaves everything as it was. A bound up to one leaves the clauses it wrote before it met an unknown
atom, and a larger one leaves whole rows of registers, at least one. So the atoms, the clauses, the
rules and the forced literals are as before exactly if the assertion is no bound, or a bound up to
one whose clauses before the unknown atom are tautologies or stored already. -/
theorem refused_leaves [RandomSource ρ] (hs : s.Reachable) {a : Assertion}
    (h : a.perform s = .error e t) :
    a.AtFault s e ∧ t.rules = s.rules ∧ t.assumptions = s.assumptions ∧
      ((∀ bound ls, a ≠ .atMost bound ls) → t = s) ∧
      (∀ bound ls, a = .atMost bound ls →
        (bound ≤ 1 → t = storeAll (written bound ls s) s) ∧
        (1 < bound → ∃ rows, 0 < rows ∧ t.atoms.count = s.atoms.count + bound * rows)) ∧
      (Untouched s t ↔ ∀ bound ls, a = .atMost bound ls → bound ≤ 1 ∧
        ∀ c ∈ written bound ls s, c.canonical.clashes = true ∨
          c.canonical ∈ s.clauses.asserted) := by
  have hwf := hs.wellFormed
  by_cases ha : ∀ bound ls, a ≠ .atMost bound ls
  · obtain ⟨rfl, hfault⟩ := (after_perform hwf ha).of_error h
    exact ⟨hfault, rfl, rfl, fun _ => rfl, fun bound ls hbound => absurd hbound (ha bound ls),
      iff_of_true (Untouched.refl t) fun bound ls hbound => absurd hbound (ha bound ls)⟩
  · obtain ⟨bound, ls, rfl⟩ : ∃ bound ls, a = .atMost bound ls := by simpa using ha
    obtain ⟨hrules, hassumptions⟩ :=
      (preserves_rules_assumptions_addAtMost bound ls s ⟨rfl, rfl⟩).of_error h
    -- small bounds make no registers, so what they leave are clauses
    by_cases hfew : bound ≤ 1
    · obtain ⟨hunknown, rfl⟩ := (after_addAtMost_direct hfew s).of_error h
      refine ⟨Or.inl hunknown, hrules, hassumptions, fun hne => absurd rfl (hne bound ls), ?_, ?_⟩
      · rintro _ _ ⟨⟩
        exact ⟨fun _ => rfl, fun hmany => absurd hfew (Nat.not_le_of_lt hmany)⟩
      · refine untouched_storeAll_iff.trans ⟨?_, fun hall => (hall bound ls rfl).2⟩
        rintro hall _ _ ⟨⟩
        exact ⟨hfew, hall⟩
    · -- a bound that nothing can exceed is never refused
      have hmany : bound < (Clause.canonical ls).length := by
        apply Nat.lt_of_not_le
        intro hlen
        have hpure : addAtMost (ρ := ρ) bound ls = pure () := if_pos hlen
        rw [perform, hpure] at h
        cases h
      obtain ⟨hunknown, rows, hrows, hcount⟩ :=
        (after_addAtMost_counter hwf (Nat.lt_of_not_le hfew) hmany).of_error h
      refine ⟨Or.inl hunknown, hrules, hassumptions, fun hne => absurd rfl (hne bound ls), ?_, ?_⟩
      · rintro _ _ ⟨⟩
        exact ⟨fun h => absurd h hfew, fun _ => ⟨rows, hrows, hcount⟩⟩
      · refine iff_of_false (fun hsame => ?_) fun hall => hfew (hall bound ls rfl).1
        rw [hsame.atoms] at hcount
        -- registers were made before the refusal, so atoms were added
        have hgrown : 0 < bound * rows := Nat.mul_pos (by omega) hrows
        omega

/-- Exactly one of a literal that is known and one that is not: nothing happens. At most one of
three, of which the last is not known: that the first two are not both true stays. -/
theorem refused_leaves_unique :
    let s : Solver Pcg := [Move.freshAtom none, .freshAtom none].foldl
      (fun s m => m.perform s) (ofConfig {} (Pcg.ofSeed 0))
    let a := unique [Literal.pos 1, Literal.pos 9]
    let b := atMost 1 [Literal.pos 1, Literal.pos 2, Literal.pos 9]
    s.Reachable ∧ a.perform s = .error (.unknownAtom 9) s ∧
      ∃ e t, b.perform s = .error e t ∧ t = storeAll [[Literal.neg 1, Literal.neg 2]] s ∧
        ¬ Untouched s t := by
  intro s a b
  have hs : s.Reachable := (Reachable.start {} (Pcg.ofSeed 0)).moves _
  have hvalues : value? a.perform s = none ∧ value? b.perform s = none := by decide +kernel
  have hwritten : written 1 [Literal.pos 1, Literal.pos 2, Literal.pos 9] s =
      [[Literal.neg 1, Literal.neg 2]] := by decide +kernel
  obtain ⟨e, ha⟩ := eq_error_of_value? hvalues.1
  obtain ⟨hfault, -, -, hsame, -, -⟩ := refused_leaves hs ha
  have he : e = .unknownAtom 9 := by
    rcases hfault with ⟨l, hl, hge, he⟩ | ⟨head, hrule, -⟩
    · have hcount : s.atoms.count = 3 := by decide +kernel
      rcases List.mem_pair.1 hl with rfl | rfl
      · rw [hcount] at hge
        exact absurd hge (by decide)
      · exact he
    · exact absurd hrule nofun
  obtain ⟨e', hb⟩ := eq_error_of_value? hvalues.2
  obtain ⟨-, -, -, -, hbound, huntouched⟩ := refused_leaves hs hb
  have hleft := (hbound _ _ rfl).1 (by decide)
  rw [hwritten] at hleft
  rw [he, hsame nofun] at ha
  refine ⟨hs, ha, e', _, hb, hleft, fun h => ?_⟩
  have hnothing := (huntouched.1 h _ _ rfl).2
  rw [hwritten] at hnothing
  exact absurd (hnothing _ List.mem_cons_self) (by decide +kernel)

/-- At most none of an atom and one that is unknown: the bound is refused, and the atom can no
longer be true. At most two of it and two that are unknown: the bound is refused, and there are four
more atoms. -/
theorem bound_half_asserted :
    let s : Solver Pcg := [Move.freshAtom none].foldl
      (fun s m => m.perform s) (ofConfig {} (Pcg.ofSeed 0))
    let zero := addAtMost 0 [Literal.pos 1, Literal.pos 9]
    let two := addAtMost 2 [Literal.pos 1, Literal.pos 8, Literal.pos 9]
    s.Reachable ∧
      (∃ e t, zero s = .error e t ∧ s.clauses.asserted = #[] ∧
        t.clauses.asserted = #[[Literal.neg 1]]) ∧
      ∃ e t, two s = .error e t ∧ s.atoms.count = 2 ∧ t.atoms.count = 6 := by
  intro s zero two
  have hs : s.Reachable := (Reachable.start {} (Pcg.ofSeed 0)).moves _
  have hvalues : value? zero s = none ∧ value? two s = none := by decide +kernel
  obtain ⟨e, hzero⟩ := eq_error_of_value? hvalues.1
  obtain ⟨e', htwo⟩ := eq_error_of_value? hvalues.2
  exact ⟨hs, ⟨e, _, hzero, by decide +kernel⟩, e', _, htwo, by decide +kernel⟩

end Assertion

end Solver

end Storyworld
