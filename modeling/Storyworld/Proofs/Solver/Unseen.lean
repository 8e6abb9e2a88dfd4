import Storyworld.Proofs.Solver.Reordering

namespace Storyworld

/-!
# Clauses that no search looks at

A rule may have top as its head, and then its completion clause denies top. If it does nothing
else, and does so twice, it is false from the start, and still no search finds out: it is not a
unit clause, and propagation comes to a clause through a literal that has become false on the
trail, where top never stands. So a search answers for the other clauses only, and
`isSome_solve_iff_seen` says that it does answer for these.

The proof puts a clause that is always true in the place of each unseen one
(`Solver.excused`). The index keeps the same keys for every literal but top's
(`Excuses.readAlike`), so propagation and with it the search go the same way
(`propagate_readAlike`, `search_excused`), and of the excused solver it is known that what it
finds is right.
-/

namespace Clause

/-- The clause, or one that is always true if it is unseen. -/
def excuse (c : Clause) : Clause :=
  if c.Unseen then [Literal.neg Atom.top, Literal.pos Atom.top] else c

/-- A clause with a literal that is not about top is never unseen. -/
theorem excuse_of_mem {c : Clause} {l : Literal} (hl : l ∈ c) (hne : l.atom ≠ Atom.top) :
    c.excuse = c :=
  if_neg fun h => hne (congrArg Literal.atom (h.2 l hl))

/-- An excused clause holds each literal that is not about top as often as before. -/
theorem count_excuse (c : Clause) {l : Literal} (hne : l.atom ≠ Atom.top) :
    c.excuse.count l = c.count l := by
  by_cases h : c.Unseen
  · have hnot : l ∉ c := fun hl => hne (congrArg Literal.atom (h.2 l hl))
    have hnot' : l ∉ [Literal.neg Atom.top, Literal.pos Atom.top] := by
      intro hl
      rcases List.mem_pair.1 hl with rfl | rfl
      · exact hne rfl
      · exact hne rfl
    rw [excuse, if_pos h, List.count_eq_zero.2 hnot, List.count_eq_zero.2 hnot']
  · rw [excuse, if_neg h]

/-- A unit clause is seen, and what takes the place of an unseen clause is no unit clause. -/
theorem excuse_eq_singleton_iff {c : Clause} {l : Literal} : c.excuse = [l] ↔ c = [l] := by
  by_cases h : c.Unseen
  · rw [excuse, if_pos h]
    refine ⟨fun e => ?_, fun e => ?_⟩
    · cases e
    · exact absurd (e ▸ h) (not_unseen_singleton l)
  · rw [excuse, if_neg h]

/-- What is excused is not unseen any more. -/
theorem not_unseen_excuse (c : Clause) : ¬ c.excuse.Unseen := by
  by_cases h : c.Unseen
  · rw [excuse, if_pos h]
    decide
  · rwa [excuse, if_neg h]

/-- An excused clause is true where the clause is, and wherever it was unseen. -/
theorem isTrue_excuse {i : Interpretation} (hi : i Atom.top = true) {c : Clause} :
    i.IsTrue c.excuse ↔ c.Unseen ∨ i.IsTrue c := by
  by_cases h : c.Unseen
  · rw [excuse, if_pos h]
    exact iff_of_true ⟨Literal.pos Atom.top, by simp, hi⟩ (Or.inl h)
  · rw [excuse, if_neg h]
    exact (or_iff_right h).symm

end Clause

/-! ### Excused rules -/

namespace Rules

/-- The rules, with top in the place of supports that leave a completion clause unseen. -/
def excused (r : Rules) : Rules :=
  { r with
    supports := r.supports.map fun head supports =>
      if Clause.Unseen (Literal.neg head :: supports) then [Literal.pos Atom.top] else supports }

/-- The heads stay the same. -/
theorem mem_supports_excused {r : Rules} {head : Atom} :
    head ∈ r.excused.supports ↔ head ∈ r.supports := Std.TreeMap.mem_map

/-- Only the supports of a head with an unseen completion clause are replaced. -/
theorem supportsOf_excused (r : Rules) (head : Atom) :
    r.excused.supportsOf head =
      if Clause.Unseen (Literal.neg head :: r.supportsOf head) then [Literal.pos Atom.top]
      else r.supportsOf head := by
  show ((r.supports.map _)[head]?).getD [] = _
  rw [Std.TreeMap.getElem?_map]
  unfold supportsOf
  cases r.supports[head]? with
  | none => exact (if_neg (Clause.not_unseen_singleton _)).symm
  | some supports => rfl

/-- The completion clauses of excused rules are the excused completion clauses. -/
theorem completion_excused (r : Rules) : r.excused.completion = r.completion.map Clause.excuse := by
  unfold completion excused
  rw [Std.TreeMap.toList_map, List.map_map, List.map_map]
  refine List.map_congr_left fun e _ => ?_
  show Literal.neg e.1 :: (if Clause.Unseen (Literal.neg e.1 :: e.2) then [Literal.pos Atom.top]
    else e.2) = Clause.excuse (Literal.neg e.1 :: e.2)
  unfold Clause.excuse
  split
  · rename_i h
    rw [h.2 _ List.mem_cons_self]
  · rfl

/-- Excused rules are over the same atoms, as top is one of them. -/
theorem Over.excused {count : Nat} {r : Rules} (hr : r.Over count) (hpos : 0 < count) :
    r.excused.Over count where
  heads h hh := hr.heads h (mem_supports_excused.1 hh)
  supports h l hl := by
    rw [supportsOf_excused] at hl
    -- the support of an excused head is top, which is always known
    split at hl
    · rw [List.mem_singleton.1 hl]
      exact hpos
    · exact hr.supports h l hl
  definitions := hr.definitions
  recorded h hh := by
    refine hr.recorded h fun hnil => hh ?_
    rw [supportsOf_excused, hnil]
    exact if_neg (Clause.not_unseen_singleton _)

end Rules

/-! ### The index over excused rules -/

namespace Clauses

variable {clauses clauses' : Clauses}

/-- The same asserted clauses, and each completion clause excused. -/
structure Excuses (clauses clauses' : Clauses) : Prop where
  asserted : clauses'.asserted = clauses.asserted
  completion : clauses'.completion = clauses.completion.map Clause.excuse

/-- What reads excused clauses like the others reads the same of all of them. -/
theorem Excuses.flatMap_keyed {α : Type} (h : Excuses clauses clauses')
    {f : ClauseKey × Clause → List α} (hf : ∀ key c, f (key, c.excuse) = f (key, c)) :
    clauses'.keyed.flatMap f = clauses.keyed.flatMap f := by
  unfold keyed
  rw [h.asserted, h.completion, Array.toList_map, List.zipIdx_map, List.map_map,
    List.flatMap_append, List.flatMap_append, List.flatMap_map, List.flatMap_map, List.flatMap_map]
  congr 2
  funext e
  exact hf _ _

/-- A clause that holds a literal not about top is not changed. -/
theorem Excuses.get (h : Excuses clauses clauses') {key : ClauseKey} {l : Literal}
    (hl : l ∈ clauses.get key) (hne : l.atom ≠ Atom.top) : clauses'.get key = clauses.get key := by
  cases key with
  | asserted i =>
    unfold Clauses.get
    rw [h.asserted]
  | completion i =>
    -- a clause that is excused speaks of top only, and this one has another literal
    have hsame := Clause.excuse_of_mem hl hne
    show clauses'.completion[i]?.getD [] = clauses.completion[i]?.getD []
    rw [h.completion, Array.getElem?_map]
    cases hi : clauses.completion[i]? with
    | none => rfl
    | some c =>
      have hget : clauses.get (.completion i) = c := by
        rw [Clauses.get, hi, Option.getD_some]
      rwa [hget] at hsame

/-- All that a search reads of the clauses is the same: the unit clauses, whether there is an empty
one, and the clauses that hold a literal, but for those of top. -/
structure ReadAlike (clauses clauses' : Clauses) : Prop where
  units : Solver.units clauses' = Solver.units clauses
  empty : clauses'.containsEmpty = clauses.containsEmpty
  occurrences : ∀ l : Literal, l.atom ≠ Atom.top →
    clauses'.occurrencesOf l = clauses.occurrencesOf l
  get : ∀ l : Literal, l.atom ≠ Atom.top → ∀ key ∈ clauses.occurrencesOf l,
    clauses'.get key = clauses.get key

/-- An unseen clause is no unit clause, and neither is what it is excused with. -/
theorem Excuses.units (h : Excuses clauses clauses') :
    Solver.units clauses' = Solver.units clauses := by
  unfold Solver.units all
  rw [h.asserted, h.completion, Array.toList_map, List.filterMap_append, List.filterMap_append,
    List.filterMap_map]
  congr 2
  funext c
  rw [Function.comp_apply]
  split
  · rename_i l hl
    -- an unseen clause has two literals or more, and so has the one in its place
    rw [Clause.excuse_eq_singleton_iff.1 hl]
  · rename_i hne
    split
    · rename_i l
      exact absurd (Clause.excuse_eq_singleton_iff.2 rfl) (hne l)
    · rfl

/-- A search reads the same of clauses and of their excused versions. -/
theorem Excuses.readAlike (h : Excuses clauses clauses') (count : Nat) :
    ReadAlike (clauses.reindex count) (clauses'.reindex count) where
  units := h.units
  empty := by
    unfold containsEmpty
    rw [Bool.eq_iff_iff, decide_eq_true_iff, decide_eq_true_iff]
    show [] ∈ clauses'.known ↔ [] ∈ clauses.known
    rw [clauses'.known_iff, clauses.known_iff, h.asserted]
  occurrences l hne := by
    rw [occurrencesOf_reindex, occurrencesOf_reindex, h.flatMap_keyed]
    intro key c
    show List.replicate (c.excuse.count l) key = List.replicate (c.count l) key
    -- only occurrences of top and its negation are moved
    rw [Clause.count_excuse c hne]
  get l hne key hkey := by
    obtain ⟨-, c, hc, hl⟩ := (indexed_reindex clauses count l key).1 hkey
    have hget : clauses.get key = c := get_of_mem_keyed hc
    exact h.get (hget ▸ hl) hne

end Clauses

/-! ### Propagation -/

namespace Assignment

variable {clauses clauses' : Clauses} {base : Valuation} {a : Assignment}

/-- To visit clauses depends on the clauses visited. -/
theorem visit_congr {keys : List ClauseKey}
    (h : ∀ key ∈ keys, clauses'.get key = clauses.get key) (a : Assignment) :
    visit clauses' keys a = visit clauses keys a := by
  induction keys generalizing a with
  | nil => rfl
  | cons key keys ih =>
    have hrest : ∀ k ∈ keys, clauses'.get k = clauses.get k :=
      fun k hk => h k (List.mem_cons_of_mem _ hk)
    unfold visit
    -- a visit reads clauses by their keys only
    rw [h key List.mem_cons_self]
    split
    · exact ih hrest a
    · exact ih hrest _
    · rfl

/-- Top is never on the trail, so the clauses that hold it are never looked at for its sake. -/
theorem propagateWithin_readAlike (h : clauses.ReadAlike clauses')
    (hindexed : clauses.Indexed base.size) (hbelow : Clause.Below base.size clauses.all)
    (htop : ¬ base.Open Atom.top) (hstep : InStep base a) (n : Nat) :
    propagateWithin clauses' n a = propagateWithin clauses n a := by
  induction n generalizing a with
  | zero => rfl
  | succ n ih =>
    unfold propagateWithin
    cases ht : a.trail.next? with
    | none => rfl
    | some next =>
      obtain ⟨l, t⟩ := next
      dsimp only
      -- top is not on the trail, so the clauses that are visited are not those of top
      have hmem : l ∈ a.trail.toList := by
        have hwait := (Trail.next?_eq_some ht).1
        exact List.mem_of_mem_drop (hwait ▸ List.mem_cons_self)
      have hne : l.negate.atom ≠ Atom.top := fun e => htop (e ▸ hstep.fits.isOpen l hmem)
      have hkeys : ∀ key ∈ clauses.occurrencesOf l.negate, clauses.get key ∈ clauses.all :=
        fun key hkey => hindexed.mem_all hkey
      have hvisit := ((hstep.dequeue ht).reach_visit hbelow hkeys).1
      rw [h.occurrences _ hne, visit_congr (h.get _ hne)]
      split
      · rfl
      · rename_i b hb
        rw [hb] at hvisit
        exact ih hvisit

/-- Propagation goes the same way where the same is read of the clauses. -/
theorem propagate_readAlike (h : clauses.ReadAlike clauses')
    (hindexed : clauses.Indexed base.size) (hbelow : Clause.Below base.size clauses.all)
    (htop : ¬ base.Open Atom.top) (hstep : InStep base a) :
    propagate clauses' a = propagate clauses a :=
  propagateWithin_readAlike h hindexed hbelow htop hstep a.reach

end Assignment

namespace Solver

open Assignment

variable {ρ : Type} {s t : Solver ρ}

/-- The same is fixed where the same is read of the clauses. -/
theorem fix_readAlike {clauses clauses' : Clauses} {base : Valuation}
    (h : clauses.ReadAlike clauses') (hindexed : clauses.Indexed base.size)
    (hbelow : Clause.Below base.size clauses.all) (htop : ¬ base.Open Atom.top) :
    fix clauses' ⟨base, {}⟩ = fix clauses ⟨base, {}⟩ := by
  have hstep := (inStep_empty base).assume (units_lt hbelow)
  unfold fix
  rw [h.empty, h.units]
  split
  · rfl
  · split
    · rfl
    · rename_i a ha
      rw [ha] at hstep
      -- the same units lead to the same assignment, from where propagation goes the same way
      rw [propagate_readAlike h hindexed hbelow htop hstep]

/-! ### The search over excused rules -/

/-- The solver with excused rules. What they fix is still to be found. -/
def excused (s : Solver ρ) : Solver ρ := { s with rules := s.rules.excused, status := .stale }

/-- The solver with excused rules is well formed. -/
theorem WellFormed.excused (hs : s.WellFormed) : s.excused.WellFormed where
  atoms := hs.atoms
  clauses := hs.clauses
  rules := hs.rules.excused hs.atoms.count_pos
  assumptions := hs.assumptions
  current := Or.inl rfl

/-- No clause of the solver with excused rules is unseen. -/
theorem WellFormed.seen_excused (hs : s.WellFormed) : ∀ c ∈ s.excused.formula, ¬ c.Unseen := by
  intro c hc
  rcases List.mem_append.1 hc with hc | hc
  · exact hs.seen_asserted c hc
  · have hc : c ∈ s.rules.excused.completion := hc
    rw [Rules.completion_excused] at hc
    obtain ⟨d, -, rfl⟩ := List.mem_map.1 hc
    exact d.not_unseen_excuse

/-- The models of the excused constraints are those of the constraints that are seen. -/
theorem isModel_excused_iff (hs : s.WellFormed) {i : Interpretation} :
    i.IsModel s.excused.formula ↔ i.IsModel (s.formula.filter fun c => ¬ c.Unseen) := by
  refine and_congr_right fun hi => ?_
  show (∀ c ∈ s.clauses.asserted.toList ++ s.rules.excused.completion, i.IsTrue c) ↔ _
  rw [Rules.completion_excused, formula, List.filter_append, List.forall_mem_append,
    List.forall_mem_append]
  simp only [List.forall_mem_map, List.mem_filter, decide_eq_true_eq, and_imp]
  refine and_congr (forall₂_congr fun c hc => ?_) (forall₂_congr fun c hc => ?_)
  · exact (imp_iff_right (hs.seen_asserted c hc)).symm
  · rw [Clause.isTrue_excuse hi, or_iff_not_imp_left]

section Search

variable [RandomSource ρ] {optimize : Bool} {base : Valuation}

/-- A decision does not depend on the constraints. -/
theorem decide?_of_constraints (optimize : Bool) (s : Solver ρ) (clauses : Clauses)
    (rules : Rules) :
    decide? optimize { s with clauses, rules } =
      ((decide? optimize s).1, { (decide? optimize s).2 with clauses, rules }) := by
  -- a decision reads values, the configuration and the source, but no clause
  have hopen : openAtom? { s with clauses, rules } =
      (s.openAtom?.1, { s.openAtom?.2 with clauses, rules }) := by
    unfold openAtom?
    dsimp only
    split <;> rfl
  unfold decide?
  rw [hopen]
  cases s.openAtom? with
  | mk x u =>
    cases x with
    | none => rfl
    | some x =>
      unfold polarity
      dsimp only
      split <;> rfl

/-- A round goes the same way over clauses that it reads alike. -/
theorem round_readAlike {clauses : Clauses} (h : s.clauses.ReadAlike clauses) (rules : Rules)
    (hc : Comparable s.clauses s.clauses base) (hstep : InStep base s.work) :
    round optimize { s with clauses, rules } =
      ((s.round optimize).1, { (s.round optimize).2 with clauses, rules }) := by
  unfold Solver.round
  dsimp only
  rw [propagate_readAlike h hc.indexed hc.below hc.top hstep]
  split
  · rename_i b hb
    -- propagation goes the same way, and neither decisions nor the way back read clauses
    have hdecide := decide?_of_constraints optimize
      ({ s with counters.iterations := s.counters.iterations + 1, work := b } : Solver ρ)
      clauses rules
    rw [hdecide]
    cases decide? optimize
      ({ s with counters.iterations := s.counters.iterations + 1, work := b } : Solver ρ) with
    | mk l u => cases l <;> rfl
  · split <;> rfl

/-- A search is in lockstep with itself, so its trail and its valuation stay in step, and each of
its rounds goes the same way over clauses that it reads alike. -/
theorem rounds_readAlike (optimize : Bool) {clauses : Clauses}
    (h : s.clauses.ReadAlike clauses) (rules : Rules) (hc : Comparable s.clauses s.clauses base)
    (hlock : Lockstep (· = ·) base s s) (n : Nat) :
    rounds optimize n { s with clauses, rules } =
      ((rounds optimize n s).1, { (rounds optimize n s).2 with clauses, rules }) := by
  induction n generalizing s with
  | zero => rfl
  | succ n ih =>
    have hround := hlock.round (steers_eq optimize s.config) hc
    obtain ⟨_, _, _, hcont⟩ := round_continues optimize s
    unfold Solver.rounds
    rw [round_readAlike h rules hc hlock.work.abreast.inStep]
    cases hs : s.round optimize with
    | mk progress u =>
      rw [hs] at hround hcont
      cases progress with
      | searching =>
        -- a round leaves the clauses as they are
        have hlock : Lockstep (· = ·) base u u := hround.lockstep rfl
        subst hcont
        exact ih h hc hlock
      | found => rfl
      | exhausted => rfl

/-- A search finds the same where the same is read of the clauses. -/
theorem search_readAlike {clauses : Clauses} (h : s.clauses.ReadAlike clauses) (rules : Rules)
    (work : Assignment) (hs : s.WellFormed) (hcurrent : s.UpToDate) :
    (search optimize { s with clauses, rules, work }).1 = (search optimize s).1 := by
  have hc : Comparable s.clauses s.clauses s.fixed :=
    (Reordered.refl s).comparable hs hs hcurrent hcurrent (hcurrent.size_fixed hs)
      (hcurrent.not_open_top hs)
  have hlt : ∀ l ∈ s.assumptions, l.atom < s.fixed.size := by
    rw [hcurrent.size_fixed hs]
    exact hs.assumptions
  unfold search begin
  dsimp only
  split
  · rfl
  · cases ha : assume s.assumptions ⟨s.fixed, {}⟩ with
    | mk possible a =>
      cases possible with
      | false => rfl
      | true =>
        obtain ⟨a', ha', hlock⟩ : ∃ a', assume s.assumptions ⟨s.fixed, {}⟩ = (true, a') ∧
            Assignment.Lockstep s.clauses s.clauses s.fixed a a' :=
          lockstep_assume hlt (fun _ => Iff.rfl) ha
        obtain rfl : a = a' := by
          rw [ha] at ha'
          exact congrArg Prod.snd ha'
        -- both searches start from the same assignment
        have hstart : Lockstep (· = ·) s.fixed { s with work := a } { s with work := a } :=
          ⟨rfl, rfl, hlock⟩
        have hrounds := rounds_readAlike optimize (s := { s with work := a }) h rules hc hstart
          (roundLimit a.valuation)
        dsimp only
        rw [hrounds]
        cases rounds optimize (roundLimit a.valuation) { s with work := a } with
        | mk progress u => cases progress <;> rfl

omit [RandomSource ρ] in
/-- What is found for the excused constraints is read as what was found for the constraints. -/
theorem UpToDate.readAlike_excused (hcurrent : s.UpToDate) :
    s.clauses.ReadAlike s.excused.recompute.clauses := by
  have hexcuses : (s.clauses.withCompletion s.rules.completion).Excuses
      (s.clauses.withCompletion s.rules.excused.completion) := by
    refine ⟨rfl, ?_⟩
    show s.rules.excused.completion.toArray = s.rules.completion.toArray.map Clause.excuse
    rw [Rules.completion_excused, List.map_toArray]
  have halike := hexcuses.readAlike s.atoms.count
  rwa [show (s.clauses.withCompletion s.rules.completion).reindex s.atoms.count = s.clauses from
    hcurrent.1.symm] at halike

/-- A search over the excused constraints finds what a search over the constraints does. -/
theorem search_excused (hs : s.WellFormed) (hcurrent : s.UpToDate) (optimize : Bool) :
    (search optimize s.excused.recompute).1 = (search optimize s).1 := by
  have halike := hcurrent.readAlike_excused
  have hsize := Valuation.size_blank hs.atoms.count_pos
  -- the excused clauses fix the same, so the two searches start alike
  have hfix : fix s.excused.recompute.clauses ⟨Valuation.blank s.atoms.count, {}⟩ =
      fix s.clauses ⟨Valuation.blank s.atoms.count, {}⟩ := by
    refine fix_readAlike halike ?_ ?_ (not_open_top_blank s.atoms.count)
    · rw [hsize]
      exact hcurrent.indexed
    · rw [hsize, hcurrent.all_eq]
      exact hs.below
  have hcurrent' := upToDate_recompute s.excused
  have hstatus : s.excused.recompute.status = s.status :=
    hcurrent'.status_eq.trans (hfix ▸ hcurrent.status_eq.symm)
  have hfixed : s.excused.recompute.fixed = s.fixed :=
    hcurrent'.fixed_eq.trans (hfix ▸ hcurrent.fixed_eq.symm)
  have hsame : s.excused.recompute = { s with
      clauses := s.excused.recompute.clauses
      rules := s.excused.recompute.rules
      work := s.excused.recompute.work } := by
    rw [← hstatus, ← hfixed]
    rfl
  rw [hsame]
  exact search_readAlike halike _ _ hs hcurrent

/-- A search gives a model of the constraints that do not go unseen in which the assumptions are
true, or nothing if there is none. -/
theorem WellFormed.solve_seen (hs : s.WellFormed) (optimize : Bool) :
    Answers s.atoms.count (s.formula.filter fun c => ¬ c.Unseen) s.assumptions
      (s.solve optimize).1 := by
  obtain ⟨t, ht, hcurrent, hsolve, -, hatoms, -, hassumptions, hformula⟩ := hs.solve_eq optimize
  have hspec : Answers t.atoms.count t.excused.formula t.assumptions
      (search optimize t.excused.recompute).1 :=
    search_spec ht.excused.recompute (upToDate_recompute t.excused) ht.seen_excused optimize
  -- the two searches find the same, and the excused formula asks for just the clauses that are seen
  rw [search_excused ht hcurrent] at hspec
  rw [hsolve, ← hatoms, ← hformula, ← hassumptions]
  cases hfound : (search optimize t).1 with
  | none =>
    rw [hfound] at hspec
    exact fun i hi => hspec i ((isModel_excused_iff ht).2 hi)
  | some m =>
    rw [hfound] at hspec
    exact ⟨hspec.1, (isModel_excused_iff ht).1 hspec.2.1, hspec.2.2⟩

/-- **A search answers for all constraints but those that it never looks at.** It finds a model
exactly when the clauses that do not go unseen have one in which the assumptions are true. -/
theorem WellFormed.isSome_solve_iff_seen (hs : s.WellFormed) (optimize : Bool) :
    (s.solve optimize).1.isSome = true ↔
      ∃ i : Interpretation, i.IsModel (s.formula.filter fun c => ¬ c.Unseen) ∧
        i.SatisfiesAll s.assumptions :=
  (hs.solve_seen optimize).isSome_iff

/-- A rule for top whose body denies top has a completion clause that no model satisfies. -/
example :
    let s : Solver Pcg :=
      (Move.addRule Atom.top [Literal.neg Atom.top]).perform (ofConfig {} (Pcg.ofSeed 0))
    [Literal.neg Atom.top, Literal.neg Atom.top] ∈ s.formula ∧ (s.solve true).1.isSome = true := by
  decide +kernel

end Search

end Solver

end Storyworld
