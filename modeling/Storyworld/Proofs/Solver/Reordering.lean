import Storyworld.Proofs.Solver.Lockstep

namespace Storyworld

/-!
# The order of constraints does not show

Two solvers with the same constraints in another order (`Reordered`) give the same answers:
what the constraints fix is the same, and a search finds the same model, or none, and draws
as much from its source. So the same seed gives the same world, in whatever order clauses,
literals and supports were stored.
-/

/-- The same heads, each with the same supports, but for their order. -/
structure Rules.Reordered (r r' : Rules) : Prop where
  forth : ∀ e ∈ r.supports.toList, ∃ e' ∈ r'.supports.toList, e.1 = e'.1 ∧ e.2.Perm e'.2
  back : ∀ e ∈ r'.supports.toList, ∃ e' ∈ r.supports.toList, e.1 = e'.1 ∧ e.2.Perm e'.2

theorem Rules.Reordered.refl (r : Rules) : r.Reordered r :=
  ⟨fun e he => ⟨e, he, rfl, .refl _⟩, fun e he => ⟨e, he, rfl, .refl _⟩⟩

theorem Rules.Reordered.symm {r r' : Rules} (h : r.Reordered r') : r'.Reordered r :=
  ⟨h.back, h.forth⟩

/-- The same heads have the same completion clauses, but for the order of their literals. -/
theorem Rules.Reordered.rearranged_completion {r r' : Rules} (h : r.Reordered r') :
    Clause.Rearranged r.completion r'.completion := by
  have hmem : ∀ {r r' : Rules}, r.Reordered r' →
      ∀ c ∈ r.completion, ∃ d ∈ r'.completion, c.Perm d := by
    intro r r' h c hc
    obtain ⟨e, he, rfl⟩ := List.mem_map.1 hc
    obtain ⟨e', he', hhead, hperm⟩ := h.forth e he
    refine ⟨_, List.mem_map.2 ⟨e', he', rfl⟩, ?_⟩
    show (Literal.neg e.1 :: e.2).Perm (Literal.neg e'.1 :: e'.2)
    rw [hhead]
    exact hperm.cons _
  exact ⟨hmem h, hmem h.symm⟩

namespace Solver

open Assignment Action

variable {ρ : Type} {s s' : Solver ρ}

/-- The same atoms, settings, assumptions, clauses and rules, but for the order in which they
were stored, the order of the literals in each clause and that of the supports of each head. -/
structure Reordered (s s' : Solver ρ) : Prop where
  names : s.atoms.names = s'.atoms.names
  config : s.config = s'.config
  assumptions : ∀ l, l ∈ s.assumptions ↔ l ∈ s'.assumptions
  asserted : Clause.Rearranged s.clauses.asserted.toList s'.clauses.asserted.toList
  rules : s.rules.Reordered s'.rules

namespace Reordered

theorem refl (s : Solver ρ) : Reordered s s :=
  ⟨rfl, rfl, fun _ => Iff.rfl, Clause.Rearranged.refl _, Rules.Reordered.refl _⟩

theorem symm (h : Reordered s s') : Reordered s' s :=
  ⟨h.names.symm, h.config.symm, fun l => (h.assumptions l).symm, h.asserted.symm, h.rules.symm⟩

/-- Reordered solvers have the same atoms, so the same number of them. -/
theorem count (h : Reordered s s') : s.atoms.count = s'.atoms.count := congrArg Array.size h.names

/-- What is asserted and what completes the rules is the same, but for the order. -/
theorem formula (h : Reordered s s') : Clause.Rearranged s.formula s'.formula :=
  h.asserted.append h.rules.rearranged_completion

/-- Reordered solvers refuse the same literals, with the same error. -/
theorem checkKnown (h : Reordered s s') (ls : List Literal) :
    s.checkKnown ls = s'.checkKnown ls := by
  unfold Solver.checkKnown Atoms.unknown? Atoms.contains
  rw [h.names]

/-- To find out what is fixed changes none of the constraints, so solvers stay reordered. -/
theorem refresh (h : Reordered s s') : Reordered s.refresh s'.refresh := by
  obtain ⟨_, _, _, _, hs, hasserted⟩ := refresh_frame s
  obtain ⟨_, _, _, _, hs', hasserted'⟩ := refresh_frame s'
  rw [hs, hs']
  refine ⟨h.names, h.config, h.assumptions, ?_, h.rules⟩
  show Clause.Rearranged (Array.toList _) (Array.toList _)
  rw [hasserted, hasserted']
  exact h.asserted

end Reordered

/-! ### What the constraints fix -/

section Fix

variable {clauses clauses' : Clauses} {base : Valuation}

/-- The units are about the atoms of the valuation. -/
theorem units_lt (hbelow : Clause.Below base.size clauses.all) :
    ∀ l ∈ units clauses, l.atom < base.size :=
  fun l hl => hbelow _ (mem_units.1 hl) l List.mem_cons_self

/-- What is fixed is found by steps that keep the trail in step. -/
theorem inStep_fix (hindexed : clauses.Indexed base.size)
    (hbelow : Clause.Below base.size clauses.all) : InStep base (fix clauses ⟨base, {}⟩).2 := by
  -- unit clauses are assumed first, and propagation goes on from there
  have hassume := (inStep_empty base).assume (units_lt hbelow)
  unfold fix
  split
  · exact inStep_empty base
  · split
    · rename_i a ha
      rwa [ha] at hassume
    · rename_i a ha
      rw [ha] at hassume
      have hpropagate := hassume.propagate hindexed hbelow
      split
      · rename_i key b hb
        rwa [hb] at hpropagate
      · rename_i b hb
        rwa [hb] at hpropagate

/-- What some clauses fix, they fix in any order. -/
theorem fix_rearranged (hc : Comparable clauses clauses' base)
    (hempty : clauses'.containsEmpty = true → clauses.containsEmpty = true)
    (h : (fix clauses ⟨base, {}⟩).1 = true) :
    (fix clauses' ⟨base, {}⟩).1 = true ∧
      (fix clauses ⟨base, {}⟩).2.valuation = (fix clauses' ⟨base, {}⟩).2.valuation := by
  have hunits : ∀ l, l ∈ units clauses ↔ l ∈ units clauses' := fun l => by
    rw [mem_units, mem_units]
    exact ⟨hc.same.mem_singleton, hc.same.symm.mem_singleton⟩
  unfold fix at h ⊢
  split at h
  · cases h
  · rename_i hne
    rw [if_neg hne, if_neg fun h => hne (hempty h)]
    split at h
    · cases h
    · rename_i a ha
      -- the units come in another order, but come to the same valuation
      obtain ⟨a', ha', hlock⟩ : ∃ a', assume (units clauses') ⟨base, {}⟩ = (true, a') ∧
          Assignment.Lockstep clauses clauses' base a a' :=
        lockstep_assume (units_lt hc.below) hunits ha
      rw [ha']
      dsimp only
      split at h
      · cases h
      · rename_i b hb
        obtain ⟨b', hb', habreast, hperm, -⟩ := hlock.propagate hc hb
        rw [hb']
        exact ⟨rfl, valuation_eq_of_perm habreast.inStep habreast.inStep' hperm⟩

end Fix

/-! ### A solver whose fixed valuation is up to date -/

/-- A solver that is up to date has the completion clauses beside the asserted ones. -/
theorem UpToDate.all_eq (hcurrent : s.UpToDate) : s.clauses.all = s.formula := by
  rw [hcurrent.1]
  rfl

/-- The status of a solver that is up to date is what fixing the constraints came to. -/
theorem UpToDate.status_eq (hcurrent : s.UpToDate) :
    s.status = if (fix s.clauses ⟨Valuation.blank s.atoms.count, {}⟩).1 = true
      then .consistent else .inconsistent := by
  obtain ⟨hclauses, -, hstatus⟩ := hcurrent
  rw [hstatus, hclauses]
  rfl

/-- What is taken to be fixed is what fixing the constraints came to. -/
theorem UpToDate.fixed_eq (hcurrent : s.UpToDate) :
    s.fixed = (fix s.clauses ⟨Valuation.blank s.atoms.count, {}⟩).2.valuation := by
  obtain ⟨hclauses, hfixed, -⟩ := hcurrent
  rw [hfixed, hclauses]
  rfl

/-- The clauses of a solver that is up to date are found by their literals. -/
theorem UpToDate.indexed (hcurrent : s.UpToDate) : s.clauses.Indexed s.atoms.count := by
  rw [hcurrent.1]
  exact Clauses.indexed_reindex _ _

/-- What is fixed is what a trail makes of the blank valuation. -/
theorem UpToDate.inStep (hs : s.WellFormed) (hcurrent : s.UpToDate) :
    InStep (Valuation.blank s.atoms.count)
      (fix s.clauses ⟨Valuation.blank s.atoms.count, {}⟩).2 := by
  have hsize := Valuation.size_blank hs.atoms.count_pos
  refine inStep_fix ?_ ?_
  · rw [hsize]
    exact hcurrent.indexed
  · rw [hsize, hcurrent.all_eq]
    exact hs.below

/-- Every atom has its place in what is fixed. -/
theorem UpToDate.size_fixed (hs : s.WellFormed) (hcurrent : s.UpToDate) :
    s.fixed.size = s.atoms.count := by
  rw [hcurrent.fixed_eq, (hcurrent.inStep hs).size]
  exact Valuation.size_blank hs.atoms.count_pos

/-- Top has its value from the start. -/
theorem UpToDate.not_open_top (hs : s.WellFormed) (hcurrent : s.UpToDate) :
    ¬ s.fixed.Open Atom.top := by
  intro hopen
  have hnone := hopen.value?
  rw [hcurrent.fixed_eq,
    (hcurrent.inStep hs).value?_of_base (Valuation.value?_blank_top s.atoms.count)] at hnone
  cases hnone

/-- The clauses of two reordered solvers can be compared from any valuation of their atoms. -/
theorem Reordered.comparable (h : Reordered s s') (hs : s.WellFormed) (hs' : s'.WellFormed)
    (hcurrent : s.UpToDate) (hcurrent' : s'.UpToDate) {base : Valuation}
    (hsize : base.size = s.atoms.count) (htop : ¬ base.Open Atom.top) :
    Comparable s.clauses s'.clauses base where
  same := by
    -- up to date, the clauses are just those of the formula
    rw [hcurrent.all_eq, hcurrent'.all_eq]
    exact h.formula
  indexed := hsize ▸ hcurrent.indexed
  indexed' := by
    rw [hsize, h.count]
    exact hcurrent'.indexed
  below := by
    rw [hsize, hcurrent.all_eq]
    exact hs.below
  below' := by
    rw [hsize, h.count, hcurrent'.all_eq]
    exact hs'.below
  top := htop

/-- The empty clause is there in both solvers or in neither. -/
theorem Reordered.containsEmpty (h : Reordered s s') :
    s'.clauses.containsEmpty = true → s.clauses.containsEmpty = true := by
  rw [containsEmpty_iff, containsEmpty_iff]
  exact h.formula.symm.mem_nil

/-- Where one of two reordered solvers is consistent the other is too, and the same is fixed in
both. -/
theorem Reordered.fix (h : Reordered s s') (hs : s.WellFormed) (hs' : s'.WellFormed)
    (hcurrent : s.UpToDate) (hcurrent' : s'.UpToDate) (hstatus : s.status = .consistent) :
    s'.status = .consistent ∧ s.fixed = s'.fixed := by
  have hc := h.comparable hs hs' hcurrent hcurrent' (Valuation.size_blank hs.atoms.count_pos)
    (not_open_top_blank s.atoms.count)
  rw [hcurrent.status_eq] at hstatus
  rw [hcurrent'.status_eq, hcurrent.fixed_eq, hcurrent'.fixed_eq, ← h.count]
  by_cases hok : (Solver.fix s.clauses ⟨Valuation.blank s.atoms.count, {}⟩).1 = true
  · obtain ⟨hok', hval⟩ := fix_rearranged hc h.containsEmpty hok
    exact ⟨if_pos hok', hval⟩
  · rw [if_neg hok] at hstatus
    cases hstatus

/-- A solver that is up to date does not have to find out again. -/
theorem UpToDate.status_ne_stale (hcurrent : s.UpToDate) : s.status ≠ .stale := by
  rw [hcurrent.status_eq]
  split <;> nofun

/-- Propagation alone shows the same of both solvers. -/
theorem Reordered.status (h : Reordered s s') (hs : s.WellFormed) (hs' : s'.WellFormed)
    (hcurrent : s.UpToDate) (hcurrent' : s'.UpToDate) : s.status = s'.status := by
  -- what one fixes the other fixes, and this in both directions
  have hforth := h.fix hs hs' hcurrent hcurrent'
  have hback := h.symm.fix hs' hs hcurrent' hcurrent
  cases hstatus : s.status with
  | stale => exact absurd hstatus hcurrent.status_ne_stale
  | consistent => exact (hforth hstatus).1.symm
  | inconsistent =>
    cases hstatus' : s'.status with
    | stale => exact absurd hstatus' hcurrent'.status_ne_stale
    | consistent =>
      rw [(hback hstatus').1] at hstatus
      cases hstatus
    | inconsistent => rfl

/-- The constraints fix the same value of an atom in both. -/
theorem Reordered.answer_fixedValue (h : Reordered s s') (hs : s.WellFormed)
    (hs' : s'.WellFormed) (a : Atom) : answer (fixedValue a) s = answer (fixedValue a) s' := by
  have hstatus := h.refresh.status hs.refresh.1 hs'.refresh.1 hs.refresh.2 hs'.refresh.2
  have hfix := h.refresh.fix hs.refresh.1 hs'.refresh.1 hs.refresh.2 hs'.refresh.2
  unfold answer fixedValue
  rw [h.checkKnown]
  cases s'.checkKnown [Literal.pos a] with
  | error e => rfl
  | ok _ =>
    show Except.ok _ = Except.ok _
    congr 1
    rw [hstatus]
    cases hs'' : s'.refresh.status with
    | stale => exact absurd hs'' hs'.refresh.2.status_ne_stale
    | inconsistent => rfl
    | consistent =>
      rw [hs''] at hstatus
      -- consistent, and the two fix the same values
      rw [if_neg (by nofun), if_neg (by nofun), (hfix hstatus).2]

/-! ### The search -/

/-- What one of two reordered solvers can assume, the other can, and both begin in lockstep. -/
theorem Reordered.begins (h : Reordered s s') (hs : s.WellFormed) (hcurrent : s.UpToDate)
    (hfixed : s.fixed = s'.fixed) {a : Assignment}
    (ha : assume s.assumptions ⟨s.fixed, {}⟩ = (true, a)) :
    ∃ a', assume s'.assumptions ⟨s'.fixed, {}⟩ = (true, a') ∧
      Assignment.Lockstep s.clauses s'.clauses s.fixed a a' := by
  have hlt : ∀ l ∈ s.assumptions, l.atom < s.fixed.size := by
    rw [hcurrent.size_fixed hs]
    exact hs.assumptions
  rw [← hfixed]
  exact lockstep_assume hlt h.assumptions ha

variable [RandomSource ρ] {alike : ρ → ρ → Prop} {optimize : Bool}

/-- A search ends at once when the assumptions cannot be made. -/
theorem search_of_not_begin (optimize : Bool) (hok : s.status = .consistent)
    (ha : (assume s.assumptions ⟨s.fixed, {}⟩).1 = false) :
    (Solver.search optimize s).1 = none ∧ (Solver.search optimize s).2.source = s.source := by
  obtain ⟨a, ha⟩ : ∃ a, assume s.assumptions ⟨s.fixed, {}⟩ = (false, a) := ⟨_, Prod.ext ha rfl⟩
  rw [Solver.search, if_neg (by rw [hok]; nofun), begin, ha]
  exact ⟨rfl, rfl⟩

/-- Searches that begin in lockstep find the same model, or none. -/
theorem Reordered.ends (h : Reordered s s') {a a' : Assignment}
    (hsource : alike s.source s'.source) (hsteers : Steers optimize s.config alike)
    (hc : Comparable s.clauses s'.clauses s.fixed) (hok : s.status = .consistent)
    (hok' : s'.status = .consistent) (ha : assume s.assumptions ⟨s.fixed, {}⟩ = (true, a))
    (ha' : assume s'.assumptions ⟨s'.fixed, {}⟩ = (true, a'))
    (hlock : Assignment.Lockstep s.clauses s'.clauses s.fixed a a') :
    (Solver.search optimize s).1 = (Solver.search optimize s').1 ∧
      alike (Solver.search optimize s).2.source (Solver.search optimize s').2.source := by
  have hstart : Lockstep alike s.fixed { s with work := a } { s' with work := a' } :=
    ⟨h.config, hsource, hlock⟩
  have hrounds := hstart.rounds hsteers hc (roundLimit a.valuation)
  obtain ⟨_, _, _, hcont⟩ :=
    rounds_continues optimize (roundLimit a.valuation) { s with work := a }
  obtain ⟨_, _, _, hcont'⟩ :=
    rounds_continues optimize (roundLimit a.valuation) { s' with work := a' }
  unfold Solver.search begin
  rw [if_neg (by rw [hok]; nofun), if_neg (by rw [hok']; nofun), ha, ha']
  dsimp only
  rw [← valuation_eq_of_perm hlock.abreast.inStep hlock.abreast.inStep' hlock.trail]
  cases hr : rounds optimize (roundLimit a.valuation) { s with work := a } with
  | mk progress t =>
    cases hr' : rounds optimize (roundLimit a.valuation) { s' with work := a' } with
    | mk progress' t' =>
      rw [hr, hr'] at hrounds
      rw [hr] at hcont
      rw [hr'] at hcont'
      obtain rfl : progress = progress' := hrounds.progress
      cases progress with
      | searching => exact ⟨rfl, hrounds.source⟩
      | exhausted => exact ⟨rfl, hrounds.source⟩
      | found =>
        -- the atoms are the same, and so is the value of each
        have hcount : t.atoms.count = t'.atoms.count := by
          rw [show t = _ from hcont, show t' = _ from hcont']
          exact h.count
        refine ⟨?_, hrounds.source⟩
        show some _ = some _
        rw [hrounds.valuation rfl, hcount]

/-- A search in one of two reordered solvers finds what it does in the other, and draws as much. -/
theorem Reordered.search (h : Reordered s s') (hs : s.WellFormed) (hs' : s'.WellFormed)
    (hcurrent : s.UpToDate) (hcurrent' : s'.UpToDate) (hsource : alike s.source s'.source)
    (hsteers : Steers optimize s.config alike) :
    (search optimize s).1 = (search optimize s').1 ∧
      alike (search optimize s).2.source (search optimize s').2.source := by
  have hstatus := h.status hs hs' hcurrent hcurrent'
  cases hcase : s.status with
  | stale => exact absurd hcase hcurrent.status_ne_stale
  | inconsistent =>
    unfold Solver.search
    rw [if_pos hcase, if_pos (hstatus ▸ hcase)]
    exact ⟨rfl, hsource⟩
  | consistent =>
    obtain ⟨hok', hfixed⟩ := h.fix hs hs' hcurrent hcurrent' hcase
    have hc := h.comparable hs hs' hcurrent hcurrent' (hcurrent.size_fixed hs)
      (hcurrent.not_open_top hs)
    cases ha : (assume s.assumptions ⟨s.fixed, {}⟩).1 with
    | true =>
      have hbegin : assume s.assumptions ⟨s.fixed, {}⟩ = (true, _) := Prod.ext ha rfl
      obtain ⟨a', ha', hlock⟩ := h.begins hs hcurrent hfixed hbegin
      exact h.ends hsource hsteers hc hcase hok' hbegin ha' hlock
    | false =>
      have ha' : (assume s'.assumptions ⟨s'.fixed, {}⟩).1 = false := by
        refine Bool.eq_false_iff.2 fun htrue => ?_
        -- what the one can assume the other can
        obtain ⟨b, hb, -⟩ := h.symm.begins hs' hcurrent' hfixed.symm (Prod.ext htrue rfl)
        rw [hb] at ha
        cases ha
      obtain ⟨hnone, hleft⟩ := search_of_not_begin optimize hcase ha
      obtain ⟨hnone', hleft'⟩ := search_of_not_begin optimize hok' ha'
      rw [hnone, hnone', hleft, hleft']
      exact ⟨rfl, hsource⟩

/-- Two reordered solvers find the same model, as long as their sources lead to the same
decisions. -/
theorem Reordered.solve (h : Reordered s s') (hs : s.WellFormed) (hs' : s'.WellFormed)
    (hsource : alike s.source s'.source) (hsteers : Steers optimize s.config alike) :
    (s.solve optimize).1 = (s'.solve optimize).1 ∧
      alike (s.solve optimize).2.source (s'.solve optimize).2.source := by
  -- to count the search first changes nothing that it depends on
  let t : Solver ρ := { s with counters.solves := s.counters.solves + 1 }
  let t' : Solver ρ := { s' with counters.solves := s'.counters.solves + 1 }
  have hcounted : Reordered t t' := ⟨h.names, h.config, h.assumptions, h.asserted, h.rules⟩
  have ht := (hs.continues (t := t) ⟨t.counters, s.work, s.source, rfl⟩).refresh
  have ht' := (hs'.continues (t := t') ⟨t'.counters, s'.work, s'.source, rfl⟩).refresh
  obtain ⟨_, _, _, _, hframe, -⟩ := refresh_frame t
  obtain ⟨_, _, _, _, hframe', -⟩ := refresh_frame t'
  have hsource : alike t.refresh.source t'.refresh.source := by
    rw [hframe, hframe']
    exact hsource
  have hsteers : Steers optimize t.refresh.config alike := by
    rw [hframe]
    exact hsteers
  exact hcounted.refresh.search ht.1 ht'.1 ht.2 ht'.2 hsource hsteers

/-- **The order of constraints never shows in a solve.** Take two solvers that can be reached, with
the same constraints and assumptions in another order and the same source. A refresh finds the
same of both, the constraints fix the same values, and a search gives the same model, if any, and
leaves the source in the same state. -/
theorem Reachable.solve_reordered (hs : s.Reachable) (hs' : s'.Reachable) (h : Reordered s s')
    (hsource : s.source = s'.source) :
    s.refresh.status = s'.refresh.status ∧
      (∀ a, answer (fixedValue a) s = answer (fixedValue a) s') ∧
      ∀ optimize, (s.solve optimize).1 = (s'.solve optimize).1 ∧
        (s.solve optimize).2.source = (s'.solve optimize).2.source := by
  have hwf := hs.wellFormed
  have hwf' := hs'.wellFormed
  refine ⟨?_, h.answer_fixedValue hwf hwf', fun optimize => ?_⟩
  · exact h.refresh.status hwf.refresh.1 hwf'.refresh.1 hwf.refresh.2 hwf'.refresh.2
  · exact h.solve hwf hwf' hsource (steers_eq optimize s.config)

/-- The clauses, the literals of one of them and the rules for a head stand in another order. -/
theorem solve_reordered_rules :
    ∃ s s' : Solver Pcg, s.clauses.asserted ≠ s'.clauses.asserted ∧ s.Reachable ∧ s'.Reachable ∧
      Reordered s s' ∧ s.source = s'.source ∧ s.refresh.status = s'.refresh.status ∧
      (∀ a, answer (fixedValue a) s = answer (fixedValue a) s') ∧
      ∀ optimize, (s.solve optimize).1 = (s'.solve optimize).1 ∧
        (s.solve optimize).2.source = (s'.solve optimize).2.source := by
  have hstart := (Reachable.start {} (Pcg.ofSeed 0)).moves
    [.freshAtom none, .freshAtom none, .freshAtom none]
  have hs := hstart.moves [.addClause [Literal.neg 1, Literal.pos 3],
    .addClause [Literal.pos 1, Literal.pos 2], .addRule 1 [Literal.pos 2],
    .addRule 1 [Literal.pos 3]]
  have hs' := hstart.moves [.addClause [Literal.pos 2, Literal.pos 1], .addRule 1 [Literal.pos 3],
    .addRule 1 [Literal.pos 2], .addClause [Literal.pos 3, Literal.neg 1]]
  refine ⟨_, _, ?differ, hs, hs', ?same, ?source, hs.solve_reordered hs' ?same ?source⟩
  case differ => decide +kernel
  case same =>
    exact ⟨by decide +kernel, rfl, fun _ => Iff.rfl, ⟨by decide +kernel, by decide +kernel⟩,
      ⟨by decide +kernel, by decide +kernel⟩⟩
  case source => decide +kernel

end Solver

end Storyworld
