import Storyworld.Proofs.Solver.Invariant

namespace Storyworld

/-!
# What the constraints fix

Propagation from the unit clauses alone either shows that there is no model, or ends in a
valuation that every model agrees with and that makes no clause false: `Settles`. This is
where a search begins, so it has to miss no conflict at its very start. A clause that is
false while only top has a value cannot be found by propagation, which looks at clauses
through the literals it makes true. Such a clause is empty or denies top, and what is empty
or has one literal is looked at before. So only a clause that denies top more than once is
missed (`Clause.Unseen`); none is there as long as no rule has top as its head.
-/

/-- Every literal of the clause denies top, and there are two of them or more. -/
def Clause.Unseen (c : Clause) : Prop := 2 ≤ c.length ∧ ∀ l ∈ c, l = Literal.neg Atom.top

instance : DecidablePred Clause.Unseen := fun c =>
  inferInstanceAs (Decidable (2 ≤ c.length ∧ ∀ l ∈ c, l = Literal.neg Atom.top))

namespace Valuation

/-- Top is true from the start. -/
theorem value?_blank_top (count : Nat) : (blank count).value? Atom.top = some true := by
  rw [value?, blank, Array.getElem?_append_left (by decide)]
  rfl

/-- Nothing else has a value at the start. -/
theorem value?_blank_of_ne {count : Nat} {a : Atom} (h : a ≠ Atom.top) :
    (blank count).value? a = none := by
  have hpos : 1 ≤ a := Nat.one_le_iff_ne_zero.2 h
  rw [value?, blank, Array.getElem?_append_right hpos, Array.getElem?_replicate]
  split <;> rfl

/-- Whatever has a value at the start is top, and is true. -/
theorem value?_blank_eq_some {count : Nat} {a : Atom} {b : Bool}
    (h : (blank count).value? a = some b) : a = Atom.top ∧ b = true := by
  by_cases ha : a = Atom.top
  · rw [ha, value?_blank_top] at h
    exact ⟨ha, (Option.some.inj h).symm⟩
  · rw [value?_blank_of_ne ha] at h
    cases h

end Valuation

namespace Clause

/-- Every literal of a clause that is false at the start denies top. -/
theorem eq_neg_top_of_falsified {c : Clause} {count : Nat}
    (h : c.standing (Valuation.blank count) = .falsified) :
    ∀ l ∈ c, l = Literal.neg Atom.top := by
  intro l hl
  have hval := standing_eq_falsified_iff.1 h l hl
  obtain ⟨hatom, hpos⟩ := Valuation.value?_blank_eq_some hval
  cases l with
  | mk a p =>
    cases p with
    | true => cases hpos
    | false => exact congrArg (Literal.mk · false) hatom

/-- A clause that is false at the start is empty or has one literal, unless it is unseen. -/
theorem eq_nil_or_singleton_of_falsified {c : Clause} {count : Nat}
    (h : c.standing (Valuation.blank count) = .falsified) (hseen : ¬ c.Unseen) :
    c = [] ∨ ∃ l, c = [l] := by
  match c with
  | [] => exact Or.inl rfl
  | [l] => exact Or.inr ⟨l, rfl⟩
  | l :: m :: c => exact absurd ⟨by simp, eq_neg_top_of_falsified h⟩ hseen

theorem not_unseen_singleton (l : Literal) : ¬ Unseen [l] := fun h => Nat.not_succ_le_self 1 h.1

/-- A clause in order does not hold the same literal twice. -/
theorem Increasing.not_unseen {c : Clause} (h : c.Increasing) : ¬ c.Unseen := by
  rintro ⟨hlen, hneg⟩
  match c with
  | [] => simp at hlen
  | [l] => simp at hlen
  | l :: m :: c =>
    have hlt : l.index < m.index := (List.pairwise_cons.1 h).1 m List.mem_cons_self
    rw [hneg l List.mem_cons_self, hneg m (by simp)] at hlt
    exact absurd hlt (Nat.lt_irrefl _)

end Clause

namespace Assignment

variable {clauses : Clauses} {base : Valuation} {a : Assignment} {l : Literal}

/-! ### Values at the start of a search -/

/-- What had a value at the start has it still. -/
theorem InStep.value?_of_base (h : InStep base a) {x : Atom} {b : Bool}
    (hx : base.value? x = some b) : a.valuation.value? x = some b := by
  -- what is on the trail was open, and `x` has a value
  have hmem : x ∉ a.trail.toList.map Literal.atom := by
    intro hmem
    obtain ⟨m, hm, rfl⟩ := List.mem_map.1 hmem
    have hnone := (h.fits.isOpen m hm).value?
    rw [hx] at hnone
    cases hnone
  rw [h.valuation_eq, Valuation.value?_assignAll_of_notMem hmem, hx]

/-- What is on the trail is true. -/
theorem InStep.value?_of_mem (h : InStep base a) (hl : l ∈ a.trail.toList) :
    a.valuation.value? l.atom = some l.positive := by
  rw [h.valuation_eq]
  exact Valuation.value?_assignAll_of_mem h.fits hl

/-- A clause that is false was so at the start, or is so through a literal on the trail. -/
theorem InStep.falsified_cases (h : InStep base a) {c : Clause}
    (hc : c.standing a.valuation = .falsified) :
    c.standing base = .falsified ∨ ∃ m ∈ c, m.negate ∈ a.trail.toList := by
  by_cases hex : ∃ m ∈ c, m.negate ∈ a.trail.toList
  · exact Or.inr hex
  · refine Or.inl (Clause.standing_eq_falsified_iff.2 fun m hm => ?_)
    have hval := Clause.standing_eq_falsified_iff.1 hc m hm
    rw [h.valuation_eq] at hval
    rcases Valuation.value?_assignAll_cases hval with hbase | hmem
    · exact hbase
    · exact absurd ⟨m, hm, hmem⟩ hex

/-- As long as nothing has been propagated, a clause that has become false waits to be found. -/
theorem InStep.alert (h : InStep base a) (hp : a.trail.propagated = 0)
    (hbase : ∀ c ∈ clauses.all, c.standing base = .falsified →
      c.standing a.valuation ≠ .falsified) : Alert clauses a := by
  intro c hc hfalse
  rcases h.falsified_cases hfalse with hold | ⟨m, hm, hmem⟩
  · exact absurd hfalse (hbase c hc hold)
  · refine ⟨m, hm, ?_⟩
    rw [Trail.waiting, hp]
    exact hmem

/-- What has been assumed so far holds in each interpretation in which all assumptions do. -/
theorem satisfiesAll_assume {i : Interpretation} {ls : List Literal} (hls : i.SatisfiesAll ls) :
    i.SatisfiesAll (assume ls ⟨base, {}⟩).2.trail.toList := by
  intro m hm
  rcases mem_toList_assume hm with hm | hm
  · cases hm
  · exact hls m hm

/-- Assumptions that are refused cannot all hold in an interpretation that agrees with the
valuation they start from. -/
theorem not_satisfiesAll_of_assume {i : Interpretation} {ls : List Literal}
    (hin : ∀ m ∈ ls, m.atom < base.size) (hi : i.Extends base)
    (hf : (assume ls ⟨base, {}⟩).1 = false) : ¬ i.SatisfiesAll ls := by
  intro hls
  have hstep := (inStep_empty base).assume hin
  obtain ⟨m, hm, hval⟩ := value?_of_assume_eq_false hf
  -- what was assumed before the refusal holds, and denies the literal that was refused
  have hext : i.Extends (assume ls ⟨base, {}⟩).2.valuation := by
    rw [hstep.valuation_eq]
    exact Interpretation.extends_assignAll hi (satisfiesAll_assume hls)
  have hfalse := hext _ _ hval
  have htrue := hls m hm
  rw [Interpretation.Satisfies, hfalse] at htrue
  exact (Bool.not_eq_self _).1 htrue

/-- Propagation before any decision: a conflict shows that there is no candidate, and without
one every candidate agrees with the valuation and no clause is false. -/
theorem propagate_undecided {candidate : Interpretation → Prop}
    (hspace : SearchSpace clauses base candidate) (h : InStep base a)
    (hds : a.trail.decisions = []) (hjust : ∀ i, candidate i → i.SatisfiesAll a.trail.toList)
    (halert : Alert clauses a) :
    (∃ key, (propagate clauses a).1 = some key ∧ ∀ i, ¬ candidate i) ∨
      (propagate clauses a).1 = none ∧
        (∀ i, candidate i → i.Extends (propagate clauses a).2.valuation) ∧
        ∀ c ∈ clauses.all, c.standing (propagate clauses a).2.valuation ≠ .falsified := by
  have hjust : Justified candidate a := fun i hi n _ l hl => hjust i hi l (List.mem_of_mem_take hl)
  have hjust := hjust.propagate hspace h
  have hstep := h.propagate hspace.indexed hspace.below
  have hds : (propagate clauses a).2.trail.decisions = [] :=
    (decisions_propagate hspace.indexed).trans hds
  cases hb : (propagate clauses a).1 with
  | some key =>
    obtain ⟨c, hc, hfalse⟩ := falsified_of_propagate hspace.indexed (Prod.ext hb rfl)
    -- without decisions nothing can be chosen otherwise
    refine Or.inl ⟨key, rfl, fun i hi => hjust.not_chosen hspace hstep hc hfalse hi fun d hd => ?_⟩
    rw [hds] at hd
    cases hd
  | none =>
    refine Or.inr ⟨rfl, fun i hi => hjust.extends hspace hstep hi fun d hd => ?_, ?_⟩
    · rw [hds] at hd
      cases hd
    · exact not_falsified_of_propagate halert h hspace.indexed hspace.below (Prod.ext hb rfl)

end Assignment

/-! ### The fixed valuation -/

/-- The valuation is of that size, top is true in it, every model of the clauses agrees with
it, and it makes no clause false. -/
structure Settles (cs : List Clause) (count : Nat) (v : Valuation) : Prop where
  size : v.size = count
  top : v.value? Atom.top = some true
  entailed : ∀ i : Interpretation, i.IsModel cs → i.Extends v
  standing : ∀ c ∈ cs, c.standing v ≠ .falsified

namespace Solver

open Assignment

/-- The units are the literals of the clauses with one literal. -/
theorem mem_units {clauses : Clauses} {l : Literal} : l ∈ units clauses ↔ [l] ∈ clauses.all := by
  rw [units, List.mem_filterMap]
  constructor
  · rintro ⟨c, hc, he⟩
    split at he
    · cases he
      exact hc
    · cases he
  · intro h
    exact ⟨[l], h, rfl⟩

section Fix

variable {clauses : Clauses} {count : Nat}

/-- Top is not open at the start. -/
theorem not_open_top_blank (count : Nat) : ¬ (Valuation.blank count).Open Atom.top := by
  intro h
  have hnone := h.value?
  rw [Valuation.value?_blank_top] at hnone
  cases hnone

/-- Every interpretation in which top is true agrees with the start. -/
theorem extends_blank {i : Interpretation} (h : i Atom.top = true) (count : Nat) :
    i.Extends (Valuation.blank count) := by
  intro a b hab
  obtain ⟨rfl, rfl⟩ := Valuation.value?_blank_eq_some hab
  exact h

/-- From the start the candidates are the models. -/
theorem searchSpace_blank (hpos : 0 < count) (hindexed : clauses.Indexed count)
    (hbelow : Clause.Below count clauses.all) :
    SearchSpace clauses (Valuation.blank count) fun i => i.IsModel clauses.all := by
  have hsize : (Valuation.blank count).size = count := Valuation.size_blank hpos
  exact
    { indexed := by rwa [hsize]
      below := by rwa [hsize]
      top := not_open_top_blank count
      isTrue := fun i hi => hi.2
      agrees := fun i hi => extends_blank hi.1 count }

/-- The units are true in every model. -/
theorem satisfiesAll_units {i : Interpretation} (hi : i.IsModel clauses.all) :
    i.SatisfiesAll (units clauses) := by
  intro l hl
  obtain ⟨m, hm, hsat⟩ := hi.2 _ (mem_units.1 hl)
  rwa [List.mem_singleton.1 hm] at hsat

/-- Once the unit clauses have been made true, a clause that is false was not so before, or else it
is empty. -/
theorem alert_of_units {a : Assignment} (h : InStep (Valuation.blank count) a)
    (hp : a.trail.propagated = 0)
    (hvals : ∀ l ∈ units clauses, a.valuation.value? l.atom = some l.positive)
    (hempty : [] ∉ clauses.all) (hseen : ∀ c ∈ clauses.all, ¬ c.Unseen) : Alert clauses a := by
  refine h.alert hp fun c hc hfalse hfalse' => ?_
  rcases Clause.eq_nil_or_singleton_of_falsified hfalse (hseen c hc) with rfl | ⟨l, rfl⟩
  · exact hempty hc
  · -- the literal of a unit clause is true by now
    have hval := hvals l (mem_units.2 hc)
    rw [Clause.standing_eq_falsified_iff] at hfalse'
    rw [hfalse' l List.mem_cons_self] at hval
    exact (Bool.not_eq_self _).1 (Option.some.inj hval)

/-- **What propagation from the unit clauses finds.** Either the valuation it ends in settles
the clauses, or they have no model. -/
theorem fix_spec (hpos : 0 < count) (hindexed : clauses.Indexed count)
    (hbelow : Clause.Below count clauses.all)
    (hempty : clauses.containsEmpty = true ↔ [] ∈ clauses.all)
    (hseen : ∀ c ∈ clauses.all, ¬ c.Unseen) :
    (fix clauses ⟨Valuation.blank count, {}⟩).1 = true ∧
        Settles clauses.all count (fix clauses ⟨Valuation.blank count, {}⟩).2.valuation ∨
      (fix clauses ⟨Valuation.blank count, {}⟩).1 = false ∧
        ∀ i : Interpretation, ¬ i.IsModel clauses.all := by
  have hspace := searchSpace_blank hpos hindexed hbelow
  have hsize : (Valuation.blank count).size = count := Valuation.size_blank hpos
  have hunits : ∀ l ∈ units clauses, l.atom < (Valuation.blank count).size := by
    intro l hl
    rw [hsize]
    exact hbelow _ (mem_units.1 hl) l (List.mem_singleton.2 rfl)
  unfold fix
  split
  · rename_i hc
    refine Or.inr ⟨rfl, fun i hi => ?_⟩
    -- the empty clause is among the clauses
    obtain ⟨m, hm, -⟩ := hi.2 [] (hempty.1 hc)
    cases hm
  · rename_i hc
    have hstep := (inStep_empty (Valuation.blank count)).assume hunits
    have hds := decisions_assume (units clauses) ⟨Valuation.blank count, {}⟩
    have hprop := propagated_assume (units clauses) ⟨Valuation.blank count, {}⟩
    have hjust : ∀ i : Interpretation, i.IsModel clauses.all → i.SatisfiesAll
        (assume (units clauses) ⟨Valuation.blank count, {}⟩).2.trail.toList :=
      fun i hi => satisfiesAll_assume (satisfiesAll_units hi)
    split
    · rename_i a ha
      refine Or.inr ⟨rfl, fun i hi => ?_⟩
      -- two unit clauses contradict each other, or one denies top
      exact not_satisfiesAll_of_assume hunits (extends_blank hi.1 count) (by rw [ha])
        (satisfiesAll_units hi)
    · rename_i a ha
      -- the unit clauses are true, and propagation goes on from there
      have hvals := value?_of_assume_eq_true (inStep_empty _) hunits (by rw [ha])
      rw [ha] at hstep hds hprop hjust hvals
      have halert : Alert clauses a :=
        alert_of_units hstep hprop hvals (fun hnil => hc (hempty.2 hnil)) hseen
      rcases propagate_undecided hspace hstep hds hjust halert with
        ⟨key, hb, hnone⟩ | ⟨hb, hext, hnone⟩
      · rw [show a.propagate clauses = (some key, _) from Prod.ext hb rfl]
        exact Or.inr ⟨rfl, hnone⟩
      · have hstep' := hstep.propagate hspace.indexed hspace.below
        rw [show a.propagate clauses = (none, _) from Prod.ext hb rfl]
        exact Or.inl ⟨rfl, hstep'.size.trans hsize,
          hstep'.value?_of_base (Valuation.value?_blank_top count), hext, hnone⟩

end Fix

/-! ### The fixed valuation of a solver -/

variable {ρ : Type} {s : Solver ρ}

/-- An asserted clause is canonical, so it does not hold the negation of top twice. -/
theorem WellFormed.seen_asserted (hs : s.WellFormed) :
    ∀ c ∈ s.clauses.asserted.toList, ¬ c.Unseen :=
  fun c hc => (hs.clauses c (Array.mem_toList_iff.1 hc)).1.not_unseen

/-- No constraint goes unseen as long as top has no supports, or some that do not deny top. -/
theorem WellFormed.seen (hs : s.WellFormed)
    (htop : s.rules.supportsOf Atom.top = [] ∨
      ∃ l ∈ s.rules.supportsOf Atom.top, l ≠ Literal.neg Atom.top) :
    ∀ c ∈ s.formula, ¬ c.Unseen := by
  intro c hc
  rcases List.mem_append.1 hc with hc | hc
  · exact hs.seen_asserted c hc
  · obtain ⟨head, -, rfl⟩ := Rules.mem_completion.1 hc
    -- a completion clause begins with its head, so it denies top only where top is a head
    rintro ⟨hlen, hneg⟩
    have hhead : head = Atom.top := congrArg Literal.atom (hneg _ List.mem_cons_self)
    subst hhead
    rcases htop with hnil | ⟨l, hl, hne⟩
    · rw [hnil] at hlen
      exact Nat.not_succ_le_self 1 hlen
    · exact hne (hneg l (List.mem_cons_of_mem _ hl))

/-- Whether there is an empty clause is found out without a look at them all. -/
theorem containsEmpty_iff (s : Solver ρ) :
    s.clauses.containsEmpty = true ↔ [] ∈ s.formula := by
  rw [Clauses.containsEmpty, decide_eq_true_iff, s.clauses.known_iff, formula, List.mem_append,
    Array.mem_toList_iff]
  refine (or_iff_left fun h => ?_).symm
  obtain ⟨head, -, he⟩ := Rules.mem_completion.1 h
  cases he

/-- To find out what is fixed comes to a valuation that settles the constraints, or shows that there
is no model. -/
theorem WellFormed.recompute_spec (hs : s.WellFormed) (hseen : ∀ c ∈ s.formula, ¬ c.Unseen) :
    s.recompute.status = .consistent ∧ Settles s.formula s.atoms.count s.recompute.fixed ∨
      s.recompute.status = .inconsistent ∧ ∀ i : Interpretation, ¬ i.IsModel s.formula := by
  let clauses := (s.clauses.withCompletion s.rules.completion).reindex s.atoms.count
  have hall : clauses.all = s.formula := rfl
  have hindexed : clauses.Indexed s.atoms.count := Clauses.indexed_reindex _ _
  have hempty : clauses.containsEmpty = true ↔ [] ∈ clauses.all := containsEmpty_iff s
  -- the clauses that are recomputed are just the formula, with a fresh index
  have hfix := fix_spec hs.atoms.count_pos hindexed (hall ▸ hs.below) hempty (hall ▸ hseen)
  have hstatus : s.recompute.status =
      if (fix clauses ⟨Valuation.blank s.atoms.count, {}⟩).1 then .consistent
      else .inconsistent := rfl
  rcases hfix with ⟨hok, hsettles⟩ | ⟨hok, hnone⟩
  · rw [hok] at hstatus
    exact Or.inl ⟨hstatus, hsettles⟩
  · rw [hok] at hstatus
    exact Or.inr ⟨hstatus, hnone⟩

/-- Once the fixed valuation is up to date, it settles the constraints, or they have no model
and the solver knows it. -/
theorem WellFormed.fixed_spec (hs : s.WellFormed) (hcurrent : s.UpToDate)
    (hseen : ∀ c ∈ s.formula, ¬ c.Unseen) :
    s.status = .consistent ∧ Settles s.formula s.atoms.count s.fixed ∨
      s.status = .inconsistent ∧ ∀ i : Interpretation, ¬ i.IsModel s.formula := by
  rw [hcurrent.2.1, hcurrent.2.2]
  exact hs.recompute_spec hseen

end Solver

end Storyworld
