import Storyworld.Proofs.Solver.Solve

namespace Storyworld

/-!
# Questions are answered rightly

A probe says that literals are consistent with the constraints exactly when they are, and a
question for a model gives one in which they are true, or none when there is none. A literal
that is fixed is never assumed by a probe: every model agrees with its value. Questions leave
the constraints as they are (`SameConstraints`) and are refused for an unknown atom only.
-/

namespace Solver

open Action

variable {ρ : Type} {s t u : Solver ρ} {count : Nat}

/-- The atoms, the rules and the asserted clauses are the same. -/
structure SameConstraints (s t : Solver ρ) : Prop where
  atoms : t.atoms = s.atoms
  rules : t.rules = s.rules
  asserted : t.clauses.asserted = s.clauses.asserted

theorem SameConstraints.refl (s : Solver ρ) : SameConstraints s s := ⟨rfl, rfl, rfl⟩

theorem SameConstraints.trans (h : SameConstraints s t) (h' : SameConstraints t u) :
    SameConstraints s u :=
  ⟨h'.atoms.trans h.atoms, h'.rules.trans h.rules, h'.asserted.trans h.asserted⟩

/-- The same constraints have the same models. -/
theorem SameConstraints.formula (h : SameConstraints s t) : t.formula = s.formula := by
  rw [Solver.formula, Solver.formula, h.rules, h.asserted]

/-- To find out what is fixed leaves the constraints as they were. -/
theorem sameConstraints_refresh (s : Solver ρ) : SameConstraints s s.refresh := by
  obtain ⟨clauses, work, fixed, status, h, hasserted⟩ := refresh_frame s
  rw [h]
  exact ⟨rfl, rfl, hasserted⟩

/-- To drop the assumptions leaves the constraints as they are. -/
theorem sameConstraints_reset (s : Solver ρ) : SameConstraints s s.reset := ⟨rfl, rfl, rfl⟩

/-- To find out what is fixed takes no assumption back. -/
theorem refresh_assumptions (s : Solver ρ) : s.refresh.assumptions = s.assumptions := by
  obtain ⟨clauses, work, fixed, status, h, -⟩ := refresh_frame s
  rw [h]

/-- What is done apart is done to a solver that was reset, and the solver is reset afterwards. -/
theorem after_apart {α : Type} {act : EStateM Error (Solver ρ) α} {done : α → Solver ρ → Prop}
    {refused : Error → Solver ρ → Prop} :
    After (apart act) s done refused ↔
      After act s.reset (fun a t => done a t.reset) fun e t => refused e t.reset := by
  unfold After apart
  cases act s.reset <;> rfl

/-! ### Questions keep solvers well formed -/

/-- Literals that are demanded keep solvers well formed, also where one of them is refused. -/
theorem preserves_forceAll (ls : List Literal) : Preserves (Grown count) (forceAll (ρ := ρ) ls) :=
  preserves_forM fun l _ => preserves_force l

theorem Grown.reset (hs : Grown count s) : Grown count s.reset := ⟨hs.1.reset, hs.2⟩

/-- What is done apart keeps solvers well formed if it does so within. -/
theorem preserves_apart {α : Type} {act : EStateM Error (Solver ρ) α}
    (h : Preserves (Grown count) act) : Preserves (Grown count) (apart act) := fun s hs =>
  after_apart.2 ((h s.reset hs.reset).mono (fun _ _ ht => ht.reset) fun _ _ ht => ht.reset)

/-! ### Solvers that may be asked -/

/-- The solver may be asked: it is well formed, and top is not the head of a rule. -/
structure Ready (s : Solver ρ) : Prop where
  wellFormed : s.WellFormed
  top : s.rules.supportsOf Atom.top = []

/-- Whether a solver may be asked is a matter of its constraints. -/
theorem Ready.of_same (hs : s.Ready) (hsame : SameConstraints s t) (ht : t.WellFormed) : t.Ready :=
  ⟨ht, by rw [hsame.rules]; exact hs.top⟩

/-- A solver that may be asked still may once it has found out what is fixed. -/
theorem Ready.refresh (hs : s.Ready) : s.refresh.Ready :=
  hs.of_same (sameConstraints_refresh s) hs.wellFormed.refresh.1

/-- A known atom is never refused. -/
theorem not_unknown {l : Literal} {e : Error} (hl : l.atom < s.atoms.count) :
    ¬ Unknown [l] s e := by
  rintro ⟨m, hm, hge, -⟩
  rw [List.mem_singleton.1 hm] at hge
  exact Nat.not_le_of_lt hl hge

/-- A known literal is assumed in addition to what was assumed before. -/
theorem Ready.after_force (hs : s.Ready) {l : Literal} (hl : l.atom < s.atoms.count) :
    After (force l) s
      (fun _ t => t.Ready ∧ SameConstraints s t ∧ t.assumptions = s.assumptions ++ [l])
      (fun _ _ => False) := by
  refine (Solver.after_force l s).mono (fun _ t h => ?_) fun e t h => not_unknown hl h.2
  obtain ⟨-, rfl⟩ := h
  refine ⟨hs.of_same ⟨rfl, rfl, rfl⟩ ?_, ⟨rfl, rfl, rfl⟩, rfl⟩
  refine ⟨hs.wellFormed.atoms, hs.wellFormed.clauses, hs.wellFormed.rules, ?_, hs.wellFormed.current⟩
  exact List.forall_mem_append.2 ⟨hs.wellFormed.assumptions, List.forall_mem_singleton.2 hl⟩

/-- Every model agrees with the value that a solver gives for a fixed atom. -/
theorem Ready.fixedValue (hs : s.Ready) {a : Atom} {b : Bool}
    (h : (if s.refresh.status = .inconsistent then none else s.refresh.fixed.value? a) = some b)
    {i : Interpretation} (hi : i.IsModel s.formula) : i a = b := by
  obtain ⟨hwf, hcurrent⟩ := hs.wellFormed.refresh
  have hsame := sameConstraints_refresh s
  have htop : s.refresh.rules.supportsOf Atom.top = [] := by
    rw [hsame.rules]
    exact hs.top
  rw [← hsame.formula] at hi
  -- constraints without a model have no fixed values
  rcases hwf.fixed_spec hcurrent (hwf.seen (.inl htop)) with ⟨-, hsettles⟩ | ⟨hstatus, -⟩
  · split at h
    · cases h
    · exact hsettles.entailed i hi a b h
  · rw [if_pos hstatus] at h
    cases h

/-- What is done between two resets starts without assumptions. -/
theorem Ready.after_apart {α : Type} {act : EStateM Error (Solver ρ) α} (hs : s.Ready)
    {P : α → Prop} (hwf : Preserves (Grown s.atoms.count) act)
    (h : After act s.reset (fun a t => SameConstraints s.reset t ∧ P a) (fun _ _ => False)) :
    After (apart act) s (fun a t => t.Ready ∧ SameConstraints s t ∧ P a) (fun _ _ => False) := by
  refine Solver.after_apart.2 (((hwf s.reset hs.wellFormed.grown.reset).and h).mono
    (fun a t ⟨hgrown, hsame, hP⟩ => ?_) fun _ _ he => he.2)
  have hsame' : SameConstraints s t.reset :=
    ((sameConstraints_reset s).trans hsame).trans (sameConstraints_reset t)
  exact ⟨hs.of_same hsame' hgrown.reset.1, hsame', hP⟩

/-- Known literals are all assumed, one after the other. -/
theorem Ready.after_forceAll (hs : s.Ready) {ls : List Literal}
    (hls : ∀ l ∈ ls, l.atom < s.atoms.count) :
    After (forceAll ls) s
      (fun _ t => t.Ready ∧ SameConstraints s t ∧ t.assumptions = s.assumptions ++ ls)
      (fun _ _ => False) := by
  induction ls generalizing s with
  | nil => exact ⟨hs, SameConstraints.refl s, (List.append_nil _).symm⟩
  | cons l ls ih =>
    refine after_bind.2 ((hs.after_force (hls l List.mem_cons_self)).imp ?_)
    rintro _ t ⟨ht, hsame, hassumed⟩
    refine (ih ht fun m hm => ?_).imp ?_
    · -- forcing a literal makes no atom, so the others are known still
      rw [hsame.atoms]
      exact hls m (List.mem_cons_of_mem _ hm)
    · rintro _ u ⟨hu, hsame', hassumed'⟩
      refine ⟨hu, hsame.trans hsame', ?_⟩
      rw [hassumed', hassumed, List.append_assoc]
      rfl

/-! ### Probes and models -/

section Search

variable [RandomSource ρ]

/-- A search keeps solvers well formed. -/
theorem preserves_solve (optimize : Bool) :
    Preserves (Grown count) (modifyGet (solve optimize) : EStateM Error (Solver ρ) _) :=
  preserves_modifyGet fun _ hs => hs.solve optimize

/-- To ask whether literals are consistent keeps solvers well formed, also where it is refused. -/
theorem preserves_consistentWith (ls : List Literal) :
    Preserves (Grown count) (consistentWith (ρ := ρ) ls) := by
  induction ls with
  | nil => exact (preserves_solve false).bind fun _ => preserves_pure _
  | cons l ls ih =>
    refine (preserves_fixedValue l.atom).bind fun b => ?_
    cases b with
    | none => exact (preserves_force l).bind fun _ => ih
    | some b =>
      dsimp only
      split
      · exact ih
      · exact preserves_pure _

/-- A probe keeps solvers well formed. -/
theorem preserves_probe (ls : List Literal) : Preserves (Grown count) (probe (ρ := ρ) ls) :=
  preserves_apart (preserves_consistentWith ls)

/-- To ask for a model keeps solvers well formed. -/
theorem preserves_modelWith (optimize : Bool) (ls : List Literal) :
    Preserves (Grown count) (modelWith (ρ := ρ) optimize ls) :=
  preserves_apart ((preserves_forceAll ls).bind fun _ => preserves_solve optimize)

/-- A search leaves the constraints as they were. -/
theorem sameConstraints_solve (optimize : Bool) (s : Solver ρ) :
    SameConstraints s (s.solve optimize).2 := by
  obtain ⟨_, _, _, h⟩ := solve_continues optimize s
  refine (sameConstraints_refresh s).trans ?_
  rw [h]
  exact ⟨rfl, rfl, rfl⟩

/-- A model speaks of the atoms there are. -/
theorem atomCount_of_solve {optimize : Bool} {m : Model} (h : (s.solve optimize).1 = some m) :
    m.atomCount = s.atoms.count := by
  -- a model has the values of the atoms there are when the search ends
  have hlast : ∀ t, s.solve optimize = (some m, t) → m.atomCount = t.atoms.count := by
    intro t ht
    unfold solve at ht
    dsimp only at ht
    split at ht
    · cases ht
    · split at ht
      · cases ht
      · split at ht
        · cases ht
          exact Model.atomCount_ofValuation _ _
        · cases ht
  rw [hlast _ (Prod.ext h rfl), (sameConstraints_solve optimize s).atoms]

omit [RandomSource ρ] in
/-- A literal that cannot be demanded has an atom that is not known. -/
theorem after_forceAll (ls : List Literal) (s : Solver ρ) :
    After (forceAll ls) s (fun _ t => SameConstraints s t)
      fun e t => SameConstraints s t ∧ Unknown ls s e := by
  refine after_forM (I := fun _ t => SameConstraints s t) (fun ms l rest hls t ht => ?_)
    (SameConstraints.refl s)
  refine (after_force l t).mono (fun _ u h => ?_) fun e u h => ?_
  · rw [h.2]
    exact ht.trans ⟨rfl, rfl, rfl⟩
  · obtain ⟨rfl, m, hm, hge, he⟩ := h
    have hmem : m ∈ ls := by
      rw [hls, List.mem_singleton.1 hm]
      simp
    exact ⟨ht, m, hmem, ht.atoms ▸ hge, he⟩

/-- A question for a model is refused for an atom that is not known, and for nothing else. It leaves
nothing assumed, and a model that is found speaks of the atoms there are. -/
theorem after_modelWith (optimize : Bool) (ls : List Literal) (s : Solver ρ) :
    After (modelWith optimize ls) s
      (fun m t => (SameConstraints s t ∧ t.assumptions = []) ∧
        ∀ model, m = some model → model.atomCount = t.atoms.count)
      fun e t => (SameConstraints s t ∧ t.assumptions = []) ∧ Unknown ls s e := by
  refine after_apart.2 (after_bind.2 ((after_forceAll ls s.reset).mono (fun _ t ht => ?_)
    fun e t ht => ⟨⟨⟨ht.1.atoms, ht.1.rules, ht.1.asserted⟩, rfl⟩, ht.2⟩))
  have hsolve := sameConstraints_solve optimize t
  have hsame := ht.trans hsolve
  refine after_modifyGet.2 ⟨⟨⟨hsame.atoms, hsame.rules, hsame.asserted⟩, rfl⟩, fun m hm => ?_⟩
  exact (atomCount_of_solve hm).trans (congrArg Atoms.count hsolve.atoms.symm)

/-- The move assumes something, takes assumptions back or asks, and tells the solver nothing. -/
def Move.asks : Move → Bool
  | .force _ | .reset | .fixedValue _ | .solve _ => true
  | .freshAtom _ | .addClause _ | .addRule _ _ | .addHead _ | .addAtMost _ _ => false

/-- A move that tells the solver nothing leaves the constraints as they were. -/
theorem sameConstraints_perform {m : Move} (hm : m.asks = true) (s : Solver ρ) :
    SameConstraints s (m.perform s) := by
  cases m with
  | freshAtom name => cases hm
  | addClause c => cases hm
  | addRule head body => cases hm
  | addHead head => cases hm
  | addAtMost bound ls => cases hm
  -- each of these is refused and does nothing, or goes through and keeps the constraints
  | force l =>
    exact After.stateAfter ((Solver.after_force l s).mono (fun _ t h => h.2 ▸ ⟨rfl, rfl, rfl⟩)
      fun _ _ h => h.1 ▸ SameConstraints.refl s)
  | reset => exact sameConstraints_reset s
  | fixedValue a =>
    exact After.stateAfter ((after_fixedValue a s).mono
      (fun _ t h => h.2.1 ▸ sameConstraints_refresh s) fun _ _ h => h.1 ▸ SameConstraints.refl s)
  | solve optimize => exact sameConstraints_solve optimize s

/-- A search finds a model exactly when there is one. -/
theorem Ready.isSome_solve (hs : s.Ready) (optimize : Bool) :
    (s.solve optimize).1.isSome = true ↔
      ∃ i : Interpretation, i.IsModel s.formula ∧ i.SatisfiesAll s.assumptions :=
  hs.wellFormed.isSome_solve_iff (hs.wellFormed.seen (.inl hs.top)) optimize

/-- What is fixed is compared and not assumed, and that makes no difference to the answer. -/
theorem after_consistentWith (ls : List Literal) (hs : s.Ready)
    (hls : ∀ l ∈ ls, l.atom < s.atoms.count) :
    After (consistentWith ls) s
      (fun b t => SameConstraints s t ∧ (b = true ↔ ∃ i : Interpretation,
        i.IsModel s.formula ∧ i.SatisfiesAll s.assumptions ∧ i.SatisfiesAll ls))
      (fun _ _ => False) := by
  induction ls generalizing s with
  | nil =>
    show SameConstraints s (s.solve false).2 ∧ ((s.solve false).1.isSome = true ↔ _)
    refine ⟨sameConstraints_solve false s, (hs.isSome_solve false).trans ?_⟩
    refine exists_congr fun i => and_congr_right fun _ => ?_
    exact (and_iff_left_of_imp fun _ => nofun).symm
  | cons l ls ih =>
    have hl : l.atom < s.atoms.count := hls l List.mem_cons_self
    have hrest : ∀ m ∈ ls, m.atom < s.atoms.count := fun m hm => hls m (List.mem_cons_of_mem _ hm)
    refine after_bind.2 ((after_fixedValue l.atom s).mono (fun b t h => ?_) fun e t h => ?_)
    · obtain ⟨-, rfl, hb⟩ := h
      have hsame := sameConstraints_refresh s
      cases b with
      | some b =>
        have hfixed : ∀ i : Interpretation, i.IsModel s.formula → i l.atom = b :=
          fun i hi => hs.fixedValue hb.symm hi
        dsimp only
        split
        · rename_i hpos
          -- every model makes `l` true anyway
          refine (ih hs.refresh fun m hm => by rw [hsame.atoms]; exact hrest m hm).imp ?_
          rintro answer t ⟨ht, hanswer⟩
          refine ⟨hsame.trans ht, hanswer.trans ?_⟩
          rw [hsame.formula, refresh_assumptions]
          refine exists_congr fun i => and_congr_right fun hi => and_congr_right fun _ => ?_
          rw [Interpretation.satisfiesAll_cons]
          exact (and_iff_right ((hfixed i hi).trans hpos)).symm
        · rename_i hpos
          -- no model makes `l` true, and the search is left out
          refine after_pure.2 ⟨hsame, nofun, ?_⟩
          rintro ⟨i, hi, -, hall⟩
          exact absurd ((hfixed i hi).symm.trans (hall l List.mem_cons_self)) hpos
      | none =>
        dsimp only
        -- the value of `l` is not fixed, so it is assumed
        refine after_bind.2 ((hs.refresh.after_force (by rwa [hsame.atoms])).imp ?_)
        rintro _ u ⟨hu, hsame', hassumed⟩
        have hsame' := hsame.trans hsame'
        refine (ih hu fun m hm => by rw [hsame'.atoms]; exact hrest m hm).imp ?_
        rintro answer t ⟨ht, hanswer⟩
        refine ⟨hsame'.trans ht, hanswer.trans ?_⟩
        rw [hsame'.formula, hassumed, refresh_assumptions]
        refine exists_congr fun i => and_congr_right fun _ => ?_
        rw [Interpretation.satisfiesAll_append, Interpretation.satisfiesAll_singleton,
          Interpretation.satisfiesAll_cons, and_assoc]
    · exact not_unknown (l := Literal.pos l.atom) hl h.2

/-- **A probe is right.** It says that the literals are consistent with the constraints exactly when
some model of the constraints makes them true. -/
theorem Ready.after_probe (hs : s.Ready) {ls : List Literal}
    (hls : ∀ l ∈ ls, l.atom < s.atoms.count) :
    After (probe ls) s
      (fun b t => t.Ready ∧ SameConstraints s t ∧
        (b = true ↔ ∃ i : Interpretation, i.IsModel s.formula ∧ i.SatisfiesAll ls))
      (fun _ _ => False) := by
  -- between the resets nothing is assumed but the literals
  have hreset : s.reset.Ready := hs.of_same (sameConstraints_reset s) hs.wellFormed.reset
  refine hs.after_apart (preserves_consistentWith ls)
    ((after_consistentWith ls hreset hls).imp fun b t h => ⟨h.1, h.2.trans ?_⟩)
  exact exists_congr fun i => and_congr_right fun _ => and_iff_right nofun

/-- A model that is asked for is one in which the literals are true, and it is found if there is
one. -/
theorem Ready.after_modelWith (hs : s.Ready) (optimize : Bool) {ls : List Literal}
    (hls : ∀ l ∈ ls, l.atom < s.atoms.count) :
    After (modelWith optimize ls) s
      (fun m t => t.Ready ∧ SameConstraints s t ∧ Answers s.atoms.count s.formula ls m)
      (fun _ _ => False) := by
  have hreset : s.reset.Ready := hs.of_same (sameConstraints_reset s) hs.wellFormed.reset
  refine hs.after_apart
    ((preserves_forceAll ls).bind fun _ => preserves_solve optimize) ?_
  refine after_bind.2 ((hreset.after_forceAll hls).imp ?_)
  rintro _ t ⟨ht, hsame, hassumed⟩
  have hspec := ht.wellFormed.solve_spec (ht.wellFormed.seen (.inl ht.top)) optimize
  rw [hassumed, hsame.formula, hsame.atoms] at hspec
  exact ⟨hsame.trans (sameConstraints_solve optimize t), hspec⟩

end Search

end Solver

end Storyworld
