import Storyworld.Proofs.Solver.Confluence

namespace Storyworld

/-!
# Searches in lockstep

Two searches over rearranged clauses go the same way, round for round: they make the same
decisions, meet their conflicts in the same rounds, go back to the same decision, and end
alike. Between rounds their trails hold the same literals, in an order that may differ, and
so do the parts of the trails before each decision (`Lockstep`).

How decisions are drawn is left open. All that is used is that sources which are alike give
the same decision and are alike afterwards (`Steers`).
-/

namespace Assignment

variable {clauses clauses' : Clauses} {base : Valuation} {a a' b b' : Assignment} {l : Literal}
  {between earlier : List Decision} {d : Decision}

/-! ### Assignments in lockstep -/

/-- Two stores of the same clauses, each with an index of its own, over the atoms of a valuation
in which top has a value. -/
structure Comparable (clauses clauses' : Clauses) (base : Valuation) : Prop where
  same : Clause.Rearranged clauses.all clauses'.all
  indexed : clauses.Indexed base.size
  indexed' : clauses'.Indexed base.size
  below : Clause.Below base.size clauses.all
  below' : Clause.Below base.size clauses'.all
  top : ¬ base.Open Atom.top

/-- The two assignments have the same decisions, at the same places. Up to each of them the
trails have the same literals, whose consequences have been drawn. -/
structure Abreast (cs : List Clause) (base : Valuation) (a a' : Assignment) : Prop where
  inStep : InStep base a
  inStep' : InStep base a'
  decisions : a.trail.decisions = a'.trail.decisions
  before : ∀ d ∈ a.trail.decisions,
    (a.trail.toList.take d.position).Perm (a'.trail.toList.take d.position)
  drawn : ∀ d ∈ a.trail.decisions, Drawn cs base (a.trail.toList.take d.position)

/-- The two assignments have the same literals on their trails as well, and of those whose
consequences are still to be drawn none is forgotten. -/
structure Lockstep (clauses clauses' : Clauses) (base : Valuation) (a a' : Assignment) : Prop where
  abreast : Abreast clauses.all base a a'
  trail : a.trail.toList.Perm a'.trail.toList
  heeds : Heeds Flaw.loose clauses [] a
  heeds' : Heeds Flaw.loose clauses' [] a'

/-- As long as nothing has been propagated, every literal waits. -/
theorem heeds_of_propagated (h : a.trail.propagated = 0) : Heeds Flaw.loose clauses [] a := by
  rintro c - ⟨⟨m, hm, hn⟩, -⟩
  refine Or.inl ⟨m, hm, ?_⟩
  rwa [Trail.waiting, h, List.drop_zero]

/-- Two searches that have assumed the same literals begin in lockstep. -/
theorem lockstep_assume {ls ms : List Literal} (hls : ∀ l ∈ ls, l.atom < base.size)
    (hsame : ∀ l, l ∈ ls ↔ l ∈ ms) (ha : assume ls ⟨base, {}⟩ = (true, a)) :
    ∃ a', assume ms ⟨base, {}⟩ = (true, a') ∧ Lockstep clauses clauses' base a a' := by
  have hms : ∀ l ∈ ms, l.atom < base.size := fun l hl => hls l ((hsame l).2 hl)
  obtain ⟨a', ha', hperm⟩ := confluent_assume hls hsame ha
  have hstep := (inStep_empty base).assume hls
  have hstep' := (inStep_empty base).assume hms
  have hds := decisions_assume ls ⟨base, {}⟩
  have hds' := decisions_assume ms ⟨base, {}⟩
  have hprop := propagated_assume ls ⟨base, {}⟩
  have hprop' := propagated_assume ms ⟨base, {}⟩
  rw [ha] at hstep hds hprop
  rw [ha'] at hstep' hds' hprop'
  -- no decision has been made, so all that is to be seen is that the trails have the same literals
  have hnone : a.trail.decisions = [] := hds
  refine ⟨a', ha', ⟨hstep, hstep', hds.trans hds'.symm, ?_, ?_⟩, hperm,
    heeds_of_propagated hprop, heeds_of_propagated hprop'⟩
  · simp [hnone]
  · simp [hnone]

/-- Assignments with the same literals have the same valuation. -/
theorem valuation_eq_of_perm (ha : InStep base a) (ha' : InStep base a')
    (h : a.trail.toList.Perm a'.trail.toList) : a.valuation = a'.valuation := by
  rw [ha.valuation_eq, ha'.valuation_eq]
  exact Valuation.assignAll_perm h ha.fits.distinct

/-- Propagation changes neither the decisions nor what stands before them. -/
theorem Abreast.propagate (h : Abreast clauses.all base a a')
    (hc : Comparable clauses clauses' base) :
    Abreast clauses.all base (propagate clauses a).2 (propagate clauses' a').2 := by
  have hds := decisions_propagate (a := a) hc.indexed
  have hds' := decisions_propagate (a := a') hc.indexed'
  obtain ⟨more, hmore⟩ := prefix_propagate (a := a) hc.indexed
  obtain ⟨more', hmore'⟩ := prefix_propagate (a := a') hc.indexed'
  -- propagation adds to the end of a trail, so what stands before a decision stays there
  have htake : ∀ d ∈ a.trail.decisions,
      (Assignment.propagate clauses a).2.trail.toList.take d.position =
        a.trail.toList.take d.position := by
    intro d hd
    rw [← hmore, List.take_append_of_le_length (Nat.le_of_lt (h.inStep.position_lt hd))]
  have htake' : ∀ d ∈ a.trail.decisions,
      (Assignment.propagate clauses' a').2.trail.toList.take d.position =
        a'.trail.toList.take d.position := by
    intro d hd
    rw [h.decisions] at hd
    rw [← hmore', List.take_append_of_le_length (Nat.le_of_lt (h.inStep'.position_lt hd))]
  refine ⟨h.inStep.propagate hc.indexed hc.below, h.inStep'.propagate hc.indexed' hc.below', ?_,
    fun d hd => ?_, fun d hd => ?_⟩
  · rw [hds, hds', h.decisions]
  · rw [hds] at hd
    rw [htake d hd, htake' d hd]
    exact h.before d hd
  · rw [hds] at hd
    rw [htake d hd]
    exact h.drawn d hd

/-- What is chosen lengthens the trail. -/
theorem toList_choose (a : Assignment) (l : Literal) (flipped : Bool) :
    (a.choose l flipped).trail.toList = a.trail.toList ++ [l] :=
  Trail.toList_pushDecision a.trail l flipped

/-- Of the clauses that a choice touches, only those with the negation of the literal may be loose,
and that waits. -/
theorem heeds_choose (ha : InStep base a) (hopen : a.valuation.Open l.atom)
    (hdrawn : Drawn clauses.all base a.trail.toList) (flipped : Bool) :
    Heeds Flaw.loose clauses [] (a.choose l flipped) := by
  intro c hmem hflaw
  rw [toList_choose] at hflaw
  rcases Flaw.loose.arises hopen hflaw with ⟨htouched, hne⟩ | hnew
  · rw [ha.valuation_eq] at hne
    exact absurd (hdrawn c hmem htouched) hne
  · refine Or.inl ⟨l.negate, hnew, ?_⟩
    show l.negate.negate ∈ (a.trail.pushDecision l flipped).waiting
    rw [Trail.waiting_pushDecision ha.propagated_le, Literal.negate_negate]
    simp

/-- Two assignments that are abreast, with the same literals whose consequences have been drawn,
are in lockstep once the same literal is chosen. -/
theorem Abreast.choose (h : Abreast clauses.all base a a') (hc : Comparable clauses clauses' base)
    (hperm : a.trail.toList.Perm a'.trail.toList)
    (hdrawn : Drawn clauses.all base a.trail.toList) (hopen : a.valuation.Open l.atom)
    (flipped : Bool) :
    Lockstep clauses clauses' base (a.choose l flipped) (a'.choose l flipped) := by
  have hopen' : a'.valuation.Open l.atom :=
    valuation_eq_of_perm h.inStep h.inStep' hperm ▸ hopen
  have hdrawn' : Drawn clauses'.all base a'.trail.toList :=
    (hdrawn.perm hperm h.inStep.fits.distinct).rearranged hc.same
  have hlen : a.trail.literals.size = a'.trail.literals.size := by
    rw [← Trail.length_toList, ← Trail.length_toList]
    exact hperm.length_eq
  have htake : ∀ d ∈ a.trail.decisions, (a.choose l flipped).trail.toList.take d.position =
      a.trail.toList.take d.position := by
    intro d hd
    rw [toList_choose, List.take_append_of_le_length (Nat.le_of_lt (h.inStep.position_lt hd))]
  -- before the new decision stands all that there was
  have hself : ∀ e : Assignment,
      (e.choose l flipped).trail.toList.take e.trail.literals.size = e.trail.toList := by
    intro e
    rw [toList_choose, ← Trail.length_toList, List.take_left]
  refine ⟨⟨h.inStep.choose hopen flipped, h.inStep'.choose hopen' flipped, ?_, ?_, ?_⟩, ?_,
    heeds_choose h.inStep hopen hdrawn flipped, heeds_choose h.inStep' hopen' hdrawn' flipped⟩
  · show Decision.mk a.trail.literals.size l flipped :: a.trail.decisions =
      Decision.mk a'.trail.literals.size l flipped :: a'.trail.decisions
    rw [hlen, h.decisions]
  · intro d hd
    rcases List.mem_cons.1 hd with rfl | hd
    · have hself' := hself a'
      rw [← hlen] at hself'
      rw [hself, hself']
      exact hperm
    · rw [htake d hd, toList_choose, List.take_append_of_le_length]
      · exact h.before d hd
      · exact Nat.le_of_lt (h.inStep'.position_lt (h.decisions ▸ hd))
  · intro d hd
    rcases List.mem_cons.1 hd with rfl | hd
    · rw [hself]
      exact hdrawn
    · rw [htake d hd]
      exact h.drawn d hd
  · rw [toList_choose, toList_choose]
    exact hperm.append_right [l]

/-! ### A round without a conflict and one with a conflict -/

/-- If one search meets no conflict then the other meets none, and the consequences have been
drawn. -/
theorem Lockstep.propagate (h : Lockstep clauses clauses' base a a')
    (hc : Comparable clauses clauses' base) (hb : propagate clauses a = (none, b)) :
    ∃ b', Assignment.propagate clauses' a' = (none, b') ∧ Abreast clauses.all base b b' ∧
      b.trail.toList.Perm b'.trail.toList ∧ Drawn clauses.all base b.trail.toList := by
  obtain ⟨b', hb', hperm⟩ := confluent_propagate hc.same hc.indexed hc.indexed' hc.below hc.below'
    h.abreast.inStep h.abreast.inStep' h.heeds h.heeds' h.trail hb
  have habreast := h.abreast.propagate hc
  rw [hb, hb'] at habreast
  exact ⟨b', hb', habreast, hperm,
    drawn_of_propagate h.heeds h.abreast.inStep hc.indexed hc.below hb⟩

theorem Comparable.symm (hc : Comparable clauses clauses' base) :
    Comparable clauses' clauses base :=
  ⟨hc.same.symm, hc.indexed', hc.indexed, hc.below', hc.below, hc.top⟩

theorem Lockstep.symm (h : Lockstep clauses clauses' base a a')
    (hc : Comparable clauses clauses' base) : Lockstep clauses' clauses base a' a := by
  have hab := h.abreast
  have hmem : ∀ {d}, d ∈ a'.trail.decisions → d ∈ a.trail.decisions := hab.decisions ▸ id
  refine ⟨⟨hab.inStep', hab.inStep, hab.decisions.symm, fun d hd => (hab.before d (hmem hd)).symm,
    fun d hd => ?_⟩, h.trail.symm, h.heeds', h.heeds⟩
  have hbefore := hab.before d (hmem hd)
  have hdistinct := (fits_take hab.inStep d.position).distinct
  exact ((hab.drawn d (hmem hd)).perm hbefore hdistinct).rearranged hc.same

/-- If one search meets a conflict then so does the other. -/
theorem Lockstep.propagate_conflict (h : Lockstep clauses clauses' base a a')
    (hc : Comparable clauses clauses' base) {key : ClauseKey}
    (hb : Assignment.propagate clauses a = (some key, b)) :
    ∃ key' b', Assignment.propagate clauses' a' = (some key', b') ∧
      Abreast clauses.all base b b' := by
  cases hb' : Assignment.propagate clauses' a' with
  | mk conflict b' =>
    cases conflict with
    | some key' =>
      have habreast := h.abreast.propagate hc
      rw [hb, hb'] at habreast
      exact ⟨key', b', rfl, habreast⟩
    | none =>
      -- without a conflict in the one there would be none in the other
      obtain ⟨e, he, -⟩ := (h.symm hc).propagate hc.symm hb'
      rw [hb] at he
      cases he

/-- The decision gone back to is the first that has been tried one way only. -/
theorem dropWhile_flipped {ds : List Decision} (hds : ds = between ++ d :: earlier)
    (hbetween : ∀ e ∈ between, e.flipped = true) (hd : d.flipped = false) :
    ds.dropWhile (·.flipped) = d :: earlier := by
  rw [hds, List.dropWhile_append_of_pos hbetween, List.dropWhile_cons_of_neg (by simp [hd])]

/-- Both searches go back to the same decision. -/
theorem Abreast.backtrack (h : Abreast clauses.all base a a')
    (hc : Comparable clauses clauses' base) (hb : a.backtrack = (some l, b)) :
    ∃ b', a'.backtrack = (some l, b') ∧
      Lockstep clauses clauses' base (b.choose l true) (b'.choose l true) := by
  obtain ⟨between, d, earlier, hds, hbetween, hd, rfl, rfl⟩ :=
    backtrack_eq_some h.inStep hc.top hb
  have hmem : d ∈ a.trail.decisions := by simp [hds]
  cases hb' : a'.backtrack with
  | mk l' b' =>
    cases l' with
    | none =>
      -- the decision is still to be tried the other way in both
      have hflip := backtrack_eq_none hb' d (h.decisions ▸ hmem)
      rw [hd] at hflip
      cases hflip
    | some l' =>
      obtain ⟨between', d', earlier', hds', hbetween', hd', rfl, rfl⟩ :=
        backtrack_eq_some h.inStep' hc.top hb'
      have hfirst := dropWhile_flipped hds hbetween hd
      rw [h.decisions, dropWhile_flipped hds' hbetween' hd'] at hfirst
      obtain ⟨rfl, rfl⟩ := List.cons.inj hfirst
      have hdesc := h.inStep.descending
      rw [hds, List.pairwise_append, List.pairwise_cons] at hdesc
      -- up to an earlier decision nothing is taken back
      have htake : ∀ e ∈ earlier', ∀ c : Assignment,
          (c.undo d'.position earlier').trail.toList.take e.position =
            c.trail.toList.take e.position := by
        intro e he c
        rw [toList_undo, List.take_take, Nat.min_eq_left (Nat.le_of_lt (hdesc.2.1.1 e he))]
      have habreast : Abreast clauses.all base (a.undo d'.position earlier')
          (a'.undo d'.position earlier') := by
        refine ⟨h.inStep.undo hc.top hds, h.inStep'.undo hc.top hds', rfl, fun e he => ?_,
          fun e he => ?_⟩
        · rw [htake e he, htake e he]
          exact h.before e (by simp [hds, show e ∈ earlier' from he])
        · rw [htake e he]
          exact h.drawn e (by simp [hds, show e ∈ earlier' from he])
      have hopen : (a.undo d'.position earlier').valuation.Open d'.literal.negate.atom :=
        open_undo h.inStep hc.top hmem earlier'
      refine ⟨_, rfl, habreast.choose hc ?_ ?_ hopen true⟩
      · rw [toList_undo, toList_undo]
        exact h.before d' hmem
      · rw [toList_undo]
        exact h.drawn d' hmem

theorem Abreast.backtrack_none (h : Abreast clauses.all base a a')
    (hb : a.backtrack = (none, b)) : (a'.backtrack).1 = none := by
  have hflip := backtrack_eq_none hb
  rw [h.decisions] at hflip
  -- whether the way back finds a decision is a matter of the list of decisions only
  have hnone : ∀ (ds : List Decision) (c : Assignment), (∀ d ∈ ds, d.flipped = true) →
      (backtrackThrough ds c).1 = none := by
    intro ds
    induction ds with
    | nil => exact fun _ _ => rfl
    | cons d ds ih =>
      intro c hall
      rw [backtrackThrough, if_pos (hall d List.mem_cons_self)]
      exact ih _ fun e he => hall e (List.mem_cons_of_mem _ he)
  exact hnone _ a' hflip

end Assignment

namespace Solver

open Assignment

variable {ρ : Type} [RandomSource ρ] {alike : ρ → ρ → Prop} {optimize : Bool} {base : Valuation}
  {s s' t : Solver ρ}

/-! ### Decisions -/

/-- Sources that are alike lead to the same decision, and are alike after it. -/
def Steers (optimize : Bool) (config : Config) (alike : ρ → ρ → Prop) : Prop :=
  ∀ s s' : Solver ρ, s.config = config → s'.config = config →
    s.work.valuation = s'.work.valuation → alike s.source s'.source →
      (decide? optimize s).1 = (decide? optimize s').1 ∧
        alike (decide? optimize s).2.source (decide? optimize s').2.source

/-- A decision is drawn from the source alone. -/
theorem steers_eq (optimize : Bool) (config : Config) :
    Steers (ρ := ρ) optimize config (· = ·) := by
  intro s s' hconfig hconfig' hval hsource
  -- the atom is drawn first, and then its polarity from the source that is left
  have hopen : s.openAtom?.1 = s'.openAtom?.1 ∧ s.openAtom?.2.source = s'.openAtom?.2.source ∧
      s.openAtom?.2.config = s'.openAtom?.2.config := by
    unfold openAtom?
    rw [hconfig, hconfig', hval, hsource]
    dsimp only
    split <;> exact ⟨rfl, rfl, rfl⟩
  obtain ⟨hatom, hsource, hconfig⟩ := hopen
  unfold decide?
  cases hs : s.openAtom? with
  | mk x u =>
    cases hs' : s'.openAtom? with
    | mk x' u' =>
      rw [hs, hs'] at hatom hsource hconfig
      obtain rfl : x = x' := hatom
      cases x with
      | none => exact ⟨rfl, hsource⟩
      | some x =>
        have hsource : u.source = u'.source := hsource
        have hconfig : u.config = u'.config := hconfig
        dsimp only
        unfold polarity
        rw [hsource, hconfig]
        split <;> exact ⟨rfl, rfl⟩

/-! ### Rounds -/

/-- Two searches between rounds: the same settings, sources that are alike, and assignments in
lockstep. -/
structure Lockstep (alike : ρ → ρ → Prop) (base : Valuation) (s s' : Solver ρ) : Prop where
  config : s.config = s'.config
  source : alike s.source s'.source
  work : Assignment.Lockstep s.clauses s'.clauses base s.work s'.work

/-- How two searches stand after the same number of rounds. -/
structure Together (alike : ρ → ρ → Prop) (base : Valuation) (r r' : Progress × Solver ρ) :
    Prop where
  progress : r.1 = r'.1
  source : alike r.2.source r'.2.source
  valuation : r.1 = .found → r.2.work.valuation = r'.2.work.valuation
  lockstep : r.1 = .searching → Lockstep alike base r.2 r'.2

/-- When neither search meets a conflict, both decide the same or both have found a valuation. -/
theorem Lockstep.round_of_decision (h : Lockstep alike base s s')
    (hsteers : Steers optimize s.config alike) (hc : Comparable s.clauses s'.clauses base)
    {b : Assignment} (hb : s.work.propagate s.clauses = (none, b)) :
    Together alike base (s.round optimize) (s'.round optimize) := by
  obtain ⟨b', hb', habreast, hperm, hdrawn⟩ := h.work.propagate hc hb
  have hval := valuation_eq_of_perm habreast.inStep habreast.inStep' hperm
  unfold Solver.round
  dsimp only
  rw [hb, hb']
  dsimp only
  -- the sources are alike and the valuations equal, so the decisions are equal
  obtain ⟨hsame, hsource⟩ := hsteers
    { s with counters.iterations := s.counters.iterations + 1, work := b }
    { s' with counters.iterations := s'.counters.iterations + 1, work := b' }
    rfl h.config.symm hval h.source
  split
  · rename_i u hu
    rw [hu] at hsame hsource
    split
    · rename_i u' hu'
      rw [hu'] at hsource
      obtain ⟨-, _, _, rfl⟩ := decide?_eq_none hu
      obtain ⟨-, _, _, rfl⟩ := decide?_eq_none hu'
      exact ⟨rfl, hsource, fun _ => hval, nofun⟩
    · rename_i l u' hu'
      rw [hu'] at hsame
      cases hsame
  · rename_i l u hu
    rw [hu] at hsame hsource
    split
    · rename_i u' hu'
      rw [hu'] at hsame
      cases hsame
    · rename_i l' u' hu'
      rw [hu'] at hsame hsource
      obtain rfl : l = l' := Option.some.inj hsame
      obtain ⟨hmem, _, _, rfl⟩ := decide?_eq_some hu
      obtain ⟨-, _, _, rfl⟩ := decide?_eq_some hu'
      have hopen : b.valuation.Open l.atom := (Valuation.mem_openAtoms.1 hmem).2
      exact ⟨rfl, hsource, nofun, fun _ => ⟨h.config, hsource,
        habreast.choose hc hperm hdrawn hopen false⟩⟩

/-- When both searches meet a conflict, both go back to the same decision or both have tried
everything. -/
theorem Lockstep.round_of_conflict (h : Lockstep alike base s s')
    (hc : Comparable s.clauses s'.clauses base) {key : ClauseKey} {b : Assignment}
    (hb : s.work.propagate s.clauses = (some key, b)) :
    Together alike base (s.round optimize) (s'.round optimize) := by
  obtain ⟨key', b', hb', habreast⟩ := h.work.propagate_conflict hc hb
  unfold Solver.round
  dsimp only
  rw [hb, hb']
  dsimp only
  cases hw : b.backtrack with
  | mk l w =>
    cases l with
    | none =>
      -- where the one search finds nothing to go back to, neither does the other
      have hnone := habreast.backtrack_none hw
      cases hw' : b'.backtrack with
      | mk l' w' =>
        rw [hw'] at hnone
        obtain rfl : l' = none := hnone
        exact ⟨rfl, h.source, nofun, nofun⟩
    | some l =>
      obtain ⟨w', hw', hlock⟩ := habreast.backtrack hc hw
      rw [hw']
      exact ⟨rfl, h.source, nofun, fun _ => ⟨h.config, h.source, hlock⟩⟩

/-- A round of two searches in lockstep ends in the same way for both. -/
theorem Lockstep.round (h : Lockstep alike base s s')
    (hsteers : Steers optimize s.config alike) (hc : Comparable s.clauses s'.clauses base) :
    Together alike base (s.round optimize) (s'.round optimize) := by
  cases hb : s.work.propagate s.clauses with
  | mk conflict b =>
    cases conflict with
    | none => exact h.round_of_decision hsteers hc hb
    | some key => exact h.round_of_conflict hc hb

/-- **Searches in lockstep stay in lockstep** for as many rounds as they are given. -/
theorem Lockstep.rounds (h : Lockstep alike base s s')
    (hsteers : Steers optimize s.config alike) (hc : Comparable s.clauses s'.clauses base)
    (n : Nat) : Together alike base (rounds optimize n s) (rounds optimize n s') := by
  induction n generalizing s s' with
  | zero => exact ⟨rfl, h.source, nofun, fun _ => h⟩
  | succ n ih =>
    have hround := h.round hsteers hc
    obtain ⟨_, _, _, hcont⟩ := round_continues optimize s
    obtain ⟨_, _, _, hcont'⟩ := round_continues optimize s'
    unfold Solver.rounds
    cases hs : s.round optimize with
    | mk progress u =>
      cases hs' : s'.round optimize with
      | mk progress' u' =>
        rw [hs, hs'] at hround
        rw [hs] at hcont
        rw [hs'] at hcont'
        obtain rfl : progress = progress' := hround.progress
        cases progress with
        | searching =>
          -- a round leaves the clauses and the settings as they are
          have hlock : Lockstep alike base u u' := hround.lockstep rfl
          subst hcont hcont'
          exact ih hlock hsteers hc
        | found => exact hround
        | exhausted => exact hround

end Solver

end Storyworld
