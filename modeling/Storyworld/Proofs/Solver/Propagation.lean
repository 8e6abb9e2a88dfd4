import Storyworld.Proofs.Solver.Occurrences
import Storyworld.Proofs.Solver.Trail

namespace Storyworld

/-!
# Propagation

Three things are true of propagation, and a search rests on them:

* it makes only literals true that some clause forces (`propagate_induction`), so what
  holds of such a move holds of the whole;
* it ends with a clause that is false (`falsified_of_propagate`) or with nothing left
  waiting (`waiting_propagate`);
* it misses nothing. A clause that is false, or has another flaw that comes with a false
  literal, always holds a literal whose negation still waits on the trail (`Heeds`), so
  once nothing waits no clause has the flaw (`Heeds.not_has`,
  `not_falsified_of_propagate`).
-/

namespace Clause

/-- What a clause forces is a literal of its own without a value. -/
theorem forces_spec {v : Valuation} {c : Clause} {l : Literal} (h : c.standing v = .forces l) :
    l ∈ c ∧ v.value? l.atom = none := by
  obtain ⟨before, after, rfl, hnone, -⟩ := standing_eq_forces_iff.1 h
  exact ⟨by simp, hnone⟩

/-- A clause with a literal that is true is settled. -/
theorem settled_of_mem {v : Valuation} {c : Clause} {l : Literal} (hl : l ∈ c)
    (h : v.value? l.atom = some l.positive) : c.standing v = .settled := by
  have hne : v.value? l.atom ≠ some (!l.positive) := by
    rw [h]
    exact fun e => (Bool.not_eq_self _).1 (Option.some.inj e).symm
  cases hs : c.standing v with
  | settled => rfl
  | falsified => exact absurd (standing_eq_falsified_iff.1 hs l hl) hne
  | forces m =>
    obtain ⟨before, after, rfl, hnone, hm⟩ := standing_eq_forces_iff.1 hs
    -- the literal is not the one that is forced, which has no value
    rcases List.mem_append.1 hl with hl | hl
    · exact absurd (hm l (List.mem_append_left _ hl)) hne
    · rcases List.mem_cons.1 hl with rfl | hl
      · rw [h] at hnone
        cases hnone
      · exact absurd (hm l (List.mem_append_right _ hl)) hne

/-- The literals of the clauses have atoms below a number. -/
def Below (count : Nat) (cs : List Clause) : Prop := ∀ c ∈ cs, ∀ l ∈ c, l.atom < count

end Clause

namespace Assignment

variable {clauses : Clauses} {base : Valuation} {a : Assignment}

/-! ### What propagation does -/

/-- To visit clauses makes literals true that one of them forces, so what such a step keeps is
kept. -/
theorem visit_induction {P : Assignment → Prop} {keys : List ClauseKey}
    (hstep : ∀ b, ∀ key ∈ keys, ∀ l, (clauses.get key).standing b.valuation = .forces l →
      P b → P (b.assign l)) (ha : P a) : P (visit clauses keys a).2 := by
  induction keys generalizing a with
  | nil => exact ha
  | cons key keys ih =>
    have hrest : ∀ b, ∀ k ∈ keys, ∀ l, (clauses.get k).standing b.valuation = .forces l →
        P b → P (b.assign l) := fun b k hk => hstep b k (List.mem_cons_of_mem _ hk)
    unfold visit
    split
    · exact ih hrest ha
    · rename_i l hl
      -- the clause forces `l`, and the visit goes on with `l` made true
      exact ih hrest (hstep a key List.mem_cons_self l hl ha)
    · exact ha

/-- Propagation takes a literal from the trail and visits clauses, so what these steps keep is
kept. -/
theorem propagateWithin_induction {P : Assignment → Prop} {count : Nat}
    (hindexed : clauses.Indexed count)
    (hstep : ∀ b, ∀ c ∈ clauses.all, ∀ l, c.standing b.valuation = .forces l →
      P b → P (b.assign l))
    (hdequeue : ∀ b l t, b.trail.next? = some (l, t) → P b → P { b with trail := t })
    {n : Nat} (ha : P a) : P (propagateWithin clauses n a).2 := by
  induction n generalizing a with
  | zero => exact ha
  | succ n ih =>
    unfold propagateWithin
    split
    · exact ha
    · rename_i l t ht
      -- the literal is taken off the queue, and then its clauses are visited
      have hvisit : P (visit clauses (clauses.occurrencesOf l.negate) { a with trail := t }).2 :=
        visit_induction (fun b key hkey => hstep b _ (hindexed.mem_all hkey))
          (hdequeue a l t ht ha)
      split
      · rename_i key b hb
        rw [hb] at hvisit
        exact hvisit
      · rename_i b hb
        rw [hb] at hvisit
        exact ih hvisit

/-- What each forced literal and each step along the trail keep, propagation keeps. -/
theorem propagate_induction {P : Assignment → Prop} {count : Nat}
    (hindexed : clauses.Indexed count)
    (hstep : ∀ b, ∀ c ∈ clauses.all, ∀ l, c.standing b.valuation = .forces l →
      P b → P (b.assign l))
    (hdequeue : ∀ b l t, b.trail.next? = some (l, t) → P b → P { b with trail := t })
    (ha : P a) : P (propagate clauses a).2 :=
  propagateWithin_induction hindexed hstep hdequeue ha

/-- A literal that is forced has an open atom. -/
theorem InStep.open_of_forces (h : InStep base a) (hbelow : Clause.Below base.size clauses.all)
    {c : Clause} (hc : c ∈ clauses.all) {l : Literal} (hl : c.standing a.valuation = .forces l) :
    a.valuation.Open l.atom := by
  obtain ⟨hmem, hnone⟩ := Clause.forces_spec hl
  exact Valuation.open_of_value? (by rw [h.size]; exact hbelow c hc l hmem) hnone

/-- Propagation keeps the trail in step. -/
theorem InStep.propagate (h : InStep base a) (hindexed : clauses.Indexed base.size)
    (hbelow : Clause.Below base.size clauses.all) : InStep base (propagate clauses a).2 :=
  propagate_induction hindexed
    (fun _ _ hc _ hl hb => hb.assign (hb.open_of_forces hbelow hc hl))
    (fun _ _ _ ht hb => hb.dequeue ht) h

/-- Propagation makes no decision. -/
theorem decisions_propagate (hindexed : clauses.Indexed base.size) :
    (propagate clauses a).2.trail.decisions = a.trail.decisions := by
  refine propagate_induction (P := fun b => b.trail.decisions = a.trail.decisions) hindexed
    (fun _ _ _ _ _ hb => hb) (fun b l t ht hb => ?_) rfl
  obtain ⟨-, rfl, -⟩ := Trail.next?_eq_some ht
  exact hb

/-- Propagation adds to the end of the trail. -/
theorem prefix_propagate (hindexed : clauses.Indexed base.size) :
    a.trail.toList <+: (propagate clauses a).2.trail.toList := by
  refine propagate_induction (P := fun b => a.trail.toList <+: b.trail.toList) hindexed
    (fun b _ _ l _ hb => ?_) (fun b l t ht hb => ?_) (List.prefix_refl _)
  · show a.trail.toList <+: (b.trail.push l).toList
    rw [Trail.toList_push]
    exact hb.trans (List.prefix_append _ _)
  · obtain ⟨-, rfl, -⟩ := Trail.next?_eq_some ht
    exact hb

/-! ### How propagation ends -/

/-- A visit that ends early has come to a clause that is false. -/
theorem falsified_of_visit {keys : List ClauseKey} {key : ClauseKey} {b : Assignment}
    (h : visit clauses keys a = (some key, b)) :
    key ∈ keys ∧ (clauses.get key).standing b.valuation = .falsified := by
  induction keys generalizing a with
  | nil => cases h
  | cons k keys ih =>
    unfold visit at h
    split at h
    · exact ⟨List.mem_cons_of_mem _ (ih h).1, (ih h).2⟩
    · exact ⟨List.mem_cons_of_mem _ (ih h).1, (ih h).2⟩
    · rename_i hfalse
      obtain ⟨hk, rfl⟩ := Prod.mk.inj h
      cases hk
      exact ⟨List.mem_cons_self, hfalse⟩

/-- Propagation that ends with a clause has come to one that is false, within however many steps. -/
theorem falsified_of_propagateWithin {count : Nat} (hindexed : clauses.Indexed count) {n : Nat}
    {key : ClauseKey} {b : Assignment} (h : propagateWithin clauses n a = (some key, b)) :
    clauses.get key ∈ clauses.all ∧ (clauses.get key).standing b.valuation = .falsified := by
  induction n generalizing a with
  | zero => cases h
  | succ n ih =>
    unfold propagateWithin at h
    split at h
    · cases h
    · split at h
      · rename_i hvisit
        rw [h] at hvisit
        -- the run ends with the first clause that a visit finds false
        have hv := falsified_of_visit hvisit
        exact ⟨hindexed.mem_all hv.1, hv.2⟩
      · exact ih h

/-- A conflict is a clause that is false. -/
theorem falsified_of_propagate {count : Nat} (hindexed : clauses.Indexed count) {key : ClauseKey}
    {b : Assignment} (h : propagate clauses a = (some key, b)) :
    ∃ c ∈ clauses.all, c.standing b.valuation = .falsified :=
  have hb := falsified_of_propagateWithin hindexed h
  ⟨clauses.get key, hb.1, hb.2⟩

/-- A forced literal joins those that wait as its atom leaves those that are open, so there
is as much to come as before. -/
theorem InStep.reach_assign (h : InStep base a) {l : Literal} (hl : a.valuation.Open l.atom) :
    (a.assign l).reach = a.reach := by
  have hopen := Valuation.openCount_assign hl
  have hwait : (a.assign l).trail.pending = a.trail.pending + 1 := by
    rw [← Trail.length_waiting, ← Trail.length_waiting]
    show (a.trail.push l).waiting.length = _
    rw [Trail.waiting_push h.propagated_le, List.length_append, List.length_singleton]
  show (a.valuation.assign l).openCount + _ = a.valuation.openCount + a.trail.pending
  rw [hwait]
  omega

/-- To visit clauses neither lengthens nor shortens what is left to be done, as what is put on the
trail closes an atom. -/
theorem InStep.reach_visit (h : InStep base a) (hbelow : Clause.Below base.size clauses.all)
    {keys : List ClauseKey} (hkeys : ∀ key ∈ keys, clauses.get key ∈ clauses.all) :
    InStep base (visit clauses keys a).2 ∧ (visit clauses keys a).2.reach = a.reach := by
  refine visit_induction (P := fun b => InStep base b ∧ b.reach = a.reach)
    (fun b key hkey l hl hb => ?_) ⟨h, rfl⟩
  have hopen := hb.1.open_of_forces hbelow (hkeys key hkey) hl
  exact ⟨hb.1.assign hopen, (hb.1.reach_assign hopen).trans hb.2⟩

/-- To take a literal from the trail leaves less to be done. -/
theorem reach_dequeue {l : Literal} {t : Trail} (ht : a.trail.next? = some (l, t)) :
    ({ a with trail := t } : Assignment).reach + 1 = a.reach := by
  have hwait := (Trail.next?_eq_some ht).1
  have hlen : a.trail.pending = t.pending + 1 := by
    rw [← Trail.length_waiting, ← Trail.length_waiting, hwait, List.length_cons]
  show a.valuation.openCount + t.pending + 1 = a.valuation.openCount + a.trail.pending
  omega

/-- Propagation is given enough steps: when it meets no conflict, nothing is left waiting. -/
theorem waiting_propagateWithin (h : InStep base a) (hindexed : clauses.Indexed base.size)
    (hbelow : Clause.Below base.size clauses.all) {n : Nat} (hn : a.reach ≤ n) {b : Assignment}
    (hb : propagateWithin clauses n a = (none, b)) : b.trail.waiting = [] := by
  induction n generalizing a with
  | zero =>
    cases hb
    -- nothing can be reached any more, so nothing waits
    have hlen := Trail.length_waiting b.trail
    rw [reach] at hn
    exact List.length_eq_zero_iff.1 (by omega)
  | succ n ih =>
    unfold propagateWithin at hb
    split at hb
    · rename_i hnone
      cases hb
      exact Trail.next?_eq_none_iff.1 hnone
    · rename_i l t ht
      split at hb
      · cases hb
      · rename_i c hc
        have hkeys : ∀ key ∈ clauses.occurrencesOf l.negate, clauses.get key ∈ clauses.all :=
          fun key hkey => hindexed.mem_all hkey
        have hvisit := (h.dequeue ht).reach_visit hbelow hkeys
        rw [hc] at hvisit
        -- the step along the trail lowers the reach by one, and the visit leaves it as it is
        have hstep := reach_dequeue ht
        exact ih hvisit.1 (by rw [hvisit.2]; omega) hb

/-- Propagation that meets no conflict leaves nothing waiting. -/
theorem waiting_propagate (h : InStep base a) (hindexed : clauses.Indexed base.size)
    (hbelow : Clause.Below base.size clauses.all) {b : Assignment}
    (hb : propagate clauses a = (none, b)) : b.trail.waiting = [] :=
  waiting_propagateWithin h hindexed hbelow (Nat.le_refl _) hb

/-! ### Nothing is missed

Propagation looks at a clause when one of its literals has become false, so it finds what is
the matter with a clause as long as it comes about in that way. While the clauses of a
literal are looked at one by one, those that come later may have a flaw with nothing of
theirs waiting. So the invariant of a visit leaves room for the clauses whose keys are still
to come. -/

/-- Something that may be the matter with a clause, under a valuation and the literals that led
to it. A settled clause has no flaw, and a clause gets one only with a literal that denies one
of its own. -/
structure Flaw where
  Has : Valuation → List Literal → Clause → Prop
  unsettled : ∀ {v ls c}, Has v ls c → c.standing v ≠ .settled
  arises : ∀ {v ls c} {l : Literal}, v.Open l.atom → Has (v.assign l) (ls ++ [l]) c →
    Has v ls c ∨ l.negate ∈ c

/-- The flaw of a clause that is false. -/
def Flaw.falsity : Flaw where
  Has v _ c := c.standing v = .falsified
  unsettled h := by
    rw [h]
    nofun
  arises := Clause.falsified_assign

/-- Each clause with the flaw holds a literal whose negation waits on the trail, but for the
clauses of some keys. -/
def Heeds (flaw : Flaw) (clauses : Clauses) (keys : List ClauseKey) (a : Assignment) : Prop :=
  ∀ c ∈ clauses.all, flaw.Has a.valuation a.trail.toList c →
    (∃ l ∈ c, l.negate ∈ a.trail.waiting) ∨ ∃ key ∈ keys, clauses.get key = c

section Heeds

variable {flaw : Flaw} {keys : List ClauseKey}

/-- A literal made true waits itself, so the clauses that get the flaw by it are covered. -/
theorem Heeds.assign (h : Heeds flaw clauses keys a) (hstep : InStep base a) {l : Literal}
    (hl : a.valuation.Open l.atom) : Heeds flaw clauses keys (a.assign l) := by
  intro c hc hflaw
  have hwait : (a.assign l).trail.waiting = a.trail.waiting ++ [l] :=
    Trail.waiting_push hstep.propagated_le l
  have hlist : (a.assign l).trail.toList = a.trail.toList ++ [l] := Trail.toList_push a.trail l
  rw [hlist] at hflaw
  rcases flaw.arises hl hflaw with hold | hnew
  · rcases h c hc hold with ⟨m, hm, hw⟩ | hkey
    · exact Or.inl ⟨m, hm, by rw [hwait]; exact List.mem_append_left _ hw⟩
    · exact Or.inr hkey
  · exact Or.inl ⟨l.negate, hnew, by rw [hwait, Literal.negate_negate]; simp⟩

/-- The key of a clause that is settled need not be among those to come. -/
theorem Heeds.drop {key : ClauseKey} (h : Heeds flaw clauses (key :: keys) a)
    (hsettled : (clauses.get key).standing a.valuation = .settled) :
    Heeds flaw clauses keys a := by
  intro c hc hflaw
  rcases h c hc hflaw with hw | ⟨k, hk, rfl⟩
  · exact Or.inl hw
  · rcases List.mem_cons.1 hk with rfl | hk
    · exact absurd hsettled (flaw.unsettled hflaw)
    · exact Or.inr ⟨k, hk, rfl⟩

/-- Once the clauses of all keys have been visited none of them has the flaw unnoticed. -/
theorem Heeds.visit (h : Heeds flaw clauses keys a) (hstep : InStep base a)
    (hbelow : Clause.Below base.size clauses.all)
    (hkeys : ∀ key ∈ keys, clauses.get key ∈ clauses.all) {b : Assignment}
    (hb : visit clauses keys a = (none, b)) : Heeds flaw clauses [] b := by
  induction keys generalizing a with
  | nil =>
    cases hb
    exact h
  | cons key keys ih =>
    have hrest : ∀ k ∈ keys, clauses.get k ∈ clauses.all :=
      fun k hk => hkeys k (List.mem_cons_of_mem _ hk)
    unfold Assignment.visit at hb
    split at hb
    · rename_i hs
      exact ih (h.drop hs) hstep hrest hb
    · rename_i l hs
      have hopen := hstep.open_of_forces hbelow (hkeys key List.mem_cons_self) hs
      -- the literal that is forced may give other clauses the flaw, and settles this one
      have hsettled : (clauses.get key).standing (a.assign l).valuation = .settled :=
        Clause.settled_of_mem (Clause.forces_spec hs).1 (Valuation.value?_assign_self hopen.lt)
      exact ih ((h.assign hstep hopen).drop hsettled) (hstep.assign hopen) hrest hb
    · cases hb

/-- The clauses that lose the literal they were waiting for are those looked at next. -/
theorem Heeds.dequeue (h : Heeds flaw clauses [] a) (hstep : InStep base a)
    (hindexed : clauses.Indexed base.size) {l : Literal} {t : Trail}
    (ht : a.trail.next? = some (l, t)) :
    Heeds flaw clauses (clauses.occurrencesOf l.negate) { a with trail := t } := by
  intro c hc hflaw
  obtain ⟨hwait, rfl, -⟩ := Trail.next?_eq_some ht
  obtain ⟨m, hm, hw⟩ : ∃ m ∈ c, m.negate ∈ a.trail.waiting := by
    rcases h c hc hflaw with hw | ⟨key, hkey, -⟩
    · exact hw
    · cases hkey
  rw [hwait] at hw
  rcases List.mem_cons.1 hw with e | hw
  · -- it is for `l` that the clause was covered, and then it has a key of `l.negate`
    have hml : m = l.negate := by rw [← e, Literal.negate_negate]
    have hmem : l ∈ a.trail.toList := by
      refine List.mem_of_mem_drop (i := a.trail.propagated) ?_
      show l ∈ a.trail.waiting
      rw [hwait]
      exact List.mem_cons_self
    have hlt : l.atom < base.size := (hstep.fits.isOpen l hmem).lt
    exact Or.inr (hindexed.exists_key hc (hml ▸ hm) hlt)
  · exact Or.inl ⟨m, hm, hw⟩

/-- Propagation leaves no flaw unnoticed, however many steps it takes. -/
theorem Heeds.propagateWithin (h : Heeds flaw clauses [] a) (hstep : InStep base a)
    (hindexed : clauses.Indexed base.size) (hbelow : Clause.Below base.size clauses.all) {n : Nat}
    {b : Assignment} (hb : propagateWithin clauses n a = (none, b)) :
    Heeds flaw clauses [] b := by
  induction n generalizing a with
  | zero =>
    cases hb
    exact h
  | succ n ih =>
    unfold Assignment.propagateWithin at hb
    split at hb
    · cases hb
      exact h
    · rename_i l t ht
      have hkeys : ∀ key ∈ clauses.occurrencesOf l.negate, clauses.get key ∈ clauses.all :=
        fun key hkey => hindexed.mem_all hkey
      split at hb
      · cases hb
      · rename_i c hc
        -- a literal leaves the queue, and the visit looks at the clauses that it was waiting for
        have hheeds := (h.dequeue hstep hindexed ht).visit (hstep.dequeue ht) hbelow hkeys hc
        have hvisit := ((hstep.dequeue ht).reach_visit hbelow hkeys).1
        rw [hc] at hvisit
        exact ih hheeds hvisit hb

/-- **Propagation misses no flaw.** When it ends without a conflict no clause has the flaw. -/
theorem Heeds.not_has (h : Heeds flaw clauses [] a) (hstep : InStep base a)
    (hindexed : clauses.Indexed base.size) (hbelow : Clause.Below base.size clauses.all)
    {b : Assignment} (hb : propagate clauses a = (none, b)) :
    ∀ c ∈ clauses.all, ¬ flaw.Has b.valuation b.trail.toList c := by
  intro c hc hflaw
  rcases h.propagateWithin hstep hindexed hbelow hb c hc hflaw with ⟨l, -, hw⟩ | ⟨key, hkey, -⟩
  · rw [waiting_propagate hstep hindexed hbelow hb] at hw
    cases hw
  · cases hkey

end Heeds

/-- Each clause that is false holds a literal whose negation waits on the trail. -/
def Alert (clauses : Clauses) (a : Assignment) : Prop :=
  ∀ c ∈ clauses.all, c.standing a.valuation = .falsified → ∃ l ∈ c, l.negate ∈ a.trail.waiting

/-- **No conflict is missed.** When propagation ends without a conflict no clause is false. -/
theorem not_falsified_of_propagate (h : Alert clauses a) (hstep : InStep base a)
    (hindexed : clauses.Indexed base.size) (hbelow : Clause.Below base.size clauses.all)
    {b : Assignment} (hb : propagate clauses a = (none, b)) :
    ∀ c ∈ clauses.all, c.standing b.valuation ≠ .falsified :=
  have hheeds : Heeds Flaw.falsity clauses [] a := fun c hc hfalse => Or.inl (h c hc hfalse)
  hheeds.not_has hstep hindexed hbelow hb

end Assignment

end Storyworld
