import Mathlib.Data.List.Nodup
import Storyworld.Proofs.Solver.Solve

namespace Storyworld

/-!
# Propagation is confluent

The order in which clauses are stored and literals stand in them decides which clause
propagation looks at first, and so the order of the trail and the clause at which a conflict
is noticed. It does not decide whether there is a conflict, nor what has a value when there
is none (`confluent_propagate`).

The reason is a notion of literals whose consequences have been drawn: every clause that
they deny a literal of is settled (`Drawn`). Propagation never leaves literals of this kind
that it starts within (`InStep.propagate_within`), and what it ends in is of this kind
(`drawn_of_propagate`), so two runs end within one another.
-/

/-! ### Clauses in another order -/

namespace Clause

/-- The same clauses, but for their order and the order of the literals in each. -/
structure Rearranged (cs ds : List Clause) : Prop where
  forth : ∀ c ∈ cs, ∃ d ∈ ds, c.Perm d
  back : ∀ d ∈ ds, ∃ c ∈ cs, d.Perm c

theorem Rearranged.refl (cs : List Clause) : Rearranged cs cs :=
  ⟨fun c hc => ⟨c, hc, .refl c⟩, fun c hc => ⟨c, hc, .refl c⟩⟩

theorem Rearranged.symm {cs ds : List Clause} (h : Rearranged cs ds) : Rearranged ds cs :=
  ⟨h.back, h.forth⟩

/-- Clauses may be rearranged in two lots. -/
theorem Rearranged.append {cs ds cs' ds' : List Clause} (h : Rearranged cs ds)
    (h' : Rearranged cs' ds') : Rearranged (cs ++ cs') (ds ++ ds') := by
  have hmem : ∀ {es fs es' fs' : List Clause}, (∀ c ∈ es, ∃ d ∈ fs, c.Perm d) →
      (∀ c ∈ es', ∃ d ∈ fs', c.Perm d) → ∀ c ∈ es ++ es', ∃ d ∈ fs ++ fs', c.Perm d := by
    intro es fs es' fs' he he' c hc
    rcases List.mem_append.1 hc with hc | hc
    · obtain ⟨d, hd, hperm⟩ := he c hc
      exact ⟨d, List.mem_append_left _ hd, hperm⟩
    · obtain ⟨d, hd, hperm⟩ := he' c hc
      exact ⟨d, List.mem_append_right _ hd, hperm⟩
  exact ⟨hmem h.forth h'.forth, hmem h.back h'.back⟩

/-- A clause of one literal is stored as it is in either order. -/
theorem Rearranged.mem_singleton {cs ds : List Clause} (h : Rearranged cs ds) {l : Literal}
    (hl : [l] ∈ cs) : [l] ∈ ds := by
  obtain ⟨d, hd, hperm⟩ := h.forth [l] hl
  exact List.singleton_perm.1 hperm ▸ hd

/-- The empty clause stays empty. -/
theorem Rearranged.mem_nil {cs ds : List Clause} (h : Rearranged cs ds) (hnil : [] ∈ cs) :
    [] ∈ ds := by
  obtain ⟨d, hd, hperm⟩ := h.forth [] hnil
  exact List.nil_perm.1 hperm ▸ hd

/-! ### Settled clauses -/

/-- A clause is settled if it is neither false nor forces a literal. -/
theorem settled_iff {v : Valuation} {c : Clause} :
    c.standing v = .settled ↔ c.standing v ≠ .falsified ∧ ∀ l, c.standing v ≠ .forces l := by
  cases c.standing v <;> simp

/-- What a clause forces does not depend on the order of its literals. -/
theorem forces_perm {v : Valuation} {c d : Clause} (hperm : c.Perm d) {l : Literal}
    (h : c.standing v = .forces l) : d.standing v = .forces l := by
  obtain ⟨before, after, rfl, hnone, hm⟩ := standing_eq_forces_iff.1 h
  have hl : l ∈ d := hperm.subset (by simp)
  obtain ⟨before', after', rfl⟩ := List.append_of_mem hl
  -- without `l` the two clauses still have the same literals
  have hrest : (before ++ after).Perm (before' ++ after') :=
    (List.perm_middle.symm.trans (hperm.trans List.perm_middle)).cons_inv
  exact standing_eq_forces_iff.2 ⟨before', after', rfl, hnone, fun m hmem =>
    hm m (hrest.mem_iff.2 hmem)⟩

/-- Whether a clause is settled does not depend on the order of its literals. -/
theorem settled_perm {v : Valuation} {c d : Clause} (hperm : c.Perm d)
    (h : c.standing v = .settled) : d.standing v = .settled := by
  rw [settled_iff] at h ⊢
  refine ⟨fun hfalse => h.1 ?_, fun l hl => h.2 l (forces_perm hperm.symm hl)⟩
  exact standing_eq_falsified_iff.2 fun l hl => standing_eq_falsified_iff.1 hfalse l
    (hperm.mem_iff.1 hl)

/-- A clause that is settled stays so, unless one of its literals is denied. -/
theorem settled_assign {v : Valuation} {c : Clause} {l : Literal} (hl : v.Open l.atom)
    (hn : l.negate ∉ c) (h : c.standing v = .settled) :
    c.standing (v.assign l) = .settled := by
  rw [settled_iff] at h ⊢
  refine ⟨fun hfalse => ?_, fun m hm => h.2 m ?_⟩
  · rcases falsified_assign hl hfalse with hold | hnew
    · exact h.1 hold
    · exact hn hnew
  · obtain ⟨before, after, rfl, hnone, hothers⟩ := standing_eq_forces_iff.1 hm
    have hself : (v.assign l).value? l.atom = some l.positive :=
      Valuation.value?_assign_self hl.lt
    -- the literals of the clause that are open or false are not about the atom of `l`
    have hma : m.atom ≠ l.atom := fun e => by
      rw [e, hself] at hnone
      cases hnone
    refine standing_eq_forces_iff.2 ⟨before, after, rfl, ?_, fun x hx => ?_⟩
    · rwa [Valuation.value?_assign_of_ne v hma] at hnone
    · have hval := hothers x hx
      have hxa : x.atom ≠ l.atom := by
        intro e
        rcases Literal.eq_or_eq_negate e with rfl | rfl
        · rw [hself] at hval
          exact (Bool.not_eq_self _).1 (Option.some.inj hval).symm
        · rcases List.mem_append.1 hx with hx | hx
          · exact hn (List.mem_append_left _ hx)
          · exact hn (List.mem_append_right _ (List.mem_cons_of_mem _ hx))
      rwa [Valuation.value?_assign_of_ne v hxa] at hval

/-- A clause that forces a literal under a valuation and is settled under a later one has its
literal true there. -/
theorem value?_of_forces {v w : Valuation} (hvw : ∀ a b, v.value? a = some b → w.value? a = some b)
    {c : Clause} {l : Literal} (hforces : c.standing v = .forces l)
    (hsettled : c.standing w = .settled) : w.value? l.atom = some l.positive := by
  obtain ⟨before, after, rfl, -, hm⟩ := standing_eq_forces_iff.1 hforces
  have hothers : ∀ m ∈ before ++ after, w.value? m.atom = some (!m.positive) :=
    fun m hmem => hvw _ _ (hm m hmem)
  rcases value?_cases w l with h | h | h
  · exact h
  · -- with `l` false every literal of the clause is
    have hfalse : standing w (before ++ l :: after) = .falsified := by
      refine standing_eq_falsified_iff.2 fun m hmem => ?_
      rcases List.mem_append.1 hmem with hmem | hmem
      · exact hothers m (List.mem_append_left _ hmem)
      · rcases List.mem_cons.1 hmem with rfl | hmem
        · exact h
        · exact hothers m (List.mem_append_right _ hmem)
    rw [hfalse] at hsettled
    cases hsettled
  · have hforces' : standing w (before ++ l :: after) = .forces l :=
      standing_eq_forces_iff.2 ⟨before, after, rfl, h, hothers⟩
    rw [hforces'] at hsettled
    cases hsettled

/-- Some literal of the clause is denied by one of the literals. -/
def Touched (ls : List Literal) (c : Clause) : Prop := ∃ m ∈ c, m.negate ∈ ls

/-- More literals touch more clauses. -/
theorem Touched.mono {ls ms : List Literal} (hsub : ls ⊆ ms) {c : Clause} (h : c.Touched ls) :
    c.Touched ms := by
  obtain ⟨m, hm, hn⟩ := h
  exact ⟨m, hm, hsub hn⟩

/-- Whether a clause is touched does not depend on the order of its literals. -/
theorem Touched.perm {ls : List Literal} {c d : Clause} (hperm : c.Perm d) (h : c.Touched ls) :
    d.Touched ls := by
  obtain ⟨m, hm, hn⟩ := h
  exact ⟨m, hperm.subset hm, hn⟩

end Clause

/-! ### Literals in another order -/

namespace Valuation

/-- Literals of different atoms may be made true in either order. -/
theorem assign_comm (v : Valuation) {l m : Literal} (h : l.atom ≠ m.atom) :
    (v.assign l).assign m = (v.assign m).assign l := Array.setIfInBounds_comm _ _ h

/-- Literals of different atoms can be made true in any order. -/
theorem assignAll_perm {v : Valuation} {ls ms : List Literal} (hperm : ls.Perm ms)
    (h : (ls.map Literal.atom).Nodup) : v.assignAll ls = v.assignAll ms := by
  induction hperm generalizing v with
  | nil => rfl
  | cons l _ ih => exact ih (List.nodup_cons.1 h).2
  | swap l m ls =>
    -- two assignments may be swapped, as they are of different atoms
    have hne : m.atom ≠ l.atom := by
      intro e
      refine (List.nodup_cons.1 h).1 ?_
      rw [e]
      exact List.mem_cons_self
    rw [assignAll_cons, assignAll_cons, assignAll_cons, assignAll_cons, assign_comm v hne]
  | trans hlm _ ih ih' =>
    rw [ih h, ih' ((hlm.map Literal.atom).nodup_iff.1 h)]

/-- Literals that fit and are within one another are the same in another order. -/
theorem Fits.perm_of_subset {v : Valuation} {ls ms : List Literal} (hls : v.Fits ls)
    (hms : v.Fits ms) (hto : ls ⊆ ms) (hback : ms ⊆ ls) : ls.Perm ms :=
  (List.perm_ext_iff_of_nodup (List.Nodup.of_map _ hls.distinct)
    (List.Nodup.of_map _ hms.distinct)).2 fun _ => ⟨fun h => hto h, fun h => hback h⟩

end Valuation

namespace Assignment

variable {clauses clauses' : Clauses} {base : Valuation} {a a' b b' : Assignment}
  {ls ms : List Literal}

/-- What has a value has it too where more literals were made true. -/
theorem InStep.value?_of_subset (ha : InStep base a) (hms : base.Fits ms)
    (hsub : a.trail.toList ⊆ ms) {x : Atom} {v : Bool} (hx : a.valuation.value? x = some v) :
    (base.assignAll ms).value? x = some v := by
  rw [ha.valuation_eq] at hx
  rcases Valuation.value?_assignAll_cases hx with hbase | hmem
  · -- the literals that fit are about other atoms than those with a value
    have hnot : x ∉ ms.map Literal.atom := by
      intro hmem
      obtain ⟨m, hm, rfl⟩ := List.mem_map.1 hmem
      have hnone := (hms.isOpen m hm).value?
      rw [hbase] at hnone
      cases hnone
    rw [Valuation.value?_assignAll_of_notMem hnot, hbase]
  · exact Valuation.value?_assignAll_of_mem hms (hsub hmem)

/-- A literal that has no value and is true once some literals are is one of them. -/
theorem InStep.mem_of_value? (ha : InStep base a) {l : Literal}
    (hnone : a.valuation.value? l.atom = none)
    (htrue : (base.assignAll ms).value? l.atom = some l.positive) : l ∈ ms := by
  rcases Valuation.value?_assignAll_cases htrue with hbase | hmem
  · rw [ha.value?_of_base hbase] at hnone
    cases hnone
  · exact hmem

/-! ### Consequences that have been drawn -/

/-- Every clause that the literals deny a literal of is settled once they are true. -/
def Drawn (cs : List Clause) (base : Valuation) (ls : List Literal) : Prop :=
  ∀ c ∈ cs, c.Touched ls → c.standing (base.assignAll ls) = .settled

/-- Whether consequences have been drawn does not depend on the order of clauses and literals. -/
theorem Drawn.rearranged {cs ds : List Clause} (h : Drawn cs base ls)
    (hsame : Clause.Rearranged cs ds) : Drawn ds base ls := by
  intro d hd htouched
  obtain ⟨c, hc, hperm⟩ := hsame.back d hd
  exact Clause.settled_perm hperm.symm (h c hc (htouched.perm hperm))

/-- Nor does it depend on the order in which the literals were made true. -/
theorem Drawn.perm {cs : List Clause} {ls ms : List Literal} (h : Drawn cs base ls)
    (hperm : ls.Perm ms) (hdistinct : (ls.map Literal.atom).Nodup) : Drawn cs base ms := by
  intro c hc htouched
  rw [← Valuation.assignAll_perm hperm hdistinct]
  exact h c hc (htouched.mono hperm.symm.subset)

/-! ### Staying within -/

/-- As long as the clauses looked at are touched by literals whose consequences have been drawn,
a visit meets no conflict and stays within these literals. -/
theorem InStep.visit_within (ha : InStep base a) (hbelow : Clause.Below base.size clauses.all)
    (hms : base.Fits ms) (hdrawn : Drawn clauses.all base ms) (hsub : a.trail.toList ⊆ ms)
    {keys : List ClauseKey} (hkeys : ∀ key ∈ keys, clauses.get key ∈ clauses.all)
    (htouched : ∀ key ∈ keys, (clauses.get key).Touched ms) :
    ∃ b, visit clauses keys a = (none, b) ∧ InStep base b ∧ b.trail.toList ⊆ ms := by
  induction keys generalizing a with
  | nil => exact ⟨a, rfl, ha, hsub⟩
  | cons key keys ih =>
    have hkeys' : ∀ k ∈ keys, clauses.get k ∈ clauses.all :=
      fun k hk => hkeys k (List.mem_cons_of_mem _ hk)
    have htouched' : ∀ k ∈ keys, (clauses.get k).Touched ms :=
      fun k hk => htouched k (List.mem_cons_of_mem _ hk)
    have hsettled := hdrawn _ (hkeys key List.mem_cons_self) (htouched key List.mem_cons_self)
    have hle : ∀ x v, a.valuation.value? x = some v → (base.assignAll ms).value? x = some v :=
      fun x v => ha.value?_of_subset hms hsub
    unfold visit
    split
    · exact ih ha hsub hkeys' htouched'
    · rename_i l hl
      -- what the clause forces now is true in the end
      have hmem : l ∈ ms := ha.mem_of_value? (Clause.forces_spec hl).2
        (Clause.value?_of_forces hle hl hsettled)
      refine ih (ha.assign (ha.open_of_forces hbelow (hkeys key List.mem_cons_self) hl)) ?_
        hkeys' htouched'
      rw [show (a.assign l).trail.toList = a.trail.toList ++ [l] from Trail.toList_push a.trail l]
      exact List.append_subset.2 ⟨hsub, fun m hm => List.mem_singleton.1 hm ▸ hmem⟩
    · rename_i hfalse
      -- a clause that is false stays so, and this one is settled in the end
      rw [Clause.standing_eq_falsified_iff] at hfalse
      have hfalse' := Clause.standing_eq_falsified_iff.2 fun m hm => hle _ _ (hfalse m hm)
      rw [hfalse'] at hsettled
      cases hsettled

/-- Propagation that begins within literals whose consequences have been drawn stays within them,
and meets no conflict. -/
theorem InStep.propagateWithin_within (ha : InStep base a) (hindexed : clauses.Indexed base.size)
    (hbelow : Clause.Below base.size clauses.all) (hms : base.Fits ms)
    (hdrawn : Drawn clauses.all base ms) (hsub : a.trail.toList ⊆ ms) (n : Nat) :
    ∃ b, propagateWithin clauses n a = (none, b) ∧ InStep base b ∧ b.trail.toList ⊆ ms := by
  induction n generalizing a with
  | zero => exact ⟨a, rfl, ha, hsub⟩
  | succ n ih =>
    unfold propagateWithin
    split
    · exact ⟨a, rfl, ha, hsub⟩
    · rename_i l t ht
      obtain ⟨hwait, rfl, -⟩ := Trail.next?_eq_some ht
      have hl : l ∈ ms := by
        refine hsub (List.mem_of_mem_drop (i := a.trail.propagated) ?_)
        show l ∈ a.trail.waiting
        rw [hwait]
        exact List.mem_cons_self
      -- the clauses looked at are those with the negation of `l`
      have hkeys : ∀ key ∈ clauses.occurrencesOf l.negate, clauses.get key ∈ clauses.all :=
        fun key hkey => hindexed.mem_all hkey
      have htouched : ∀ key ∈ clauses.occurrencesOf l.negate, (clauses.get key).Touched ms := by
        intro key hkey
        obtain ⟨-, c, hc, hmem⟩ := (hindexed _ _).1 hkey
        rw [Clauses.get_of_mem_keyed hc]
        exact ⟨l.negate, hmem, by rwa [Literal.negate_negate]⟩
      obtain ⟨b, hb, hstep, hsub'⟩ :=
        (ha.dequeue ht).visit_within hbelow hms hdrawn hsub hkeys htouched
      rw [hb]
      exact ih hstep hsub'

/-- Propagation that starts within literals whose consequences have been drawn stays within
them, and meets no conflict. -/
theorem InStep.propagate_within (ha : InStep base a) (hindexed : clauses.Indexed base.size)
    (hbelow : Clause.Below base.size clauses.all) (hms : base.Fits ms)
    (hdrawn : Drawn clauses.all base ms) (hsub : a.trail.toList ⊆ ms) :
    ∃ b, Assignment.propagate clauses a = (none, b) ∧ InStep base b ∧ b.trail.toList ⊆ ms :=
  ha.propagateWithin_within hindexed hbelow hms hdrawn hsub a.reach

/-! ### Drawing every consequence -/

/-- The flaw of a clause that is not settled although one of its literals is denied. -/
def Flaw.loose : Flaw where
  Has v ls c := c.Touched ls ∧ c.standing v ≠ .settled
  unsettled h := h.2
  arises := by
    intro v ls c l hl h
    by_cases hn : l.negate ∈ c
    · exact Or.inr hn
    · refine Or.inl ⟨?_, fun hsettled => h.2 (Clause.settled_assign hl hn hsettled)⟩
      obtain ⟨m, hm, hmem⟩ := h.1
      rcases List.mem_append.1 hmem with hmem | hmem
      · exact ⟨m, hm, hmem⟩
      · -- it is not `l` that denies a literal of the clause
        refine absurd hm ?_
        rwa [← Literal.negate_negate m, List.mem_singleton.1 hmem]

/-- Where propagation ends without a conflict all consequences have been drawn. -/
theorem drawn_of_propagate (h : Heeds Flaw.loose clauses [] a) (ha : InStep base a)
    (hindexed : clauses.Indexed base.size) (hbelow : Clause.Below base.size clauses.all)
    (hb : propagate clauses a = (none, b)) : Drawn clauses.all base b.trail.toList := by
  have hstep := ha.propagate hindexed hbelow
  rw [hb] at hstep
  intro c hc htouched
  rw [← hstep.valuation_eq]
  by_cases hsettled : c.standing b.valuation = .settled
  · exact hsettled
  · exact absurd ⟨htouched, hsettled⟩ (h.not_has ha hindexed hbelow hb c hc)

/-- **Propagation is confluent.** Over rearranged clauses and from the same literals, one run
meets a conflict exactly when the other does, and without one they make the same literals
true. -/
theorem confluent_propagate (hsame : Clause.Rearranged clauses.all clauses'.all)
    (hindexed : clauses.Indexed base.size) (hindexed' : clauses'.Indexed base.size)
    (hbelow : Clause.Below base.size clauses.all) (hbelow' : Clause.Below base.size clauses'.all)
    (ha : InStep base a) (ha' : InStep base a') (hheeds : Heeds Flaw.loose clauses [] a)
    (hheeds' : Heeds Flaw.loose clauses' [] a') (hperm : a.trail.toList.Perm a'.trail.toList)
    (hb : propagate clauses a = (none, b)) :
    ∃ b', propagate clauses' a' = (none, b') ∧ b.trail.toList.Perm b'.trail.toList := by
  have hstep := ha.propagate hindexed hbelow
  rw [hb] at hstep
  have hdrawn := drawn_of_propagate hheeds ha hindexed hbelow hb
  have hmore : a.trail.toList ⊆ b.trail.toList := by
    have := (prefix_propagate (a := a) hindexed).subset
    rwa [hb] at this
  -- the second run stays within the end of the first
  obtain ⟨b', hb', hstep', hsub⟩ := ha'.propagate_within hindexed' hbelow' hstep.fits
    (hdrawn.rearranged hsame) (List.Subset.trans hperm.symm.subset hmore)
  have hdrawn' := drawn_of_propagate hheeds' ha' hindexed' hbelow' hb'
  have hmore' : a'.trail.toList ⊆ b'.trail.toList := by
    have := (prefix_propagate (a := a') hindexed').subset
    rwa [hb'] at this
  -- and so the first stays within the end of the second
  obtain ⟨b'', hb'', -, hsub'⟩ := ha.propagate_within hindexed hbelow hstep'.fits
    (hdrawn'.rearranged hsame.symm) (List.Subset.trans hperm.subset hmore')
  rw [hb] at hb''
  obtain ⟨-, rfl⟩ := Prod.mk.inj hb''
  exact ⟨b', hb', hstep.fits.perm_of_subset hstep'.fits hsub' hsub⟩

/-! ### Assuming the same literals -/

/-- Literals that are all true once some literals are can be assumed within these. -/
theorem InStep.assume_within (ha : InStep base a) (hms : base.Fits ms)
    (hsub : a.trail.toList ⊆ ms) (hlt : ∀ l ∈ ls, l.atom < base.size)
    (htrue : ∀ l ∈ ls, (base.assignAll ms).value? l.atom = some l.positive) :
    ∃ b, Assignment.assume ls a = (true, b) ∧ b.trail.toList ⊆ ms := by
  induction ls generalizing a with
  | nil => exact ⟨a, rfl, hsub⟩
  | cons l ls ih =>
    have hlt' : ∀ m ∈ ls, m.atom < base.size := fun m hm => hlt m (List.mem_cons_of_mem _ hm)
    have htrue' := fun m hm => htrue m (List.mem_cons_of_mem _ hm)
    have hl := htrue l List.mem_cons_self
    unfold Assignment.assume
    split
    · rename_i hnone
      have hopen : a.valuation.Open l.atom :=
        Valuation.open_of_value? (by rw [ha.size]; exact hlt l List.mem_cons_self) hnone
      refine ih (ha.assign hopen) ?_ hlt' htrue'
      rw [show (a.assign l).trail.toList = a.trail.toList ++ [l] from Trail.toList_push a.trail l]
      exact List.append_subset.2 ⟨hsub, fun m hm =>
        List.mem_singleton.1 hm ▸ ha.mem_of_value? hnone hl⟩
    · rename_i v hv
      -- a value that `l` has already is the one it has in the end
      have hpos : v = l.positive := by
        have := ha.value?_of_subset hms hsub hv
        rw [hl] at this
        exact (Option.some.inj this).symm
      rw [if_pos hpos]
      exact ih ha hsub hlt' htrue'

/-- The same literals in another order can be assumed as well, with the same effect. -/
theorem confluent_assume (hls : ∀ l ∈ ls, l.atom < base.size) (hsame : ∀ l, l ∈ ls ↔ l ∈ ms)
    (ha : assume ls ⟨base, {}⟩ = (true, a)) :
    ∃ a', assume ms ⟨base, {}⟩ = (true, a') ∧ a.trail.toList.Perm a'.trail.toList := by
  have hms : ∀ l ∈ ms, l.atom < base.size := fun l hl => hls l ((hsame l).2 hl)
  have hstart := inStep_empty base
  have hstep := hstart.assume hls
  have hvals := value?_of_assume_eq_true hstart hls (by rw [ha])
  rw [ha] at hstep hvals
  -- each run stays within the other, so the trails have the same literals
  obtain ⟨a', ha', hsub⟩ := hstart.assume_within hstep.fits (by simp [Trail.toList]) hms
    fun l hl => hstep.valuation_eq ▸ hvals l ((hsame l).2 hl)
  have hstep' := hstart.assume hms
  have hvals' := value?_of_assume_eq_true hstart hms (by rw [ha'])
  rw [ha'] at hstep' hvals'
  obtain ⟨a'', ha'', hsub'⟩ := hstart.assume_within hstep'.fits (by simp [Trail.toList]) hls
    fun l hl => hstep'.valuation_eq ▸ hvals' l ((hsame l).1 hl)
  rw [ha] at ha''
  obtain ⟨-, rfl⟩ := Prod.mk.inj ha''
  exact ⟨a', ha', hstep.fits.perm_of_subset hstep'.fits hsub' hsub⟩

end Assignment

end Storyworld
