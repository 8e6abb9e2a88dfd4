import Storyworld.Proofs.World.Typing

namespace Storyworld

/-!
# Calls end

A call calls the predicates that its own is related to, and a cycle of relations leads back to it.
`callWithin` has a bound on how deep such calls nest, and lets the relations of a call be where it is
used up. `callUpTo` has nothing to show there, so calls that would nest for ever have nothing to show
at any depth; it also notes each predicate whose relations it goes through. From some depth on the two
are the same (`callsFollow`), and so calls end (`Typed.ends_callUpTo`).
-/

namespace Grounding

open Action KnowledgeBase

variable {ρ α β : Type}

/-! ### The recursion without a bound -/

/-- What is done with a grounding and a list of predicates, if there is something to show for it. -/
abbrev Noting (ρ : Type) := StateT (Grounding ρ × List PredicateId) Option

/-- An action that notes nothing. -/
def plainly (act : EStateM Error (Grounding ρ) α) : ExceptT Error (Noting ρ) α :=
  fun (g, noted) => some (answer act g, stateAfter act g, noted)

def note (p : PredicateId) : Noting ρ Unit := fun (g, noted) => some ((), g, p :: noted)

/-- The atom of a call, and whether the call is new. Then its arguments are in the domain from now
on, and its relations are still to be gone through. -/
def fetch (p : PredicateId) (args : Arguments) : EStateM Error (Grounding ρ) (Atom × Bool) := do
  onBase (checkArguments p args)
  match ((← get).base.predicate p).domain.get? args with
  | some atom => return (atom, false)
  | none => return (← enter p args, true)

/-- The relations of a call, gone through with any way to make the calls. -/
def relateWith (call : PredicateId → ExceptT Error (Noting ρ) Atom) (p : PredicateId)
    (args : Arguments) (atom : Atom) : ExceptT Error (Noting ρ) Unit := do
  let this := Literal.pos atom
  ((← plainly get).base.related .generalization p).forM fun g => do
    let general ← call g
    plainly (assert (.implication this (Literal.pos general)))
  ((← plainly get).base.related .strong p).forM fun g => do
    let head ← call g
    plainly (assert (.rule head [this]))
    ((← plainly get).base.strongSpecializations g).forM fun specific => do
      if specific ≠ p && (← plainly get).base.admits specific args then
        let _ ← call specific
  ((← plainly get).base.related .negative p).forM fun g => do
    if (← plainly get).base.admits g args then
      let other ← call g
      plainly (onSolver (Solver.inconsistent this (Literal.pos other)))
  plainly (supportExistentials p args atom)

/-- Calls a predicate, and the predicates that this leads to, where calls nest less than `depth`
deep. -/
def callUpTo (args : Arguments) : Nat → PredicateId → ExceptT Error (Noting ρ) Atom
  | 0, _ => fun _ => none
  | depth + 1, p => (do
    match ← (plainly (fetch p args)).run with
    | .error e => return .error e
    | .ok (atom, false) => return .ok atom
    | .ok (atom, true) =>
      note p
      match ← (relateWith (callUpTo args depth) p args atom).run with
      | .ok _ => return .ok atom
      | .error e => (plainly (do withdraw p args e; return atom)).run : Noting ρ (Except Error Atom))

variable {g t u : Grounding ρ} {p q : Nat} {args : Arguments} {a depth : Nat} {e : Error}
  {noted after : List PredicateId}

/-! ### The two recursions, call by call -/

/-- A call fetches its atom, and goes through the relations only where the atom is new. -/
theorem callWithin_eq (depth : Nat) (args : Arguments) (p : PredicateId) :
    callWithin (ρ := ρ) depth args p = (do
      let (atom, new) ← fetch p args
      if new then
        match depth with
        | 0 => return atom
        | depth + 1 =>
          tryCatch (relateCall (callWithin depth args) p args atom) (withdraw p args)
          return atom
      else return atom) := by
  unfold callWithin fetch
  simp only [bind_assoc]
  refine congrArg _ (funext fun _ => congrArg _ (funext fun s => ?_))
  cases (s.base.predicate p).domain.get? args with
  | some atom => rfl
  | none =>
    refine Eq.trans ?_ (bind_assoc _ _ _).symm
    -- the bound matters only where the call is new
    cases depth <;> rfl

theorem bind_of_some {x : Noting ρ α} {f : α → Noting ρ β} {s r : Grounding ρ × List PredicateId}
    {v : α} (h : x s = some (v, r)) : (x >>= f) s = f v r := by
  show Option.bind (x s) _ = _
  rw [h]
  rfl

theorem plainly_of_ok {act : EStateM Error (Grounding ρ) α} {v : α} (h : act g = .ok v t) :
    plainly act (g, noted) = some (.ok v, t, noted) := by
  show some (answer act g, stateAfter act g, noted) = _
  rw [answer, stateAfter, h]

theorem plainly_of_error {act : EStateM Error (Grounding ρ) α} (h : act g = .error e t) :
    plainly act (g, noted) = some (.error e, t, noted) := by
  show some (answer act g, stateAfter act g, noted) = _
  rw [answer, stateAfter, h]

/-- Arguments that are refused make no call. -/
theorem ends_callUpTo_of_error (h : fetch p args g = .error e t) :
    Ends (fun depth => callUpTo args depth p (g, noted)) (.error e, t, noted) :=
  Ends.of_succ (ends_of_forall fun _ => bind_of_some (plainly_of_error h))

/-- A call that was made before has no relations to go through. -/
theorem ends_callUpTo_of_known (h : fetch p args g = .ok (a, false) t) :
    Ends (fun depth => callUpTo args depth p (g, noted)) (.ok a, t, noted) :=
  Ends.of_succ (ends_of_forall fun _ => bind_of_some (plainly_of_ok h))

/-- A new call is noted and goes through its relations, one deeper than it is itself. It is withdrawn
where they are refused. -/
theorem ends_callUpTo_of_new {outcome : Except Error Unit} (h : fetch p args g = .ok (a, true) t) :
    Ends (fun depth => relateWith (callUpTo args depth) p args a (t, p :: noted))
        (outcome, u, after) →
      Ends (fun depth => callUpTo args depth p (g, noted))
        (match outcome with
          | .ok _ => (.ok a, u, after)
          | .error e => (.error e, { u with base := u.base.withdraw p args }, after)) := by
  rintro ⟨enough, hrelate⟩
  have hnote : note p (t, noted) = some ((), t, p :: noted) := rfl
  refine Ends.of_succ ⟨enough, fun depth hdepth => ?_⟩
  refine (bind_of_some (plainly_of_ok h)).trans ((bind_of_some hnote).trans
    ((bind_of_some (hrelate depth hdepth)).trans ?_))
  cases outcome <;> rfl

/-! ### One follows the other -/

/-- The predicates that were noted have been called, each was noted once, and what predicates
remember is well typed. -/
structure Underway (args : Arguments) (g : Grounding ρ) (noted : List PredicateId) : Prop where
  typed : Typed g
  nodup : noted.Nodup
  called : ∀ q ∈ noted, g.base.Called q args

/-- With enough depth the recursion without a bound does what the other action does, and more calls
have been made then. Where something is refused, it is only left that no predicate was noted
twice. -/
def Follows (args : Arguments) (free : Nat → ExceptT Error (Noting ρ) α)
    (act : EStateM Error (Grounding ρ) α) (g : Grounding ρ) (noted : List PredicateId)
    (Q : α → KnowledgeBase → Prop) : Prop :=
  After act g
    (fun v t => ∃ after, Ends (fun depth => free depth (g, noted)) (.ok v, t, after) ∧
      Underway args t after ∧ Grows g.base t.base ∧ Q v t.base)
    fun e t => ∃ after, Ends (fun depth => free depth (g, noted)) (.error e, t, after) ∧ after.Nodup

variable {free : Nat → ExceptT Error (Noting ρ) α} {act : EStateM Error (Grounding ρ) α}
  {Q : α → KnowledgeBase → Prop}

theorem follows_pure {v : α} (h : Underway args g noted) (hv : Q v g.base) :
    Follows args (fun _ => pure v) (pure v) g noted Q :=
  after_pure.2 ⟨noted, ends_of_forall fun _ => rfl, h, Grows.refl _, hv⟩

/-- An action that notes nothing, and leaves the knowledge base as it is. -/
theorem follows_plainly (h : Underway args g noted)
    (hact : After act g (fun v t => Typed t ∧ t.base = g.base ∧ Q v t.base) fun _ _ => True) :
    Follows args (fun _ => plainly act) act g noted Q := by
  unfold Follows After at *
  cases hres : act g with
  | ok v t =>
    rw [hres] at hact
    obtain ⟨ht, hbase, hv⟩ := hact
    exact ⟨noted, ends_of_forall fun _ => plainly_of_ok hres, ⟨ht, h.nodup, hbase ▸ h.called⟩,
      hbase ▸ Grows.refl _, hv⟩
  | error e t => exact ⟨noted, ends_of_forall fun _ => plainly_of_error hres, h.nodup⟩

theorem follows_get {freeNext : Nat → Grounding ρ → ExceptT Error (Noting ρ) α}
    {next : Grounding ρ → EStateM Error (Grounding ρ) α}
    (h : Follows args (fun depth => freeNext depth g) (next g) g noted Q) :
    Follows args (fun depth => plainly get >>= freeNext depth) (get >>= next) g noted Q := h

/-- One step follows after another. -/
theorem Follows.bind (h : Follows args free act g noted Q)
    {freeNext : Nat → α → ExceptT Error (Noting ρ) β} {next : α → EStateM Error (Grounding ρ) β}
    {R : β → KnowledgeBase → Prop}
    (hnext : ∀ v t after, Underway args t after → Grows g.base t.base → Q v t.base →
      Follows args (fun depth => freeNext depth v) (next v) t after R) :
    Follows args (fun depth => free depth >>= freeNext depth) (act >>= next) g noted R := by
  refine after_bind.2 (After.mono h (fun v t ⟨after, hfree, ht, hgrows, hv⟩ => ?_)
    fun e t ⟨after, hfree, hafter⟩ => ⟨after, hfree.bind (ends_of_forall fun _ => rfl), hafter⟩)
  refine (hnext v t after ht hgrows hv).mono
    (fun w u ⟨last, hlast, hu, hgrows', hw⟩ => ?_) fun e u ⟨last, hlast, hnodup⟩ => ?_
  · exact ⟨last, hfree.bind hlast, hu, hgrows.trans hgrows', hw⟩
  · exact ⟨last, hfree.bind hlast, hnodup⟩

/-- So do the steps of a loop, one after the other. -/
theorem follows_forM {freely : Nat → β → ExceptT Error (Noting ρ) PUnit}
    {f : β → EStateM Error (Grounding ρ) PUnit} {xs : List β} (h : Underway args g noted)
    (hstep : ∀ x ∈ xs, ∀ t after, Underway args t after → Grows g.base t.base →
      Follows args (fun depth => freely depth x) (f x) t after fun _ _ => True) :
    Follows args (fun depth => xs.forM (freely depth)) (xs.forM f) g noted fun _ _ => True := by
  induction xs generalizing g noted with
  | nil => exact follows_pure h trivial
  | cons x xs ih =>
    refine (hstep x List.mem_cons_self g noted h (Grows.refl _)).bind fun _ t after ht hgrows _ => ?_
    exact ih ht fun y hy u last hu hgrows' =>
      hstep y (List.mem_cons_of_mem _ hy) u last hu (hgrows.trans hgrows')

/-! ### The relations of a call -/

theorem follows_assert (h : Underway args g noted) (c : Constraint) :
    Follows args (fun _ => plainly (assert c)) (assert c) g noted fun _ _ => True :=
  follows_plainly h ((preserves_typed_assert c g ⟨h.typed, rfl⟩).mono
    (fun _ _ ht => ⟨ht.1, ht.2, trivial⟩) fun _ _ _ => trivial)

/-- The calls of other predicates on the arguments follow each other, where at most so many are
missing. -/
def CallsFollow (args : Arguments) (depth : Nat)
    (free : Nat → PredicateId → ExceptT Error (Noting ρ) Atom)
    (call : PredicateId → EStateM Error (Grounding ρ) Atom) : Prop :=
  ∀ (q : Nat) (g : Grounding ρ) noted, Underway args g noted → q < g.base.predicates.size →
    g.base.missing args ≤ depth →
      Follows args (fun bound => free bound q) (call q) g noted fun _ _ => True

/-- A call leads to calls of the predicates that its own is related to, in the same order. -/
theorem CallsFollow.relateCall {free : Nat → PredicateId → ExceptT Error (Noting ρ) Atom}
    {call : PredicateId → EStateM Error (Grounding ρ) Atom} (hcall : CallsFollow args depth free call)
    (h : Underway args g noted) (hdepth : g.base.missing args ≤ depth) (p : PredicateId)
    (atom : Atom) :
    Follows args (fun bound => relateWith (free bound) p args atom)
      (Grounding.relateCall call p args atom) g noted fun _ _ => True := by
  -- whatever is related exists, and no more calls are missing later on
  have hrelated : ∀ {kind : RelationKind} {q t after}, Underway args t after →
      Grows g.base t.base → ⟨kind, p, q⟩ ∈ g.base.relations →
      Follows args (fun bound => free bound q) (call q) t after fun _ _ => True := by
    intro kind q t after ht hgrows hr
    exact hcall q t after ht (hgrows.size ▸ (h.typed.orderly.relations _ hr).2)
      (Nat.le_trans (hgrows.missing args) hdepth)
  have hmem : ∀ {kind : RelationKind} {t : Grounding ρ} {q : Nat}, Grows g.base t.base →
      q ∈ t.base.related kind p → ⟨kind, p, q⟩ ∈ g.base.relations := by
    intro kind t q hgrows hq
    exact hgrows.relations ▸ mem_related.1 hq
  unfold relateWith
  refine follows_get ((follows_forM h fun q hq t after ht hgrows => ?_).bind
    fun _ t₁ after₁ ht₁ hgrows₁ _ => ?_)
  · exact (hrelated ht hgrows (hmem (Grows.refl _) hq)).bind fun _ u last hu _ _ =>
      follows_assert hu _
  refine follows_get ((follows_forM ht₁ fun q hq t after ht hgrows => ?_).bind
    fun _ t₂ after₂ ht₂ hgrows₂ _ => ?_)
  · have hgrowst := hgrows₁.trans hgrows
    refine (hrelated ht hgrowst (hmem hgrows₁ hq)).bind fun _ u last hu hgrowsu _ => ?_
    refine (follows_assert hu _).bind fun _ v lastv hv hgrowsv _ => follows_get ?_
    have hgrowsgv := hgrowst.trans (hgrowsu.trans hgrowsv)
    refine follows_forM hv fun specific hspecific x lastx hx hgrowsx => follows_get ?_
    have hgrowsgx := hgrowsgv.trans hgrowsx
    split
    · have hr := mem_strongSpecializations.1 hspecific
      have hlt := (hv.typed.orderly.relations _ hr).1
      exact (hcall specific x lastx hx (hgrowsx.size ▸ hlt)
        (Nat.le_trans (hgrowsgx.missing args) hdepth)).bind fun _ y lasty hy _ _ =>
          follows_pure hy trivial
    · exact follows_pure hx trivial
  have hgrowss := hgrows₁.trans hgrows₂
  refine follows_get ((follows_forM ht₂ fun q hq t after ht hgrows => follows_get ?_).bind
    fun _ t₃ after₃ ht₃ _ _ => ?_)
  · split
    · exact (hrelated ht (hgrowss.trans hgrows) (hmem hgrowss hq)).bind fun _ u last hu _ _ =>
        follows_assert hu _
    · exact follows_pure ht trivial
  · have hsupports := preserves_supportExistentials preserves_typed_assert p args atom t₃
      ⟨ht₃.typed, rfl⟩
    exact follows_plainly ht₃ (hsupports.mono (fun _ _ hu => ⟨hu.1, hu.2, trivial⟩)
      fun _ _ _ => trivial)

/-! ### Calls -/

/-- What is fetched is the atom of the call, and it is new if the call was not made before. -/
theorem Typed.after_fetch (h : Typed g) (hp : p < g.base.predicates.size) (args : Arguments) :
    After (fetch p args) g
      (fun x t => Typed t ∧ Grows g.base t.base ∧ t.base.atom? p args = some x.1 ∧
        (x.2 = true → g.base.atom? p args = none))
      fun _ _ => True := by
  refine after_bind.2 (after_onBase.2 ((after_checkArguments h.orderly.toPlaced
    (h.orderly.signatures p hp)).mono (fun _ kb ⟨henrolls, hadmits⟩ => ?_) fun _ _ _ => trivial))
  have ht : Typed { g with base := kb } :=
    h.develops henrolls.develops (h.orderly.registers henrolls.toRegisters)
  refine after_bind.2 (after_get.2 ?_)
  -- after the check the arguments are remembered, or are entered with an atom of their own
  cases hget : kb.atom? p args with
  | some atom =>
    rw [show (kb.predicate p).domain.get? args = some atom from hget]
    exact after_pure.2 ⟨ht, henrolls.grows, hget, nofun⟩
  | none =>
    rw [show (kb.predicate p).domain.get? args = none from hget]
    have henter := (typedUpkeep ρ kb).after_enter (x := ()) ⟨ht, Keeps.refl kb⟩
      (henrolls.grows.size ▸ hp) hget hadmits trivial
    refine after_bind.2 (henter.imp fun a t ⟨hentered, hgrows, ha, _⟩ => after_pure.2 ?_)
    refine ⟨hentered.1, henrolls.grows.trans hgrows, ha, fun _ => ?_⟩
    exact Option.isNone_iff_eq_none.1 (henrolls.grows.isNone (by rw [hget]; rfl))

theorem Underway.grows (h : Underway args g noted) (ht : Typed t) (hgrows : Grows g.base t.base) :
    Underway args t noted :=
  ⟨ht, h.nodup, fun q hq => (h.called q hq).imp fun b hb => hgrows.atoms q args b hb⟩

/-- What was called before, and what is refused at once, is the same in both. -/
theorem callsFollow_of_new
    (hnew : ∀ q (g : Grounding ρ) noted t a, fetch q args g = .ok (a, true) t →
      q < g.base.predicates.size → g.base.missing args ≤ depth → g.base.atom? q args = none →
      Underway args t (q :: noted) → Grows g.base t.base → t.base.atom? q args = some a →
      After (do
          match depth with
          | 0 => return a
          | depth + 1 =>
            tryCatch (relateCall (callWithin depth args) q args a) (withdraw q args)
            return a) t
        (fun v u => ∃ after,
          Ends (fun bound => callUpTo args bound q (g, noted)) (.ok v, u, after) ∧
          Underway args u after ∧ Grows g.base u.base ∧ True)
        fun e u => ∃ after,
          Ends (fun bound => callUpTo args bound q (g, noted)) (.error e, u, after) ∧ after.Nodup) :
    CallsFollow (ρ := ρ) args depth (callUpTo args) (callWithin depth args) := by
  intro q g noted h hq hdepth
  have hfetch := h.typed.after_fetch hq args
  unfold Follows
  rw [callWithin_eq]
  refine after_bind.2 ?_
  unfold After at hfetch
  unfold After
  cases hres : fetch q args g with
  | error e t => exact ⟨noted, ends_callUpTo_of_error hres, h.nodup⟩
  | ok x t =>
    rw [hres] at hfetch
    obtain ⟨a, new⟩ := x
    obtain ⟨ht, hgrows, ha, hnone⟩ := hfetch
    cases new with
    | false => exact ⟨noted, ends_callUpTo_of_known hres, h.grows ht hgrows, hgrows, trivial⟩
    | true =>
      -- a predicate that was noted has been called, and this one has not
      have hnone := hnone rfl
      have hfresh : q ∉ noted := fun hmem => by
        obtain ⟨b, hb⟩ := h.called q hmem
        rw [hnone] at hb
        cases hb
      have hkept := h.grows ht hgrows
      have ht' : Underway args t (q :: noted) :=
        ⟨ht, List.nodup_cons.2 ⟨hfresh, h.nodup⟩, List.forall_mem_cons.2 ⟨⟨a, ha⟩, hkept.called⟩⟩
      exact hnew q g noted t a hres hq hdepth hnone ht' hgrows ha

/-- **A call without a bound does what one with enough depth does.** A call that is new is entered
before it leads to others, so each call on the way leaves fewer to be made; and as long as nothing
was refused every predicate that was noted has been called, so none is noted again. -/
theorem callsFollow (args : Arguments) (depth : Nat) :
    CallsFollow (ρ := ρ) args depth (callUpTo args) (callWithin depth args) := by
  induction depth with
  | zero =>
    refine callsFollow_of_new fun q g noted t a _ hq hdepth hnone _ _ _ => ?_
    -- the call itself is missing, so the depth is not zero
    have hpos := missing_pos hq hnone
    omega
  | succ depth ih =>
    refine callsFollow_of_new fun q g noted t a hres hq hdepth hnone ht hgrows ha => ?_
    have hlt := hgrows.missing_lt hq hnone ha
    have hrelate := ih.relateCall ht (by omega) q a
    refine after_bind.2 (after_tryCatch.2 (After.mono hrelate
      (fun _ u ⟨after, hfree, hu, hgrows', _⟩ => ?_) fun e u ⟨after, hfree, hnodup⟩ => ?_))
    · exact after_pure.2 ⟨after, ends_callUpTo_of_new hres hfree, hu, hgrows.trans hgrows', trivial⟩
    · exact after_bind.2 (after_modify.2 (after_throw.2
        ⟨after, ends_callUpTo_of_new hres hfree, hnodup⟩))

/-- **A call ends by itself**, whether it goes through or is refused, and no predicate has its
relations gone through twice on the way. -/
theorem Typed.ends_callUpTo (h : Typed g) (hp : p < g.base.predicates.size) (args : Arguments) :
    ∃ noted, noted.Nodup ∧ Ends (fun depth => callUpTo args depth p (g, []))
      (answer (call p args) g, stateAfter (call p args) g, noted) := by
  -- the depth is enough, as at most all predicates can be missing
  have hfollows := callsFollow args g.base.predicates.size p g [] ⟨h, List.nodup_nil, nofun⟩ hp
    (missing_le g.base args)
  unfold Follows After at hfollows
  have hcall : call p args g = callWithin g.base.predicates.size args p g := rfl
  unfold answer stateAfter
  rw [hcall]
  cases hres : callWithin g.base.predicates.size args p g with
  | ok v t =>
    rw [hres] at hfollows
    obtain ⟨noted, hends, ht, -⟩ := hfollows
    exact ⟨noted, ht.nodup, hends⟩
  | error e t =>
    rw [hres] at hfollows
    obtain ⟨noted, hends, hnodup⟩ := hfollows
    exact ⟨noted, hnodup, hends⟩

end Grounding

/-! ### Calls in worlds -/

namespace World

open Action KnowledgeBase

variable {ρ : Type} [RandomSource ρ] {w : World ρ} {p : PredicateId}

/-- **Calls end on every graph of relations, and are made once.** In a world that is built, the
recursion ends by itself with what the call gives, and has gone through the relations of no predicate
twice. When the call went through, the same call gives the same atom after any valid
moves, and leaves the knowledge base and the solver as they are. -/
theorem Built.calls_end (hw : w.Built) (hp : p < w.base.predicates.size) (args : Arguments) :
    (∃ noted, noted.Nodup ∧
      Ends (fun depth => Grounding.callUpTo args depth p (w.toGrounding, []))
        (answer (Grounding.call p args) w.toGrounding,
          stateAfter (Grounding.call p args) w.toGrounding, noted)) ∧
    ∀ a g, Grounding.call p args w.toGrounding = .ok a g →
      ∀ ms, ValidAll ms ({ w with toGrounding := g } : World ρ) →
        let u := ({ w with toGrounding := g } : World ρ).run ms
        Grounding.call p args u.toGrounding = .ok a u.toGrounding := by
  have h := hw.regular
  refine ⟨h.typed.ends_callUpTo hp args, fun a g hcall ms hms => ?_⟩
  obtain ⟨hkept, ha⟩ := (h.typed.after_call (Grounding.Keeps.refl w.base) hp args).of_ok hcall
  have honto : Onto w (Grounding.Kept w.base) { w with toGrounding := g } := ⟨hkept, rfl⟩
  have hcalled : ({ w with toGrounding := g } : World ρ).Regular := (h.onto honto).1
  obtain ⟨hrun, hremembers⟩ := hcalled.run hms
  -- whatever is done later, the arguments stay in the domain with their atom
  exact hrun.typed.call_again (hremembers.atoms p args a ha)

/-- To wait and to hope are one way each for the other to hold, and to wait implies itself; to hope
excludes to stand, which implies to dream, and only persons dream. Ann may wait, and granite is
refused; then Ann is called to wait once more. -/
theorem calls_end_ann :
    let declared : List Move := [.declare (.subsort "person" 0),
      .declare (.predicate "waits" (.unary 0)), .declare (.predicate "hopes" (.unary 0)),
      .declare (.predicate "stands" (.unary 0)), .declare (.predicate "dreams" (.unary 1)),
      .declare (.relation .generalization 0 0), .declare (.relation .strong 0 1),
      .declare (.relation .strong 1 0), .declare (.exclusion 1 2),
      .declare (.relation .generalization 2 3), .declare (.entity "Ann" 1)]
    let w := (World.empty "entity" {}).run declared
    let g := stateAfter (Grounding.call 0 (.one "Ann")) w.toGrounding
    let ms : List Move := [.call "waits" ["granite"], .existential "waits" "person",
      .declare (.predicate "sleeps" (.unary 1)), .commit [Literal.pos 1]]
    let u := ({ w with toGrounding := g } : World Pcg).run ms
    w.Built ∧ ValidAll ms ({ w with toGrounding := g } : World Pcg) ∧
      value? (Grounding.call 0 (.one "Ann")) w.toGrounding = some 1 ∧
      value? (Grounding.call 0 (.one "granite")) w.toGrounding = none ∧
      (∃ noted, noted.Nodup ∧
        Ends (fun depth => Grounding.callUpTo (.one "granite") depth 0 (w.toGrounding, []))
          (answer (Grounding.call 0 (.one "granite")) w.toGrounding,
            stateAfter (Grounding.call 0 (.one "granite")) w.toGrounding, noted)) ∧
      Grounding.call 0 (.one "Ann") u.toGrounding = .ok 1 u.toGrounding := by
  intro declared w g ms u
  have hvalid : ValidAll declared (World.empty "entity" {}) := by decide +kernel
  have hw : w.Built := Built.run (Built.start "entity" (Solver.Reachable.start {} _) false) hvalid
  have hlater : ValidAll ms ({ w with toGrounding := g } : World Pcg) := by decide +kernel
  have hcalls : value? (Grounding.call 0 (.one "Ann")) w.toGrounding = some 1 ∧
      value? (Grounding.call 0 (.one "granite")) w.toGrounding = none ∧
      0 < w.base.predicates.size := by decide +kernel
  obtain ⟨hann, hgranite, hp⟩ := hcalls
  obtain ⟨-, hagain⟩ := hw.calls_end hp (.one "Ann")
  obtain ⟨hends, -⟩ := hw.calls_end hp (.one "granite")
  exact ⟨hw, hlater, hann, hgranite, hends, hagain 1 g (eq_ok_of_value? hann) ms hlater⟩

end World

end Storyworld
