import Storyworld.Proofs.Knowledge.Calls
import Storyworld.Proofs.Knowledge.Grounding

namespace Storyworld

/-!
# What is kept while calls are made

A call enters the arguments into the domain and then goes through the relations of its predicate,
one kind after the other. Each related predicate is called on the same arguments before the
constraint is asserted, so the constraint is between calls that have been made. A call that is
under way is in the domain already, so that a cycle of relations leads back to it and stops, and
since each call on the way leaves fewer to be made the recursion ends on its own.

An `Upkeep` is an invariant of all this, with one law for each thing that a call does. The
invariant may ask less of the calls that are pending. From the laws follows that whole calls keep it
(`Upkeep.after_call`), whether they go through or are refused.
-/

namespace Grounding

open Action

/-- Calls that are under way, the latest first. -/
abbrev Pending := List (PredicateId × Arguments)

variable {ρ γ : Type}

/-- The last thing a call does: its atom supports each existential over a sort that the entity
belongs to. -/
def supportExistentials (p : PredicateId) (args : Arguments) (atom : Atom) :
    EStateM Error (Grounding ρ) Unit :=
  match args with
  | .two _ _ => pure ()
  | .one entity => do
    ((← get).base.predicate p).existentials.forM fun (sort, head) => do
      if ← ofExcept ((← get).base.isA entity sort) then
        assert (.rule head [Literal.pos atom])

end Grounding

namespace KnowledgeBase

/-- The knowledge base with arguments taken out of the domain of a predicate. -/
def withdraw (kb : KnowledgeBase) (p : PredicateId) (args : Arguments) : KnowledgeBase :=
  kb.modifyPredicate p fun q => { q with domain := (q.domain.remove args).2 }

variable {kb : KnowledgeBase} {p q : PredicateId} {args args' : Arguments} {a : Nat}

/-- Other calls are remembered as they were. -/
theorem atom?_withdraw_of_ne (h : (p, args) ≠ (q, args')) :
    (kb.withdraw p args).atom? q args' = kb.atom? q args' := by
  rw [atom?, atom?]
  rcases predicate_modifyPredicate kb (fun q => { q with domain := (q.domain.remove args).2 }) q p
    with he | he
  · rw [withdraw, he]
  · rw [withdraw, he]
    by_cases hpq : p = q
    · exact Domain.get?_remove_of_ne fun e => h (Prod.ext hpq e)
    · rw [← he, predicate_modify_of_ne _ hpq]

/-- What has an atom after arguments were taken out had it before, and is not what was taken
out. -/
theorem atom?_withdraw_eq_some (h : (kb.withdraw p args).atom? q args' = some a) :
    kb.atom? q args' = some a ∧ (q, args') ≠ (p, args) := by
  have hne : (p, args) ≠ (q, args') := by
    intro e
    obtain ⟨rfl, rfl⟩ := Prod.mk.inj e
    have hp : p < kb.predicates.size := lt_of_lt_of_eq (lt_of_atom? h) Array.size_modify
    rw [atom?, withdraw, predicate_modify_self _ hp] at h
    rw [show Domain.get? _ args = none from Domain.get?_remove_self _ args] at h
    cases h
  exact ⟨(atom?_withdraw_of_ne hne).symm.trans h, hne.symm⟩

/-- Whatever is taken out, the rest stays as it is. -/
theorem predicate_withdraw (kb : KnowledgeBase) (p q : PredicateId) (args : Arguments) :
    ((kb.withdraw p args).predicate q).name = (kb.predicate q).name ∧
      ((kb.withdraw p args).predicate q).signature = (kb.predicate q).signature ∧
      ((kb.withdraw p args).predicate q).existentials = (kb.predicate q).existentials := by
  rcases predicate_modifyPredicate kb (fun q => { q with domain := (q.domain.remove args).2 }) q p
    with h | h
  · rw [withdraw, h]
    exact ⟨rfl, rfl, rfl⟩
  · rw [withdraw, h]
    exact ⟨rfl, rfl, rfl⟩

/-- To take a call back changes nothing of what is admitted. -/
theorem admits_withdraw : (kb.withdraw p args).admits q args' = kb.admits q args' := by
  show (kb.withdraw p args).fits _ args' = kb.fits _ args'
  rw [(predicate_withdraw kb p q args).2.1]
  rfl

end KnowledgeBase

namespace Grounding

open Action KnowledgeBase

variable {ρ : Type} {g : Grounding ρ} {p : PredicateId} {a : Nat} {x : String}

/-- A rule is asserted for each existential over a sort that the entity belongs to, in order. The
others are passed over. -/
theorem after_supportExistentials {I : List (SortId × Nat) → Grounding ρ → Prop}
    {refused : Error → Grounding ρ → Prop} (hx : (g.base.sortOf? x).isSome) (hstart : I [] g)
    (hbase : ∀ es t, I es t → t.base = g.base)
    (hmember : ∀ es e rest, (g.base.predicate p).existentials = es ++ e :: rest →
      g.base.belongs x e.1 = true → ∀ t, I es t →
        After (assert (.rule e.2 [Literal.pos a])) t (fun _ u => I (es ++ [e]) u) refused)
    (hother : ∀ es e t, g.base.belongs x e.1 = false → I es t → I (es ++ [e]) t) :
    After (supportExistentials p (.one x) a) g
      (fun _ t => I (g.base.predicate p).existentials t) refused := by
  obtain ⟨d, hd⟩ := Option.isSome_iff_exists.1 hx
  refine after_bind.2 (after_get.2 (after_forM (fun es e rest hsplit t ht => ?_) hstart))
  refine after_bind.2 (after_get.2 (after_bind.2 (after_ofExcept.2 ?_)))
  -- the entity is registered, so the question which sorts it is of has an answer
  have hisA : t.base.isA x e.1 = .ok (g.base.belongs x e.1) := by
    rw [hbase es t ht, isA, KnowledgeBase.belongs, hd]
  rw [hisA]
  cases hbelongs : g.base.belongs x e.1 with
  | true => exact hmember es e rest hsplit hbelongs t ht
  | false => exact hother es e t hbelongs ht

/-- What assertions keep, the support of existentials keeps. -/
theorem preserves_supportExistentials {P : Grounding ρ → Prop}
    (h : ∀ c, Preserves P (assert (ρ := ρ) c)) (p : PredicateId) (args : Arguments) (a : Atom) :
    Preserves P (supportExistentials p args a) := by
  cases args with
  | two left right => exact preserves_pure _
  | one entity =>
    refine preserves_get.bind fun t => preserves_forM fun e _ => ?_
    refine preserves_get.bind fun u => (preserves_ofExcept _).bind fun b => ?_
    split
    · exact h _
    · exact preserves_pure _

end Grounding

open Grounding Action KnowledgeBase

/-- An invariant that calls keep. It speaks of the calls that are pending and of what has been told
so far. -/
structure Upkeep (ρ γ : Type) where
  Holds : Pending → Grounding ρ → γ → Prop
  /-- What is left of the invariant where something was refused. -/
  Refused : Pending → Grounding ρ → Prop
  /-- At least as much has been told. -/
  More : γ → γ → Prop
  /-- The constraint of a relation between calls on the arguments has been told. -/
  Done : Relation → Arguments → KnowledgeBase → γ → Prop
  /-- The calls that may be made while others are pending. -/
  Wanted : Pending → KnowledgeBase → PredicateId → Arguments → Prop
  more_refl : ∀ x, More x x
  more_trans : ∀ {x y z}, More x y → More y z → More x z
  done_lasts : ∀ {r args kb kb' x y}, Grows kb kb' → More x y → Done r args kb x → Done r args kb' y
  refused : ∀ {pending g x}, Holds pending g x → Refused pending g
  orderly : ∀ {pending g x}, Holds pending g x → g.base.Orderly
  admitted : ∀ {pending g x p args a}, Holds pending g x → g.base.atom? p args = some a →
    g.base.admits p args = true
  enrolls : ∀ {pending g x kb}, Holds pending g x → Enrolls g.base kb →
    Holds pending { g with base := kb } x
  enters : ∀ {pending g x p args}, Holds pending g x → p < g.base.predicates.size →
    g.base.atom? p args = none → g.base.admits p args = true → Wanted pending g.base p args →
    let s := g.solver.proposition (.call ⟨(g.base.predicate p).name, args.terms⟩)
    Holds ((p, args) :: pending) ⟨g.base.enter p args s.1, s.2⟩ x
  tells : ∀ {pending g x r args l}, Holds pending g x → r ∈ g.base.relations →
    g.base.Relates r args l → After (assert l.constraint) g
      (fun _ t => ∃ y, Holds pending t y ∧ t.base = g.base ∧ More x y ∧ Done r args t.base y)
      fun _ t => Refused pending t
  settles : ∀ {pending g x p args a}, Holds ((p, args) :: pending) g x →
    g.base.atom? p args = some a →
    (∀ r ∈ g.base.relations, r.specific = p → g.base.Bears r args → Done r args g.base x) →
    (∀ q r : Nat, ⟨.strong, p, q⟩ ∈ g.base.relations → ⟨.strong, r, q⟩ ∈ g.base.relations →
      g.base.admits r args = true → g.base.Called r args) →
    After (supportExistentials p args a) g
      (fun _ t => ∃ y, Holds pending t y ∧ t.base = g.base ∧ More x y)
      fun _ t => Refused ((p, args) :: pending) t
  withdraws : ∀ {pending g p args}, Refused ((p, args) :: pending) g →
    Refused pending { g with base := g.base.withdraw p args }
  wanted_lasts : ∀ {pending g x kb p args}, Holds pending g x → Grows g.base kb →
    Wanted pending g.base p args → Wanted pending kb p args
  wanted_enter : ∀ {pending kb p args a}, Wanted pending kb p args →
    Wanted ((p, args) :: pending) (kb.enter p args a) p args
  wanted_general : ∀ {pending g x r args}, Holds pending g x → r ∈ g.base.relations →
    g.base.Bears r args → Wanted pending g.base r.specific args →
      Wanted pending g.base r.general args
  wanted_sibling : ∀ {pending g x p q r args}, Holds pending g x →
    ⟨.strong, p, q⟩ ∈ g.base.relations → ⟨.strong, r, q⟩ ∈ g.base.relations →
    g.base.admits r args = true → Wanted pending g.base p args → Wanted pending g.base r args

namespace Upkeep

variable {ρ γ α β : Type} {u : Upkeep ρ γ} {g : Grounding ρ} {x : γ} {p q : Nat} {args : Arguments}
  {a : Nat} {pending : Pending}

/-! ### Actions that advance -/

/-- The action keeps the invariant. When it goes through, perhaps more calls have been made and more
was told, and `Q` holds of the value, the knowledge base and what was told. -/
def Advances (u : Upkeep ρ γ) (pending : Pending) (g : Grounding ρ) (x : γ)
    (act : EStateM Error (Grounding ρ) α) (Q : α → KnowledgeBase → γ → Prop) : Prop :=
  After act g
    (fun v t => ∃ y, u.Holds pending t y ∧ Grows g.base t.base ∧ u.More x y ∧ Q v t.base y)
    fun _ t => u.Refused pending t

variable {act : EStateM Error (Grounding ρ) α} {Q Q' : α → KnowledgeBase → γ → Prop}

/-- What gives a value and does nothing else advances, if the invariant holds and the value is
right. -/
theorem advances_pure {v : α} (h : u.Holds pending g x) (hv : Q v g.base x) :
    u.Advances pending g x (pure v) Q :=
  ⟨x, h, Grows.refl _, u.more_refl x, hv⟩

/-- What is known of the result may be weakened. -/
theorem Advances.mono (h : u.Advances pending g x act Q)
    (himp : ∀ v kb y, Q v kb y → Q' v kb y) : u.Advances pending g x act Q' := by
  refine After.imp_done h fun v t ⟨y, ht, hgrows, hmore, hv⟩ => ?_
  exact ⟨y, ht, hgrows, hmore, himp _ _ _ hv⟩

/-- Two actions in a row advance if the first does, and the second does wherever the first may
lead. -/
theorem Advances.bind (h : u.Advances pending g x act Q)
    {next : α → EStateM Error (Grounding ρ) β} {R : β → KnowledgeBase → γ → Prop}
    (hnext : ∀ v t y, u.Holds pending t y → Grows g.base t.base → u.More x y → Q v t.base y →
      u.Advances pending t y (next v) R) :
    u.Advances pending g x (act >>= next) R := by
  refine after_bind.2 (After.imp_done h fun v t ⟨y, ht, hgrows, hmore, hv⟩ => ?_)
  refine After.imp_done (hnext v t y ht hgrows hmore hv) fun w s hs => ?_
  obtain ⟨z, hs, hgrows', hmore', hw⟩ := hs
  exact ⟨z, hs, hgrows.trans hgrows', u.more_trans hmore hmore', hw⟩

/-- To look at the state changes nothing. -/
theorem advances_get {next : Grounding ρ → EStateM Error (Grounding ρ) α}
    (h : u.Advances pending g x (next g) Q) : u.Advances pending g x (get >>= next) Q :=
  after_bind.2 (after_get.2 h)

/-- What each step of a loop establishes is there at the end, as long as it lasts. -/
theorem advances_forM {f : β → EStateM Error (Grounding ρ) PUnit} {vs : List β}
    {P : β → KnowledgeBase → γ → Prop} (hg : u.Holds pending g x)
    (hlasts : ∀ v kb kb' x y, Grows kb kb' → u.More x y → P v kb x → P v kb' y)
    (hstep : ∀ v ∈ vs, ∀ t y, u.Holds pending t y → Grows g.base t.base →
      u.Advances pending t y (f v) fun _ => P v) :
    u.Advances pending g x (vs.forM f) fun _ kb y => ∀ v ∈ vs, P v kb y := by
  refine after_forM (I := fun ys t => ∃ y, u.Holds pending t y ∧ Grows g.base t.base ∧
    u.More x y ∧ ∀ v ∈ ys, P v t.base y)
    (fun ys v zs hvs t ⟨y, ht, hgrows, hmore, hdone⟩ => ?_) ?_
  · have hv : v ∈ vs := by
      rw [hvs]
      exact List.mem_append_right _ List.mem_cons_self
    refine After.imp_done (hstep v hv t y ht hgrows) fun _ s hs => ?_
    obtain ⟨z, hs, hgrows', hmore', hv⟩ := hs
    refine ⟨z, hs, hgrows.trans hgrows', u.more_trans hmore hmore', fun w hw => ?_⟩
    -- what was done for earlier members lasts through the step for this one
    rcases List.mem_append.1 hw with hw | hw
    · exact hlasts w _ _ _ _ hgrows' hmore' (hdone w hw)
    · rw [List.mem_singleton.1 hw]
      exact hv
  · exact ⟨x, hg, Grows.refl _, u.more_refl x, nofun⟩

/-! ### What lasts -/

/-- What holds goes on to hold while calls are made. -/
def Lasts (u : Upkeep ρ γ) (P : KnowledgeBase → γ → Prop) : Prop :=
  ∀ kb kb' x y, Grows kb kb' → u.More x y → P kb x → P kb' y

/-- What a relation asks for stays done. -/
theorem lasts_done (r : Relation) (args : Arguments) : u.Lasts (u.Done r args) :=
  fun _ _ _ _ hgrows hmore h => u.done_lasts hgrows hmore h

/-- A call that was made stays made. -/
theorem lasts_called (p : PredicateId) (args : Arguments) :
    u.Lasts fun kb _ => kb.Called p args :=
  fun _ _ _ _ hgrows _ ⟨a, ha⟩ => ⟨a, hgrows.atoms p args a ha⟩

/-- Two things that last do so together. -/
theorem Lasts.and {P P' : KnowledgeBase → γ → Prop} (h : u.Lasts P) (h' : u.Lasts P') :
    u.Lasts fun kb x => P kb x ∧ P' kb x :=
  fun kb kb' x y hgrows hmore hP =>
    ⟨h kb kb' x y hgrows hmore hP.1, h' kb kb' x y hgrows hmore hP.2⟩

/-- What lasts is known of the result as well. -/
theorem Advances.keep (h : u.Advances pending g x act Q) {P : KnowledgeBase → γ → Prop}
    (hlasts : u.Lasts P) (hP : P g.base x) :
    u.Advances pending g x act fun v kb y => P kb y ∧ Q v kb y := by
  refine After.imp_done h fun v t ⟨y, ht, hgrows, hmore, hv⟩ => ?_
  exact ⟨y, ht, hgrows, hmore, hlasts _ _ _ _ hgrows hmore hP, hv⟩

/-! ### The steps of a call -/

/-- Arguments that have been checked are admitted from then on. -/
theorem advances_checkArguments (h : u.Holds pending g x) (hp : p < g.base.predicates.size) :
    u.Advances pending g x (onBase (checkArguments p args))
      fun _ kb _ => kb.admits p args = true := by
  have horder := u.orderly h
  refine after_onBase.2 ?_
  refine (after_checkArguments horder.toPlaced (horder.signatures p hp)).mono
    (fun _ kb hkb => ?_) fun _ kb hkb => u.refused (u.enrolls h hkb)
  obtain ⟨henrolls, hadmits⟩ := hkb
  exact ⟨x, u.enrolls h henrolls, henrolls.grows, u.more_refl x, hadmits⟩

/-- What is asserted for a relation between two calls has been told then. -/
theorem advances_assert (h : u.Holds pending g x) {r : Relation} (hr : r ∈ g.base.relations)
    {l : Link} (hl : g.base.Relates r args l) :
    u.Advances pending g x (assert l.constraint) fun _ => u.Done r args := by
  refine (u.tells h hr hl).imp_done fun _ t ⟨y, ht, hbase, hmore, hdone⟩ => ?_
  exact ⟨y, ht, hbase ▸ Grows.refl _, hmore, hdone⟩

/-! ### Calls -/

/-- The action calls predicates on the arguments, where at most so many are missing. -/
def Calls (u : Upkeep ρ γ) (depth : Nat) (args : Arguments)
    (call : PredicateId → EStateM Error (Grounding ρ) Atom) : Prop :=
  ∀ (q : Nat) (pending : Pending) (g : Grounding ρ) (x : γ),
    u.Holds pending g x → q < g.base.predicates.size → u.Wanted pending g.base q args →
    g.base.missing args ≤ depth →
      u.Advances pending g x (call q) fun a kb _ => kb.atom? q args = some a

/-- The predicate has been called on the arguments, as it may be, and at most so many others have
not. -/
structure Within (u : Upkeep ρ γ) (pending : Pending) (depth : Nat) (p : PredicateId)
    (args : Arguments) (a : Atom) (kb : KnowledgeBase) : Prop where
  atom : kb.atom? p args = some a
  wanted : u.Wanted pending kb p args
  missing : kb.missing args ≤ depth

variable {call : PredicateId → EStateM Error (Grounding ρ) Atom} {depth : Nat}
  {kb : KnowledgeBase} {kind : RelationKind}

/-- A call that is under way is so after others have been made, with no more that are missing. -/
theorem Within.grows (hp : u.Within pending depth p args a g.base) (h : u.Holds pending g x)
    (hgrows : Grows g.base kb) : u.Within pending depth p args a kb :=
  ⟨hgrows.atoms p args a hp.atom, u.wanted_lasts h hgrows hp.wanted,
    Nat.le_trans (hgrows.missing args) hp.missing⟩

/-- To call the general predicate and to assert the constraint tells the relation. -/
theorem Calls.advances_link (kind : RelationKind) (hcall : u.Calls depth args call)
    (h : u.Holds pending g x) (hp : u.Within pending depth p args a g.base)
    (hr : ⟨kind, p, q⟩ ∈ g.base.relations) (hbears : g.base.Bears ⟨kind, p, q⟩ args) :
    u.Advances pending g x (do
        let b ← call q
        assert (Link.constraint ⟨kind, a, b⟩))
      fun _ => u.Done ⟨kind, p, q⟩ args := by
  have hq := ((u.orderly h).relations _ hr).2
  have hwanted := u.wanted_general h hr hbears hp.wanted
  refine (hcall q pending g x h hq hwanted hp.missing).bind fun b t y ht hgrows _ hb => ?_
  exact advances_assert ht (hgrows.relations ▸ hr) ⟨rfl, (hp.grows h hgrows).atom, hb⟩

/-- The other ways for the general predicate to hold are called as well, those that admit the
arguments. -/
theorem Calls.advances_specializations (hcall : u.Calls depth args call)
    (h : u.Holds pending g x) (hp : u.Within pending depth p args a g.base)
    (hq : ⟨.strong, p, q⟩ ∈ g.base.relations) :
    u.Advances pending g x ((g.base.strongSpecializations q).forM fun specific => do
        if specific ≠ p && (← get).base.admits specific args then
          let _ ← call specific)
      fun _ kb _ => ∀ r : Nat, ⟨.strong, r, q⟩ ∈ g.base.relations →
        g.base.admits r args = true → kb.Called r args := by
  have hregistered : g.base.Registered args := registered_of_admits (u.admitted h hp.atom)
  refine (advances_forM (P := fun r kb _ => g.base.admits r args = true → kb.Called r args) h
    (fun r kb kb' x y hgrows hmore hr hadmits =>
      lasts_called r args kb kb' x y hgrows hmore (hr hadmits))
    fun specific hspecific t y ht hgrows => ?_).mono
      fun _ kb y hcalled r hr => hcalled r (mem_strongSpecializations.2 hr)
  refine advances_get ?_
  have hpt := hp.grows h hgrows
  have hr : ⟨.strong, specific, q⟩ ∈ t.base.relations := by
    rw [hgrows.relations]
    exact mem_strongSpecializations.1 hspecific
  have hadmits : t.base.admits specific args = g.base.admits specific args :=
    hgrows.stays.admits (u.orderly h).toPlaced hregistered (hgrows.signature specific)
  split
  · rename_i hcond
    rw [Bool.and_eq_true] at hcond
    have hwanted := u.wanted_sibling ht (hgrows.relations ▸ hq) hr hcond.2 hpt.wanted
    exact (hcall specific pending t y ht ((u.orderly ht).relations _ hr).1 hwanted
      hpt.missing).bind fun b s z hs _ _ hb => advances_pure hs fun _ => ⟨b, hb⟩
  · rename_i hcond
    refine advances_pure ht fun hadmitted => ?_
    -- what is left out is the call that is under way
    have hself : specific = p := Decidable.byContradiction fun hne => hcond (by
      rw [hadmits, hadmitted, Bool.and_true]
      exact decide_eq_true hne)
    rw [hself]
    exact ⟨a, hpt.atom⟩

/-! ### The relations of a call -/

/-- What the relations of a kind ask of the call, as far as they bear on it. -/
def Settled (u : Upkeep ρ γ) (kb₀ : KnowledgeBase) (kind : RelationKind) (p : PredicateId)
    (args : Arguments) (kb : KnowledgeBase) (x : γ) : Prop :=
  ∀ q, ⟨kind, p, q⟩ ∈ kb₀.relations → kb₀.Bears ⟨kind, p, q⟩ args →
    u.Done ⟨kind, p, q⟩ args kb x

/-- The other ways to hold of what the call is a way for. -/
def Joined (kb₀ : KnowledgeBase) (p : PredicateId) (args : Arguments) (kb : KnowledgeBase) : Prop :=
  ∀ q r : Nat, ⟨.strong, p, q⟩ ∈ kb₀.relations → ⟨.strong, r, q⟩ ∈ kb₀.relations →
    kb₀.admits r args = true → kb.Called r args

/-- What is settled for a kind of relations stays settled. -/
theorem lasts_settled {kb₀ : KnowledgeBase} : u.Lasts (u.Settled kb₀ kind p args) :=
  fun _ _ _ _ hgrows hmore h q hr hbears => u.done_lasts hgrows hmore (h q hr hbears)

/-- A loop over the related predicates. -/
theorem advances_related {f : PredicateId → EStateM Error (Grounding ρ) PUnit}
    {kb₀ : KnowledgeBase} {P : PredicateId → KnowledgeBase → γ → Prop} (h : u.Holds pending g x)
    (hgrows : Grows kb₀ g.base) (hlasts : ∀ q, u.Lasts (P q))
    (hstep : ∀ q, ⟨kind, p, q⟩ ∈ kb₀.relations → ∀ t y, u.Holds pending t y →
      Grows kb₀ t.base → u.Advances pending t y (f q) fun _ => P q) :
    u.Advances pending g x ((g.base.related kind p).forM f)
      fun _ kb y => ∀ q, ⟨kind, p, q⟩ ∈ kb₀.relations → P q kb y := by
  have hmem : ∀ q, q ∈ g.base.related kind p ↔ ⟨kind, p, q⟩ ∈ kb₀.relations := by
    intro q
    rw [mem_related, hgrows.relations]
  refine (advances_forM h hlasts fun q hq t y ht hgrows' =>
    hstep q ((hmem q).1 hq) t y ht (hgrows.trans hgrows')).mono ?_
  exact fun _ kb y hdone q hr => hdone q ((hmem q).2 hr)

/-- A strong generalization is told, and then its other specializations are called. -/
theorem Calls.advances_strong (hcall : u.Calls depth args call) (h : u.Holds pending g x)
    (hp : u.Within pending depth p args a g.base) (hr : ⟨.strong, p, q⟩ ∈ g.base.relations) :
    u.Advances pending g x (do
        let head ← call q
        assert (.rule head [Literal.pos a])
        ((← get).base.strongSpecializations q).forM fun specific => do
          if specific ≠ p && (← get).base.admits specific args then
            let _ ← call specific)
      fun _ kb y => u.Done ⟨.strong, p, q⟩ args kb y ∧
        ∀ r : Nat, ⟨.strong, r, q⟩ ∈ g.base.relations → g.base.admits r args = true →
          kb.Called r args := by
  have horder := u.orderly h
  have hwanted := u.wanted_general h hr nofun hp.wanted
  have hregistered : g.base.Registered args := registered_of_admits (u.admitted h hp.atom)
  refine (hcall q pending g x h (horder.relations _ hr).2 hwanted hp.missing).bind
    fun b t y ht hgrows _ hb => ?_
  -- the rule is told, and what is called afterwards leaves it there
  have hpt := hp.grows h hgrows
  have hassert : u.Advances pending t y (assert (.rule b [Literal.pos a]))
      fun _ => u.Done ⟨.strong, p, q⟩ args :=
    advances_assert (l := ⟨.strong, a, b⟩) ht (hgrows.relations ▸ hr) ⟨rfl, hpt.atom, hb⟩
  refine hassert.bind fun _ s z hs hgrows' _ hdone => advances_get ?_
  have hgrowss := hgrows.trans hgrows'
  have hrest := hcall.advances_specializations (q := q) hs (hpt.grows ht hgrows')
    (hgrowss.relations ▸ hr)
  refine (hrest.keep (lasts_done _ args) hdone).mono fun _ kb z' hkept => ?_
  refine ⟨hkept.1, fun r hr' hadmits => hkept.2 r (hgrowss.relations ▸ hr') ?_⟩
  rwa [hgrowss.stays.admits horder.toPlaced hregistered (hgrowss.signature r)]

/-- An exclusion is told if it bears on the call. -/
theorem Calls.advances_negative (hcall : u.Calls depth args call) (h : u.Holds pending g x)
    (hp : u.Within pending depth p args a g.base) (hr : ⟨.negative, p, q⟩ ∈ g.base.relations) :
    u.Advances pending g x (do
        if (← get).base.admits q args then
          let other ← call q
          onSolver (Solver.inconsistent (Literal.pos a) (Literal.pos other)))
      fun _ kb y => g.base.Bears ⟨.negative, p, q⟩ args → u.Done ⟨.negative, p, q⟩ args kb y := by
  refine advances_get ?_
  split
  · rename_i hadmits
    exact (hcall.advances_link .negative h hp hr fun _ => hadmits).mono fun _ _ _ hdone _ => hdone
  · rename_i hadmits
    -- an exclusion that does not bear on the call is not told
    exact advances_pure h fun hbears => absurd (hbears rfl) hadmits

/-- Whether an exclusion bears on arguments that were called stays as it is. -/
theorem bears_iff (h : u.Holds pending g x) (hgrows : Grows g.base kb)
    (ha : g.base.atom? p args = some a) (r : Relation) :
    kb.Bears r args ↔ g.base.Bears r args :=
  hgrows.stays.bears_iff (u.orderly h).toPlaced (registered_of_admits (u.admitted h ha))
    (hgrows.signature r.general)

/-- The relations of a kind, told in a loop. -/
theorem advances_kind (args : Arguments) {f : PredicateId → EStateM Error (Grounding ρ) PUnit}
    {kb₀ : KnowledgeBase} (h : u.Holds pending g x) (hgrows : Grows kb₀ g.base)
    (hstep : ∀ q, ⟨kind, p, q⟩ ∈ kb₀.relations → ∀ t y, u.Holds pending t y →
      Grows kb₀ t.base → u.Advances pending t y (f q) fun _ kb z =>
        kb₀.Bears ⟨kind, p, q⟩ args → u.Done ⟨kind, p, q⟩ args kb z) :
    u.Advances pending g x ((g.base.related kind p).forM f)
      fun _ kb y => u.Settled kb₀ kind p args kb y :=
  advances_related h hgrows
    (fun _ _ _ _ _ hgrows hmore hdone hbears => u.done_lasts hgrows hmore (hdone hbears)) hstep

/-- The strong generalizations of a call are told, and their other specializations are called. -/
theorem Calls.advances_strongs {g₀ : Grounding ρ} {x₀ : γ} (hcall : u.Calls depth args call)
    (h₀ : u.Holds pending g₀ x₀) (hp : u.Within pending depth p args a g₀.base)
    (h : u.Holds pending g x) (hgrows : Grows g₀.base g.base) :
    u.Advances pending g x ((g.base.related .strong p).forM fun q => do
        let head ← call q
        assert (.rule head [Literal.pos a])
        ((← get).base.strongSpecializations q).forM fun specific => do
          if specific ≠ p && (← get).base.admits specific args then
            let _ ← call specific)
      fun _ kb y => u.Settled g₀.base .strong p args kb y ∧ Joined g₀.base p args kb := by
  have hregistered : g₀.base.Registered args := registered_of_admits (u.admitted h₀ hp.atom)
  -- for each head two things are to last: its link, and that its other specializations were called
  have hlasts : ∀ q, u.Lasts fun kb y => u.Done ⟨.strong, p, q⟩ args kb y ∧
      ∀ r : Nat, ⟨.strong, r, q⟩ ∈ g₀.base.relations → g₀.base.admits r args = true →
        kb.Called r args := fun q =>
    (lasts_done _ args).and fun kb kb' x y hgrows hmore hcalled r hr hadmits =>
      lasts_called (u := u) r args kb kb' x y hgrows hmore (hcalled r hr hadmits)
  refine (advances_related h hgrows hlasts fun q hr t y ht hgrowst => ?_).mono fun _ kb y hdone =>
    ⟨fun q hr _ => (hdone q hr).1, fun q r hq hr hadmits => (hdone q hq).2 r hr hadmits⟩
  refine (hcall.advances_strong ht (hp.grows h₀ hgrowst) (hgrowst.relations ▸ hr)).mono
    fun _ kb z ⟨hdone, hcalled⟩ => ⟨hdone, fun r hr' hadmits => ?_⟩
  refine hcalled r (hgrowst.relations ▸ hr') ?_
  rwa [hgrowst.stays.admits (u.orderly h₀).toPlaced hregistered (hgrowst.signature r)]

/-- The relations of a call are told one kind after the other, and in the end the call is not
pending any more. -/
theorem Calls.after_relateCall (hcall : u.Calls depth args call)
    (h : u.Holds ((p, args) :: pending) g x)
    (hp : u.Within ((p, args) :: pending) depth p args a g.base) :
    After (relateCall call p args a) g
      (fun _ t => ∃ y, u.Holds pending t y ∧ Grows g.base t.base ∧ u.More x y)
      fun _ t => u.Refused ((p, args) :: pending) t := by
  refine after_bind.2 (after_get.2 (after_bind.2 (After.imp_done (advances_kind args h
    (Grows.refl _) fun q hr t y ht hgrows => ?_) fun _ t₁ h₁ => ?_)))
  · exact (hcall.advances_link .generalization ht (hp.grows h hgrows)
      (hgrows.relations ▸ hr) nofun).mono fun _ _ _ hdone _ => hdone
  obtain ⟨x₁, ht₁, hgrows₁, hmore₁, hgeneral⟩ := h₁
  refine after_bind.2 (after_get.2 (after_bind.2 (After.imp_done
    (hcall.advances_strongs h hp ht₁ hgrows₁) fun _ t₂ h₂ => ?_)))
  obtain ⟨x₂, ht₂, hgrows₂, hmore₂, hstrong, hjoined⟩ := h₂
  have hgrows₂' := hgrows₁.trans hgrows₂
  refine after_bind.2 (after_get.2 (after_bind.2 (After.imp_done (advances_kind args ht₂
    hgrows₂' fun q hr t y ht hgrows => ?_) fun _ t₃ h₃ => ?_)))
  · exact (hcall.advances_negative ht (hp.grows h hgrows) (hgrows.relations ▸ hr)).mono
      fun _ _ _ hdone hbears => hdone ((bears_iff h hgrows hp.atom _).2 hbears)
  obtain ⟨x₃, ht₃, hgrows₃, hmore₃, hnegative⟩ := h₃
  have hgrows := hgrows₂'.trans hgrows₃
  have hmore := u.more_trans hmore₂ hmore₃
  -- what was told of one kind is still told after the next
  have hsettled : ∀ kind, u.Settled g.base kind p args t₃.base x₃
    | .generalization => lasts_settled _ _ _ _ (hgrows₂.trans hgrows₃) hmore hgeneral
    | .strong => lasts_settled _ _ _ _ hgrows₃ hmore₃ hstrong
    | .negative => hnegative
  have hregistered : g.base.Registered args := registered_of_admits (u.admitted h hp.atom)
  refine (u.settles (a := a) ht₃ (hgrows.atoms p args a hp.atom) (fun r hr hspecific hbears => ?_)
    fun q r hq hr hadmits => ?_).imp_done fun _ t ⟨y, ht, hbase, hmore₄⟩ => ?_
  · obtain ⟨kind, s, q⟩ := r
    cases hspecific
    exact hsettled kind q (hgrows.relations ▸ hr) ((bears_iff h hgrows hp.atom _).1 hbears)
  · rw [hgrows.relations] at hq hr
    rw [hgrows.stays.admits (u.orderly h).toPlaced hregistered (hgrows.signature r)] at hadmits
    obtain ⟨b, hb⟩ := hjoined q r hq hr hadmits
    exact ⟨b, hgrows₃.atoms r args b hb⟩
  · exact ⟨y, ht, hbase ▸ hgrows, u.more_trans hmore₁ (u.more_trans hmore hmore₄)⟩

/-! ### The recursion -/

/-- A call that is refused is taken back, and its refusal handed on to the call that led to it. -/
theorem after_withdraw (e : Error) (h : u.Refused ((p, args) :: pending) g) :
    After (Grounding.withdraw p args e) g (fun _ _ => False) fun _ t => u.Refused pending t :=
  after_bind.2 (after_modify.2 (after_throw.2 (u.withdraws h)))

/-- A call that is entered is pending from then on. -/
theorem after_enter (h : u.Holds pending g x) (hp : p < g.base.predicates.size)
    (hnone : g.base.atom? p args = none) (hadmits : g.base.admits p args = true)
    (hwanted : u.Wanted pending g.base p args) :
    After (Grounding.enter p args) g (fun a t => u.Holds ((p, args) :: pending) t x ∧
      Grows g.base t.base ∧ t.base.atom? p args = some a ∧
      u.Wanted ((p, args) :: pending) t.base p args) fun _ _ => False := by
  refine after_bind.2 (after_get.2 (after_bind.2 (after_onSolver.2 (after_modifyGet.2 ?_))))
  refine after_bind.2 (after_modify.2 (after_pure.2 ⟨u.enters h hp hnone hadmits hwanted, ?_⟩))
  exact ⟨grows_enter hnone _, atom?_enter_self hp hnone, u.wanted_enter hwanted⟩

/-- The arguments are checked, and a call that was made before is found. -/
theorem calls_of_new
    (hnew : ∀ q pending (g : Grounding ρ) x, u.Holds pending g x →
      q < g.base.predicates.size → u.Wanted pending g.base q args →
      g.base.missing args ≤ depth → g.base.atom? q args = none →
      g.base.admits q args = true →
        u.Advances pending g x (do
            let atom ← Grounding.enter q args
            match depth with
            | 0 => return atom
            | depth + 1 =>
              tryCatch (relateCall (callWithin depth args) q args atom)
                (Grounding.withdraw q args)
              return atom)
          fun a kb _ => kb.atom? q args = some a) :
    u.Calls depth args (callWithin depth args) := by
  intro q pending g x h hq hwanted hdepth
  unfold callWithin
  refine (advances_checkArguments h hq).bind fun _ t y ht hgrows _ hadmits => advances_get ?_
  cases hget : (t.base.predicate q).domain.get? args with
  -- the call has been made before, or is being made
  | some a => exact advances_pure ht hget
  | none =>
    have hle := Nat.le_trans (hgrows.missing args) hdepth
    exact hnew q pending t y ht (hgrows.size ▸ hq) (u.wanted_lasts h hgrows hwanted) hle hget
      hadmits

/-- Calls of every depth keep the invariant. The induction is on the number of predicates that have
not been called on the arguments. -/
theorem calls_callWithin (u : Upkeep ρ γ) (depth : Nat) (args : Arguments) :
    u.Calls depth args (callWithin depth args) := by
  -- a call is entered before others are made, so that fewer calls are missing then
  induction depth with
  | zero =>
    refine calls_of_new fun q pending g x h hq hwanted hdepth hnone hadmits => ?_
    -- the call itself is missing, so the depth is not zero
    have hpos := missing_pos hq hnone
    omega
  | succ depth ih =>
    refine calls_of_new fun q pending g x h hq hwanted hdepth hnone hadmits => ?_
    refine after_bind.2 ((after_enter h hq hnone hadmits hwanted).imp
      fun a t ⟨ht, hgrows, ha, hwantedt⟩ => ?_)
    have hlt := hgrows.missing_lt hq hnone ha
    have hwithin : u.Within ((q, args) :: pending) depth q args a t.base :=
      ⟨ha, hwantedt, by omega⟩
    refine after_bind.2 (after_tryCatch.2 (After.mono (ih.after_relateCall ht hwithin)
      (fun _ s ⟨y, hs, hgrows', hmore⟩ => ?_) fun e s he => ?_))
    · exact after_pure.2 ⟨y, hs, hgrows.trans hgrows', hmore, hgrows'.atoms q args a ha⟩
    · exact (after_withdraw e he).imp_refused fun _ _ he => he

/-- **A call keeps the invariant**, whatever cycles the relations have. -/
theorem after_call (u : Upkeep ρ γ) (h : u.Holds pending g x) (hp : p < g.base.predicates.size)
    (hwanted : u.Wanted pending g.base p args) :
    u.Advances pending g x (Grounding.call p args) fun a kb _ => kb.atom? p args = some a :=
  advances_get (u.calls_callWithin _ args p pending g x h hp hwanted (missing_le g.base args))

end Upkeep

end Storyworld
