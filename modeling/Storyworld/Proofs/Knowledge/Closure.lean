import Storyworld.Proofs.Knowledge.Compilation

namespace Storyworld

/-!
# Which calls are made and which existentials are requested

A request leads to calls and to existentials that were not asked for. When all are declared and
registered beforehand, which ones it leads to does not depend on what was done before: calls are
made that the relations lead to from those that were asked for (`Reached`), no others and all of
them, and existentials are requested over the sorts that were asked for and those below (`Asked`).

That no others are made is kept while a call is under way, whatever else is kept then
(`Upkeep.within`); that none is missing is seen in the end, where nothing is pending
(`Arrived.called_iff`, `Arrived.requested_iff`).
-/

namespace KnowledgeBase

open Grounding

variable {kb₀ kb kb' : KnowledgeBase} {W : PredicateId → Arguments → Prop} {pending : Pending}
  {p : Nat} {args : Arguments} {a : Nat}

/-! ### Calls that stay within bounds -/

/-- The calls are on registered entities, and whatever the relations lead to from one of them is one
of them. -/
structure Closed (kb : KnowledgeBase) (W : PredicateId → Arguments → Prop) : Prop where
  registered : ∀ p args, W p args → kb.Registered args
  general : ∀ r ∈ kb.relations, ∀ args, kb.Bears r args → W r.specific args → W r.general args
  sibling : ∀ p q r args, ⟨.strong, p, q⟩ ∈ kb.relations → ⟨.strong, r, q⟩ ∈ kb.relations →
    kb.admits r args = true → W p args → W r args

/-- The knowledge base has grown by calls that are among some, and the other ways to hold of what a
call is a way for have been called too, unless it is pending. -/
structure Confined (kb₀ : KnowledgeBase) (W : PredicateId → Arguments → Prop) (pending : Pending)
    (kb : KnowledgeBase) : Prop where
  grows : Grows kb₀ kb
  wanted : ∀ p args, kb.Called p args → W p args
  joined : ∀ p q r args, kb.Called p args → (p, args) ∉ pending →
    ⟨.strong, p, q⟩ ∈ kb.relations → ⟨.strong, r, q⟩ ∈ kb.relations →
      kb.admits r args = true → kb.Called r args

/-- At the start nothing has been called. -/
theorem confined_start (huses : ∀ p, kb.uses p = ({}, [])) : Confined kb W [] kb where
  grows := Grows.refl kb
  wanted _ _ hcalled := absurd hcalled.choose_spec (not_called_of_uses (huses _))
  joined _ _ _ _ hcalled := absurd hcalled.choose_spec (not_called_of_uses (huses _))

theorem Confined.enrolls (h : Confined kb₀ W pending kb) (hplaced : kb.Placed)
    (hadmitted : ∀ p args a, kb.atom? p args = some a → kb.admits p args = true)
    (hkb : Enrolls kb kb') : Confined kb₀ W pending kb' := by
  have hcalled : ∀ p args, kb'.Called p args ↔ kb.Called p args := fun p args =>
    exists_congr fun a => by rw [hkb.develops.atom?]
  refine ⟨h.grows.trans hkb.grows, fun p args hp => h.wanted p args ((hcalled p args).1 hp),
    fun p q r args hp hpending hq hr hadmits => ?_⟩
  obtain ⟨a, ha⟩ := (hcalled p args).1 hp
  have hregistered := registered_of_admits (hadmitted p args a ha)
  rw [hkb.stays.admits hplaced hregistered (hkb.grows.signature r)] at hadmits
  rw [hkb.same.relations] at hq hr
  exact (hcalled r args).2 (h.joined p q r args ⟨a, ha⟩ hpending hq hr hadmits)

/-- A call that is wanted may be entered, and is pending from then on. -/
theorem Confined.enter (h : Confined kb₀ W pending kb) (hp : p < kb.predicates.size)
    (hnone : kb.atom? p args = none) (hwanted : W p args) :
    Confined kb₀ W ((p, args) :: pending) (kb.enter p args a) := by
  have hgrows : Grows kb (kb.enter p args a) := grows_enter hnone a
  refine ⟨h.grows.trans hgrows, fun q args' hq => ?_,
    fun q u r args' hq hpending hu hr hadmits => ?_⟩
  · obtain ⟨b, hb⟩ := hq
    -- the new call is wanted, and it is pending, so nothing is asked of it yet
    rcases atom?_enter_cases hp hnone hb with ⟨rfl, rfl, -⟩ | hb
    · exact hwanted
    · exact h.wanted q args' ⟨b, hb⟩
  · obtain ⟨b, hb⟩ := hq
    rcases atom?_enter_cases hp hnone hb with ⟨rfl, rfl, -⟩ | hb
    · exact absurd List.mem_cons_self hpending
    · rw [admits_enter] at hadmits
      obtain ⟨c, hc⟩ := h.joined q u r args' ⟨b, hb⟩
        (fun hmem => hpending (List.mem_cons_of_mem _ hmem)) hu hr hadmits
      exact ⟨c, hgrows.atoms r args' c hc⟩

/-- A call is settled once the calls it leads to by strong relations are made. -/
theorem Confined.settle (h : Confined kb₀ W ((p, args) :: pending) kb)
    (hjoined : ∀ q r : Nat, ⟨.strong, p, q⟩ ∈ kb.relations → ⟨.strong, r, q⟩ ∈ kb.relations →
      kb.admits r args = true → kb.Called r args) : Confined kb₀ W pending kb where
  grows := h.grows
  wanted := h.wanted
  joined q u r args' hq hpending hu hr hadmits := by
    by_cases he : (q, args') = (p, args)
    · obtain ⟨rfl, rfl⟩ := Prod.mk.inj he
      exact hjoined u r hu hr hadmits
    · exact h.joined q u r args' hq (fun hmem => (List.mem_cons.1 hmem).elim he hpending) hu hr
        hadmits

end KnowledgeBase

open Grounding Action KnowledgeBase

/-- What else is kept, together with the bounds that calls stay in. -/
def Upkeep.within {ρ γ : Type} (u : Upkeep ρ γ) {kb₀ : KnowledgeBase}
    {W : PredicateId → Arguments → Prop} (hplaced : kb₀.Placed) (hclosed : kb₀.Closed W) :
    Upkeep ρ γ where
  Holds pending g x := u.Holds pending g x ∧ Confined kb₀ W pending g.base
  Refused := u.Refused
  More := u.More
  Done := u.Done
  Wanted pending kb p args := u.Wanted pending kb p args ∧ W p args
  more_refl := u.more_refl
  more_trans := u.more_trans
  done_lasts := u.done_lasts
  refused h := u.refused h.1
  orderly h := u.orderly h.1
  admitted h := u.admitted h.1
  enrolls h hkb := ⟨u.enrolls h.1 hkb, h.2.enrolls (u.orderly h.1).toPlaced
    (fun _ _ _ ha => u.admitted h.1 ha) hkb⟩
  enters h hp hnone hadmits hwanted :=
    ⟨u.enters h.1 hp hnone hadmits hwanted.1, h.2.enter hp hnone hwanted.2⟩
  tells h hr hl := (u.tells h.1 hr hl).imp_done fun _ _ ⟨y, ht, hbase, hmore, hdone⟩ =>
    ⟨y, ⟨ht, hbase ▸ h.2⟩, hbase, hmore, hdone⟩
  settles h ha hdone hjoined := (u.settles h.1 ha hdone hjoined).imp_done
    fun _ _ ⟨y, ht, hbase, hmore⟩ => ⟨y, ⟨ht, hbase ▸ h.2.settle hjoined⟩, hbase, hmore⟩
  withdraws := u.withdraws
  wanted_lasts h hgrows hwanted := ⟨u.wanted_lasts h.1 hgrows hwanted.1, hwanted.2⟩
  wanted_enter hwanted := ⟨u.wanted_enter hwanted.1, hwanted.2⟩
  wanted_general h hr hbears hwanted := by
    have hgrows := h.2.grows
    refine ⟨u.wanted_general h.1 hr hbears hwanted.1, ?_⟩
    refine hclosed.general _ (hgrows.relations ▸ hr) _ ?_ hwanted.2
    exact (hgrows.stays.bears_iff hplaced (hclosed.registered _ _ hwanted.2)
      (hgrows.signature _)).1 hbears
  wanted_sibling h hq hr hadmits hwanted := by
    have hgrows := h.2.grows
    refine ⟨u.wanted_sibling h.1 hq hr hadmits hwanted.1, ?_⟩
    rw [hgrows.stays.admits hplaced (hclosed.registered _ _ hwanted.2) (hgrows.signature _)]
      at hadmits
    exact hclosed.sibling _ _ _ _ (hgrows.relations ▸ hq) (hgrows.relations ▸ hr) hadmits hwanted.2

/-! ### Requests -/

/-- Something that may be asked of a grounding. -/
inductive Request where
  | call (p : PredicateId) (args : Arguments)
  | existential (p : PredicateId) (sort : SortId)
  deriving DecidableEq, Repr

namespace Request

variable {ρ : Type}

def perform : Request → EStateM Error (Grounding ρ) PUnit
  | .call p args => do let _ ← Grounding.call p args
  | .existential p s => do let _ ← Grounding.existential p s

/-- The predicate, the sort and the entities are there. -/
def Valid (kb : KnowledgeBase) : Request → Prop
  | .call p args => p < kb.predicates.size ∧ kb.Registered args
  | .existential p s => p < kb.predicates.size ∧ s < kb.taxonomy.size

instance (kb : KnowledgeBase) : (r : Request) → Decidable (r.Valid kb)
  | .call p args => inferInstanceAs (Decidable (p < kb.predicates.size ∧
      ∀ e ∈ args.entities, (kb.sortOf? e).isSome))
  | .existential p s =>
    inferInstanceAs (Decidable (p < kb.predicates.size ∧ s < kb.taxonomy.size))

/-- What was asked for is there. -/
def Fulfilled (kb : KnowledgeBase) : Request → Prop
  | .call p args => kb.Called p args
  | .existential p s => ∃ e, kb.Requested p s e

end Request

namespace KnowledgeBase

variable {kb : KnowledgeBase} {rs rs' : List Request} {p : PredicateId} {s : SortId}
  {args : Arguments}

/-- The calls that the relations lead to from those that were asked for. -/
inductive Reached (kb : KnowledgeBase) (rs : List Request) : PredicateId → Arguments → Prop where
  | request {p : PredicateId} {args : Arguments} (h : .call p args ∈ rs) : Reached kb rs p args
  | general {r : Relation} {args : Arguments} (hr : r ∈ kb.relations) (hbears : kb.Bears r args)
    (h : Reached kb rs r.specific args) : Reached kb rs r.general args
  | sibling {p q r : PredicateId} {args : Arguments} (hq : ⟨.strong, p, q⟩ ∈ kb.relations)
    (hr : ⟨.strong, r, q⟩ ∈ kb.relations) (hadmits : kb.admits r args = true)
    (h : Reached kb rs p args) : Reached kb rs r args

/-- The existentials that were asked for, and those over the sorts below. -/
inductive Asked (kb : KnowledgeBase) (rs : List Request) : PredicateId → SortId → Prop where
  | request {p : PredicateId} {s : SortId} (h : .existential p s ∈ rs) : Asked kb rs p s
  | subsort {p : PredicateId} {s c : SortId} (hc : c ∈ kb.taxonomy.subsorts s)
    (h : Asked kb rs p s) : Asked kb rs p c

theorem closed_reached (hvalid : ∀ r ∈ rs, r.Valid kb) : kb.Closed (Reached kb rs) where
  registered p args h := by
    induction h with
    | request h => exact (hvalid _ h).2
    | general _ _ _ ih => exact ih
    | sibling _ _ _ _ ih => exact ih
  general _ hr _ hbears h := .general hr hbears h
  sibling _ _ _ _ hq hr hadmits h := .sibling hq hr hadmits h

/-- What is reached does not depend on the order of the requests. -/
theorem Reached.of_subset (hsub : rs ⊆ rs') (h : Reached kb rs p args) : Reached kb rs' p args := by
  induction h with
  | request h => exact .request (hsub h)
  | general hr hbears _ ih => exact .general hr hbears ih
  | sibling hq hr hadmits _ ih => exact .sibling hq hr hadmits ih

/-- More requests ask for no less. -/
theorem Asked.of_subset (hsub : rs ⊆ rs') (h : Asked kb rs p s) : Asked kb rs' p s := by
  induction h with
  | request h => exact .request (hsub h)
  | subsort hc _ ih => exact .subsort hc ih

end KnowledgeBase

namespace Grounding

variable {ρ : Type} {g t : Grounding ρ} {opened : List (PredicateId × SortId)} {kb : KnowledgeBase}
  {rs : List Request} {p s : Nat} {args : Arguments}

/-! ### What existentials ask for -/

/-- Requests for existentials leave calls as they are. -/
theorem Asks.grows (h : Asks g t) : Grows g.base t.base where
  stays := by
    refine ⟨h.taxonomy ▸ Taxonomy.Extends.refl _, fun e s he => ?_⟩
    rw [sortOf?, h.entities]
    exact he
  sorts := by rw [h.taxonomy]
  size := h.size
  name := h.name
  signature := h.signature
  relations := h.relations
  atoms p args a ha := (h.atom? p args).trans ha

/-- To ask for existentials makes no calls. -/
theorem Asks.called_iff (h : Asks g t) (p : PredicateId) (args : Arguments) :
    t.base.Called p args ↔ g.base.Called p args :=
  exists_congr fun a => by rw [h.atom?]

theorem Asks.admits (h : Asks g t) (p : PredicateId) (args : Arguments) :
    t.base.admits p args = g.base.admits p args := by
  have hbelongs : t.base.belongs = g.base.belongs := by
    funext e s
    rw [KnowledgeBase.belongs, sortOf?, h.entities, h.taxonomy]
    rfl
  rw [KnowledgeBase.admits, h.signature, fits, hbelongs]
  rfl

theorem Asks.confined (h : Asks g t) {W : PredicateId → Arguments → Prop}
    (hg : Confined kb W [] g.base) : Confined kb W [] t.base where
  grows := hg.grows.trans h.grows
  wanted p args hp := hg.wanted p args ((h.called_iff p args).1 hp)
  joined p q r args hp hpending hq hr hadmits := (h.called_iff r args).2
    (hg.joined p q r args ((h.called_iff p args).1 hp) hpending (h.relations ▸ hq)
      (h.relations ▸ hr) (h.admits r args ▸ hadmits))

/-- What is kept while existentials are requested: what was told are links, calls and existentials
are within their bounds, and those over the subsorts have been requested too, unless they have been
opened only. -/
structure Inquired (kb : KnowledgeBase) (rs : List Request) (opened : List (PredicateId × SortId))
    (g : Grounding ρ) : Prop where
  compiled : ∃ links, Compiled [] g links
  confined : Confined kb (Reached kb rs) [] g.base
  asked : ∀ p s e, g.base.Requested p s e → Asked kb rs p s
  below : ∀ p s e, g.base.Requested p s e → (p, s) ∉ opened →
    ∀ c ∈ g.base.taxonomy.subsorts s, ∃ f, g.base.Requested p c f

/-- Subsorts stay the same while only entities are registered. -/
theorem mem_subsorts_of_grows {kb kb' : KnowledgeBase} (hkb : kb.Placed) (hkb' : kb'.Placed)
    (h : Grows kb kb') {c s : SortId} :
    c ∈ kb'.taxonomy.subsorts s ↔ c ∈ kb.taxonomy.subsorts s := by
  refine ⟨fun hc => ?_, hkb.mem_subsorts hkb' h.stays⟩
  have hparent := (hkb'.tree.mem_subsorts s c).1 hc
  have hlt : c < kb.taxonomy.size := h.sorts ▸ Taxonomy.size_le_of_parent? hparent
  rwa [hkb.tree.mem_subsorts, ← h.stays.taxonomy.parent c hlt]

/-- An existential that is asked for may be opened. -/
theorem Inquired.opens (h : Inquired kb rs opened g) (hexact : Exact [] opened g)
    (hp : p < g.base.predicates.size) (hs : s < g.base.taxonomy.size)
    (hnone : ∀ e, ¬ g.base.Requested p s e) (hasked : Asked kb rs p s) :
    After (openExistential p s) g (fun _ t => Inquired kb rs ((p, s) :: opened) t)
      fun _ _ => True := by
  obtain ⟨links, hlinks⟩ := h.compiled
  refine ((Grounding.after_openExistential hexact.backed.wellFormed p s).and
    ((hexact.after_openExistential hp hs hnone).and (hlinks.after_openExistential hexact hp))).mono
    (fun e t ⟨⟨_, hbase, _⟩, ⟨_, _, hasks⟩, ht⟩ => ?_) fun _ _ _ => trivial
  -- one existential is new, and it is opened, so its subsorts may still be missing
  have hrequested : ∀ {q u f}, t.base.Requested q u f ↔
      g.base.Requested q u f ∨ q = p ∧ u = s ∧ f = e := hbase ▸ requested_request hp
  refine ⟨⟨links, ht⟩, hasks.confined h.confined, fun q u f hf => ?_,
    fun q u f hf hopened c hc => ?_⟩
  · rcases hrequested.1 hf with hf | ⟨rfl, rfl, -⟩
    · exact h.asked q u f hf
    · exact hasked
  · rw [hasks.taxonomy] at hc
    rcases hrequested.1 hf with hf | ⟨rfl, rfl, -⟩
    · obtain ⟨k, hk⟩ := h.below q u f hf (fun hmem => hopened (List.mem_cons_of_mem _ hmem)) c hc
      exact ⟨k, hasks.requested q c k hk⟩
    · exact absurd List.mem_cons_self hopened

/-- An existential that is requested may be supported. -/
theorem Inquired.supports (h : Inquired kb rs opened g) (hexact : Exact [] opened g)
    {e : Nat} {l : Literal} (he : g.base.Requested p s e) (hl : Supports [] g.base p s l) :
    After (assert (.rule e [l])) g (fun _ t => Inquired kb rs opened t) fun _ _ => True := by
  obtain ⟨links, hlinks⟩ := h.compiled
  have hnamed := hexact.exists_named (Or.inr ⟨p, s, he⟩)
  have hjustified : ∀ a, g.base.Justifies ⟨.strong, a, e⟩ := fun _ => Or.inr ⟨rfl, p, s, he⟩
  have hassert : ∀ a : Nat, g.base.Speaks a →
      After (assert (.rule e [Literal.pos a])) g (fun _ t => Inquired kb rs opened t)
        fun _ _ => True := fun a ha =>
    (hlinks.after_assert (l := ⟨.strong, a, e⟩) (hexact.exists_named ha) hnamed
      (hjustified a)).imp_done fun _ t ⟨ht, hbase, _⟩ => ⟨⟨_, ht⟩, hbase ▸ h.confined,
        hbase ▸ h.asked, hbase ▸ h.below⟩
  -- either way the support is an atom that the knowledge base speaks of
  cases hl with
  | member hm _ => exact hassert _ (Or.inl ⟨p, _, hm.atom⟩)
  | subsort hb => exact hassert _ (Or.inr ⟨p, _, hb.requested⟩)

/-- Requests stay within what was asked for. -/
def inquiry (ρ : Type) {kb : KnowledgeBase} (hkb : kb.Placed) (rs : List Request) : Inquiry ρ where
  Holds := Inquired kb rs
  Wanted := Asked kb rs
  opens hexact h hp hs _ hwanted hnone := h.opens hexact hp hs hnone hwanted
  supports hexact h he hl := h.supports hexact he hl
  closes {opened g p s} h hbelow :=
    { h with
      below := by
        intro q u f hf hopened
        by_cases hself : (q, u) = (p, s)
        · obtain ⟨rfl, rfl⟩ := Prod.mk.inj hself
          exact hbelow
        · exact h.below q u f hf fun hmem => (List.mem_cons.1 hmem).elim hself hopened }
  wanted_subsort hexact h hwanted hc := .subsort ((mem_subsorts_of_grows hkb
    hexact.orderly.toPlaced h.confined.grows).1 hc) hwanted

/-! ### Runs of requests -/

/-- Nothing is pending, and calls and existentials are within what was asked for. -/
structure Arrived (kb : KnowledgeBase) (rs : List Request) (g : Grounding ρ) : Prop where
  exact : Exact [] [] g
  inquired : Inquired kb rs [] g

/-- Nothing is missing at the start, where nothing was asked for. -/
theorem arrived_start (horder : kb.Orderly) (huses : ∀ p, kb.uses p = ({}, [])) (rs : List Request)
    (config : Config) (source : ρ) : Arrived kb rs ⟨kb, Solver.ofConfig config source⟩ where
  exact := exact_start horder huses config source
  inquired := ⟨⟨[], compiled_start huses config source⟩, confined_start huses,
    fun p _ _ he => absurd he (not_requested_of_uses (huses p)),
    fun p _ _ he => absurd he (not_requested_of_uses (huses p))⟩

/-- A call that goes through makes the calls that are to be made, and requests nothing. -/
theorem Arrived.after_call (h : Arrived kb rs g) (hkb : kb.Placed)
    (hvalid : ∀ r ∈ rs, r.Valid kb) (hr : .call p args ∈ rs) :
    After (call p args) g (fun _ t => Arrived kb rs t ∧ t.base.Called p args ∧
      Grows g.base t.base ∧ SameExistentials g.base t.base) fun _ _ => True := by
  obtain ⟨links, hlinks⟩ := h.inquired.compiled
  have hgrows := h.inquired.confined.grows
  have hp : p < g.base.predicates.size := hgrows.size ▸ (hvalid _ hr).1
  refine (After.and (((compileUpkeep ρ).within hkb (closed_reached hvalid)).after_call
    (x := links) ⟨⟨h.exact, hlinks⟩, h.inquired.confined⟩ hp ⟨trivial, .request hr⟩)
    (h.exact.after_call hp args)).mono (fun a t ⟨ht, hsame⟩ => ?_) fun _ _ _ => trivial
  -- a call adds no existential, and sorts stay, so what is asked is as before
  obtain ⟨links', ⟨⟨hexact, hlinks'⟩, hconfined⟩, hgrows', -, ha⟩ := ht
  refine ⟨⟨hexact, ⟨links', hlinks'⟩, hconfined, fun q s e he => ?_, fun q s e he hnot c hc => ?_⟩,
    ⟨a, ha⟩, hgrows', hsame.2⟩
  · exact h.inquired.asked q s e (hsame.2.requested.1 he)
  · rw [mem_subsorts_of_grows h.exact.orderly.toPlaced hexact.orderly.toPlaced hgrows'] at hc
    obtain ⟨f, hf⟩ := h.inquired.below q s e (hsame.2.requested.1 he) hnot c hc
    exact ⟨f, hsame.2.requested.2 hf⟩

/-- A request for an existential that goes through requests those that are to be requested, and
calls nothing. -/
theorem Arrived.after_existential (h : Arrived kb rs g) (hkb : kb.Placed)
    (hvalid : ∀ r ∈ rs, r.Valid kb) (hr : .existential p s ∈ rs) :
    After (existential p s) g (fun _ t => Arrived kb rs t ∧
      (∃ e, t.base.Requested p s e) ∧ Asks g t) fun _ _ => True := by
  have hgrows := h.inquired.confined.grows
  have hp : p < g.base.predicates.size := hgrows.size ▸ (hvalid _ hr).1
  have hs : s < g.base.taxonomy.size := hgrows.sorts ▸ (hvalid _ hr).2
  by_cases hunary : (g.base.predicate p).signature.arity = 1
  · exact After.imp (Inquiry.answers_existential (u := inquiry ρ hkb rs) ⟨h.exact, h.inquired⟩
      ⟨hp, hs, hunary, .request hr⟩)
      fun e t ⟨ht, he, hasks⟩ => ⟨⟨ht.exact, ht.holds⟩, ⟨e, he⟩, hasks⟩
  · exact (after_existential_of_arity_ne hunary s).imp_refused fun _ _ _ => trivial

/-- A request that goes through is fulfilled, and those before stay so. -/
theorem Arrived.after_perform (h : Arrived kb rs g) (hkb : kb.Placed)
    (hvalid : ∀ r ∈ rs, r.Valid kb) {r : Request} (hr : r ∈ rs) :
    After (r.perform (ρ := ρ)) g (fun _ t => Arrived kb rs t ∧ r.Fulfilled t.base ∧
      ∀ r' : Request, r'.Fulfilled g.base → r'.Fulfilled t.base) fun _ _ => True := by
  cases r with
  | call p args =>
    refine after_bind.2 ((h.after_call hkb hvalid hr).imp_done
      fun _ t ⟨ht, hcalled, hgrows, hsame⟩ => after_pure.2 ⟨ht, hcalled, ?_⟩)
    -- what was fulfilled lasts: domains only grow and existentials stay
    rintro (⟨q, args'⟩ | ⟨q, s⟩) hdone
    · exact hdone.imp fun a ha => hgrows.atoms q args' a ha
    · exact hdone.imp fun e he => hsame.requested.2 he
  | existential p s =>
    refine after_bind.2 ((h.after_existential hkb hvalid hr).imp_done
      fun _ t ⟨ht, hrequested, hasks⟩ => after_pure.2 ⟨ht, hrequested, ?_⟩)
    rintro (⟨q, args'⟩ | ⟨q, s⟩) hdone
    · exact (hasks.called_iff q args').2 hdone
    · exact hdone.imp fun e he => hasks.requested q s e he

/-- Requests, one after the other. -/
def run (rs : List Request) : EStateM Error (Grounding ρ) PUnit := rs.forM Request.perform

/-- **A run that goes through fulfils its requests,** and does no more than they lead to. -/
theorem after_run (horder : kb.Orderly) (huses : ∀ p, kb.uses p = ({}, []))
    (hvalid : ∀ r ∈ rs, r.Valid kb) (config : Config) (source : ρ) :
    After (run rs) ⟨kb, Solver.ofConfig config source⟩
      (fun _ t => Arrived kb rs t ∧ ∀ r ∈ rs, r.Fulfilled t.base) fun _ _ => True := by
  refine after_forM (I := fun (done : List Request) t =>
    Arrived kb rs t ∧ ∀ r ∈ done, r.Fulfilled t.base)
    (fun done r rest hsplit t ⟨ht, hdone⟩ => ?_)
    ⟨arrived_start horder huses rs config source, nofun⟩
  have hr : r ∈ rs := by
    rw [hsplit]
    exact List.mem_append_right _ List.mem_cons_self
  refine (ht.after_perform horder.toPlaced hvalid hr).imp_done
    fun _ u ⟨hu, hfulfilled, hlasts⟩ => ⟨hu, fun r' hr' => ?_⟩
  -- earlier requests stay fulfilled, and this one has just been
  rcases List.mem_append.1 hr' with hr' | hr'
  · exact hlasts r' (hdone r' hr')
  · rw [List.mem_singleton.1 hr']
    exact hfulfilled

/-- **The calls that have been made are those that the requests lead to.** -/
theorem Arrived.called_iff (h : Arrived kb rs g) (hkb : kb.Placed) (hvalid : ∀ r ∈ rs, r.Valid kb)
    (hdone : ∀ r ∈ rs, r.Fulfilled g.base) :
    g.base.Called p args ↔ Reached kb rs p args := by
  refine ⟨h.inquired.confined.wanted p args, fun hreached => ?_⟩
  obtain ⟨links, hlinks⟩ := h.inquired.compiled
  have hgrows := h.inquired.confined.grows
  have hregistered := (closed_reached hvalid).registered
  -- one case for each way that a call leads to another
  induction hreached with
  | request hr => exact hdone _ hr
  | @general r args hr hbears hspecific ih =>
    rw [← hgrows.stays.bears_iff hkb (hregistered _ _ hspecific) (hgrows.signature r.general)]
      at hbears
    -- no call is pending, so the relation has its link, and a link joins two calls that were made
    obtain ⟨l, -, hrelates⟩ := hlinks.complete r (hgrows.relations ▸ hr) args ih List.not_mem_nil
      hbears
    exact ⟨_, hrelates.general⟩
  | @sibling p q r args hq hr hadmits hp ih =>
    rw [← hgrows.stays.admits hkb (hregistered _ _ hp) (hgrows.signature r)] at hadmits
    exact h.inquired.confined.joined p q r args ih List.not_mem_nil (hgrows.relations ▸ hq)
      (hgrows.relations ▸ hr) hadmits

/-- **The existentials are those that were asked for, and those over the sorts below.** -/
theorem Arrived.requested_iff (h : Arrived kb rs g) (hkb : kb.Placed)
    (hdone : ∀ r ∈ rs, r.Fulfilled g.base) :
    (∃ e, g.base.Requested p s e) ↔ Asked kb rs p s := by
  refine ⟨fun ⟨e, he⟩ => h.inquired.asked p s e he, fun hasked => ?_⟩
  induction hasked with
  | request hr => exact hdone _ hr
  | subsort hc _ ih =>
    obtain ⟨e, he⟩ := ih
    exact h.inquired.below _ _ e he List.not_mem_nil _ ((mem_subsorts_of_grows hkb
      h.exact.orderly.toPlaced h.inquired.confined.grows).2 hc)

end Grounding

end Storyworld
