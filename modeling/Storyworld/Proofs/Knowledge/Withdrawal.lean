import Mathlib.Logic.Relation
import Storyworld.Proofs.Knowledge.Closure

namespace Storyworld

/-!
# What refused calls leave behind

When a call is refused, its arguments are taken out of the domain again, and so are those of the
calls that had led to it. Other calls that went through on the way stay. What their relations ask
for had been called by then, but some of it may still have been under way, and is taken out
afterwards.

The crux is that each call under way has led to the later ones (`Chained`). If one that goes through
relies on one under way, then the latter has led to it, and the relations go around in a cycle. So
what a relation asks for is there, unless it leads back and a call on the same arguments was refused
(`Intact`, `Attempts.called_general`). There is no getting rid of the exception: where relations go
around in a cycle, a call that is refused at first may go through after another was refused
(`half_compiled_granite`).
-/

namespace KnowledgeBase

open Grounding

variable {kb kb' : KnowledgeBase} {args args' : Arguments} {p q : Nat} {r : Relation}
  {failed : List Arguments} {pending : Pending} {a : Nat}

/-! ### Where calls lead -/

/-- A call of the first predicate on the arguments leads to one of the second. -/
def Leads (kb : KnowledgeBase) (args : Arguments) (p q : PredicateId) : Prop :=
  Reached kb [.call p args] q args

/-- A call leads to itself. -/
theorem Leads.refl (kb : KnowledgeBase) (args : Arguments) (p : PredicateId) :
    kb.Leads args p p := .request List.mem_cons_self

/-- A predicate that is never the specific one leads to no other. -/
theorem Leads.eq_of_unrelated (h : kb.Leads args p q) (hp : ∀ r ∈ kb.relations, r.specific ≠ p) :
    q = p := by
  suffices hreached : ∀ args' q, kb.Reached [.call p args] q args' → q = p from hreached args q h
  intro args' q hq
  induction hq with
  | request hmem => exact (Request.call.inj (List.mem_singleton.1 hmem)).1
  | general hr _ _ ih => exact absurd ih (hp _ hr)
  | sibling hq _ _ _ ih => exact absurd ih (hp _ hq)

/-- The relations are kept, and the predicates that they are between admit the arguments as
before. -/
structure Retains (kb kb' : KnowledgeBase) (args : Arguments) : Prop where
  relations : ∀ r ∈ kb.relations, r ∈ kb'.relations
  specific : ∀ r ∈ kb.relations, kb'.admits r.specific args = kb.admits r.specific args
  general : ∀ r ∈ kb.relations, kb'.admits r.general args = kb.admits r.general args

/-- A relation that is kept bears on the same calls. -/
theorem Retains.bears_iff (h : Retains kb kb' args) (hr : r ∈ kb.relations) :
    kb'.Bears r args ↔ kb.Bears r args := by
  rw [Bears, Bears, h.general r hr]

/-- What a call leads to is on the same arguments. -/
theorem Retains.reached (h : Retains kb kb' args) (hq : kb.Reached [.call p args] q args') :
    args' = args ∧ kb'.Reached [.call p args] q args' := by
  induction hq with
  | request hmem => exact ⟨(Request.call.inj (List.mem_singleton.1 hmem)).2, .request hmem⟩
  | general hr hbears _ ih =>
    obtain ⟨rfl, ih⟩ := ih
    exact ⟨rfl, .general (h.relations _ hr) ((h.bears_iff hr).2 hbears) ih⟩
  | sibling hq hr hadmits _ ih =>
    obtain ⟨rfl, ih⟩ := ih
    exact ⟨rfl, .sibling (h.relations _ hq) (h.relations _ hr)
      ((h.specific _ hr).trans hadmits) ih⟩

/-- Where the relations are kept, a call leads where it led. -/
theorem Retains.leads (h : Retains kb kb' args) (hleads : kb.Leads args p q) :
    kb'.Leads args p q := (h.reached hleads).2

/-- A relation of the first predicate asks for a call of the second. -/
def Prompts (kb : KnowledgeBase) (args : Arguments) (p q : PredicateId) : Prop :=
  ∃ r ∈ kb.relations, r.specific = p ∧ r.general = q ∧ kb.Bears r args

/-- What a relation asks for is led to by whatever led to the call. -/
theorem Prompts.leads {u : Nat} (h : kb.Prompts args p q) (hp : kb.Leads args u p) :
    kb.Leads args u q := by
  obtain ⟨r, hr, rfl, rfl, hbears⟩ := h
  exact .general hr hbears hp

/-- A relation that is kept asks for what it asked for. -/
theorem Retains.prompts (h : Retains kb kb' args) (hprompts : kb.Prompts args p q) :
    kb'.Prompts args p q := by
  obtain ⟨r, hr, hspecific, hgeneral, hbears⟩ := hprompts
  exact ⟨r, h.relations r hr, hspecific, hgeneral, (h.bears_iff hr).2 hbears⟩

/-- Nothing that a call leads to leads back. -/
def OneWay (kb : KnowledgeBase) (p : PredicateId) (args : Arguments) : Prop :=
  ∀ q u, kb.Leads args p q → kb.Prompts args q u → ¬ kb.Leads args u q

/-- Where no relation was added, what is retained is so both ways. -/
theorem Retains.symm (h : Retains kb kb' args)
    (hrelations : ∀ r ∈ kb'.relations, r ∈ kb.relations) : Retains kb' kb args where
  relations := hrelations
  specific r hr := (h.specific r (hrelations r hr)).symm
  general r hr := (h.general r (hrelations r hr)).symm

/-- Nothing led back before if nothing leads back now. -/
theorem Retains.oneWay (h : Retains kb kb' args) (hone : kb'.OneWay p args) : kb.OneWay p args :=
  fun q u hq hprompts hleads => hone q u (h.leads hq) (h.prompts hprompts) (h.leads hleads)

/-- A knowledge base that develops retains its relations and what is admitted. -/
theorem Develops.retains (h : Develops kb kb') (hkb : kb.Orderly) (hargs : kb.Registered args) :
    Retains kb kb' args where
  relations := h.relations
  specific r hr := h.stays.admits hkb.toPlaced hargs (h.signature _ (hkb.relations r hr).1)
  general r hr := h.stays.admits hkb.toPlaced hargs (h.signature _ (hkb.relations r hr).2)

/-- Calls retain the relations and what is admitted of registered arguments. -/
theorem Grows.retains (h : Grows kb kb') (hkb : kb.Placed) (hargs : kb.Registered args) :
    Retains kb kb' args where
  relations _ hr := h.relations ▸ hr
  specific r _ := h.stays.admits hkb hargs (h.signature r.specific)
  general r _ := h.stays.admits hkb hargs (h.signature r.general)

/-- To put arguments into a domain retains the relations. -/
theorem retains_enter : Retains kb (kb.enter p args' a) args :=
  ⟨fun _ hr => hr, fun _ _ => admits_enter, fun _ _ => admits_enter⟩

/-- To take arguments out of a domain retains the relations. -/
theorem retains_withdraw : Retains kb (kb.withdraw p args') args :=
  ⟨fun _ hr => hr, fun _ _ => admits_withdraw, fun _ _ => admits_withdraw⟩

/-! ### What has been called -/

/-- The general predicate of the relation has been called on the arguments, and is not pending any
more. Where the relations lead back from it, it may be pending, or have been taken out again. -/
def Answered (failed : List Arguments) (pending : Pending) (kb : KnowledgeBase) (r : Relation)
    (args : Arguments) : Prop :=
  kb.Called r.general args ∧ (r.general, args) ∉ pending ∨
    kb.Leads args r.general r.specific ∧ (kb.Called r.general args ∨ args ∈ failed)

/-- What the relations of a call ask for has been called, unless the call itself is pending. -/
def Intact (failed : List Arguments) (pending : Pending) (kb : KnowledgeBase) : Prop :=
  ∀ r ∈ kb.relations, ∀ args, kb.Called r.specific args → (r.specific, args) ∉ pending →
    kb.Bears r args → Answered failed pending kb r args

/-- At the start nothing has been called. -/
theorem intact_start (huses : ∀ p, kb.uses p = ({}, [])) : Intact [] [] kb :=
  fun _ _ _ hcalled => absurd hcalled.choose_spec (not_called_of_uses (huses _))

/-- One more refusal only excuses more. -/
theorem Intact.fail (h : Intact failed pending kb) (args : Arguments) :
    Intact (args :: failed) pending kb := fun r hr args' hcalled hpending hbears =>
  (h r hr args' hcalled hpending hbears).imp_right
    (And.imp_right (Or.imp_right (List.mem_cons_of_mem _)))

/-- Whatever has the same calls is intact as well, if relations are new only where there are
none. -/
theorem Intact.retains (h : Intact failed pending kb)
    (hcalled : ∀ p args, kb'.Called p args ↔ kb.Called p args)
    (hretains : ∀ p args, kb.Called p args → Retains kb kb' args)
    (hunused : ∀ r ∈ kb'.relations, r ∈ kb.relations ∨ ∀ args, kb.atom? r.specific args = none) :
    Intact failed pending kb' := by
  intro r hr args hspecific hpending hbears
  rw [hcalled] at hspecific
  -- a relation that is new is about a predicate that was never called
  rcases hunused r hr with hr | hnone
  · have hkept := hretains _ _ hspecific
    rw [hkept.bears_iff hr] at hbears
    rw [Answered, hcalled]
    exact (h r hr args hspecific hpending hbears).imp_right (And.imp_left hkept.leads)
  · obtain ⟨a, ha⟩ := hspecific
    rw [hnone] at ha
    cases ha

theorem Intact.develops (h : Intact failed pending kb) (hkb : kb.Orderly)
    (hadmitted : ∀ p args a, kb.atom? p args = some a → kb.admits p args = true)
    (hdevelops : Develops kb kb') : Intact failed pending kb' :=
  h.retains (fun p args => exists_congr fun a => by rw [hdevelops.atom?])
    (fun p args ⟨a, ha⟩ => hdevelops.retains hkb (registered_of_admits (hadmitted p args a ha)))
    hdevelops.unused

/-- A new call is pending, so that nothing is asked of it, and no other call relies on it yet. -/
theorem Intact.enter (h : Intact failed pending kb) (hp : p < kb.predicates.size)
    (hnone : kb.atom? p args = none) :
    Intact failed ((p, args) :: pending) (kb.enter p args a) := by
  intro r hr args' hspecific hpending hbears
  have hgrows := (grows_enter hnone a).atoms
  obtain ⟨b, hb⟩ := hspecific
  rcases atom?_enter_cases hp hnone hb with ⟨hself, rfl, -⟩ | hb
  · exact absurd (hself ▸ List.mem_cons_self) hpending
  have hr : r ∈ kb.relations := hr
  rw [retains_enter.bears_iff hr] at hbears
  have hanswered := h r hr args' ⟨b, hb⟩ (fun hmem => hpending (List.mem_cons_of_mem _ hmem)) hbears
  refine hanswered.imp (fun ⟨⟨c, hc⟩, hnot⟩ => ⟨⟨c, hgrows _ _ c hc⟩, fun hmem => ?_⟩)
    fun ⟨hleads, hgeneral⟩ => ⟨retains_enter.leads hleads,
      hgeneral.imp_left fun ⟨c, hc⟩ => ⟨c, hgrows _ _ c hc⟩⟩
  rcases List.mem_cons.1 hmem with he | hmem
  · -- what had been called is not the new call
    obtain ⟨rfl, rfl⟩ := Prod.mk.inj he
    rw [hnone] at hc
    cases hc
  · exact hnot hmem

/-- A call that has made the calls it is to make is not pending any more. Those that are pending
still have led to it. -/
theorem Intact.settle (h : Intact failed ((p, args) :: pending) kb)
    (hcalled : ∀ r ∈ kb.relations, r.specific = p → kb.Bears r args → kb.Called r.general args)
    (hleads : ∀ c ∈ pending, c.2 = args → kb.Leads args c.1 p) : Intact failed pending kb := by
  intro r hr args' hspecific hpending hbears
  by_cases hself : (r.specific, args') = (p, args)
  · obtain ⟨rfl, rfl⟩ := Prod.mk.inj hself
    have hgeneral := hcalled r hr rfl hbears
    -- what it relies on may be under way, but then it has led to this call
    by_cases hmem : (r.general, args') ∈ pending
    · exact Or.inr ⟨hleads _ hmem rfl, Or.inl hgeneral⟩
    · exact Or.inl ⟨hgeneral, hmem⟩
  · refine (h r hr args' hspecific (fun hmem => (List.mem_cons.1 hmem).elim hself hpending)
      hbears).imp_left fun ⟨hgeneral, hnot⟩ => ⟨hgeneral, fun hmem => ?_⟩
    exact hnot (List.mem_cons_of_mem _ hmem)

/-- A call that is pending may be withdrawn: what relies on it is in a cycle with it, and its
arguments are refused. -/
theorem Intact.withdraw (h : Intact failed ((p, args) :: pending) kb) (hfailed : args ∈ failed) :
    Intact failed pending (kb.withdraw p args) := by
  intro r hr args' hspecific hpending hbears
  obtain ⟨b, hb⟩ := hspecific
  obtain ⟨hb, hother⟩ := atom?_withdraw_eq_some hb
  have hr : r ∈ kb.relations := hr
  rw [retains_withdraw.bears_iff hr] at hbears
  -- all calls but the one that was refused are still there
  have hcalled : ∀ {q args'}, (q, args') ≠ (p, args) → kb.Called q args' →
      (kb.withdraw p args).Called q args' := fun hne ⟨c, hc⟩ =>
    ⟨c, (atom?_withdraw_of_ne hne.symm).trans hc⟩
  rcases h r hr args' ⟨b, hb⟩ (fun hmem => (List.mem_cons.1 hmem).elim hother hpending) hbears with
    ⟨hgeneral, hnot⟩ | ⟨hleads, hgeneral⟩
  · obtain ⟨hne, hnot⟩ := not_or.1 (mt List.mem_cons.2 hnot)
    exact Or.inl ⟨hcalled hne hgeneral, hnot⟩
  · refine Or.inr ⟨retains_withdraw.leads hleads, ?_⟩
    -- if the refused call had answered, the relation leads back and the arguments have failed
    by_cases hself : (r.general, args') = (p, args)
    · exact Or.inr ((Prod.mk.inj hself).2 ▸ hfailed)
    · exact hgeneral.imp_left (hcalled hself)

/-- A call that has been made has called all that it prompts, if nothing leads back or no call on
the arguments was refused. -/
theorem Intact.called (h : Intact failed [] kb) (hone : args ∈ failed → kb.OneWay p args)
    (hprompts : Relation.ReflTransGen (kb.Prompts args) p q) (hp : kb.Called p args) :
    kb.Called q args := by
  -- along with the call we need the way that led to it, to know that none leads back
  suffices hq : kb.Called q args ∧ kb.Leads args p q from hq.1
  induction hprompts with
  | refl => exact ⟨hp, .refl kb args p⟩
  | tail _ hstep ih =>
    obtain ⟨hcalled, hleads⟩ := ih
    refine ⟨?_, hstep.leads hleads⟩
    obtain ⟨r, hr, rfl, rfl, hbears⟩ := hstep
    rcases h r hr args hcalled List.not_mem_nil hbears with ⟨hgeneral, -⟩ | ⟨hback, hgeneral⟩
    · exact hgeneral
    · exact hgeneral.resolve_right fun hfailed =>
        hone hfailed _ _ hleads ⟨r, hr, rfl, rfl, hbears⟩ hback

/-- The calls under way are on the arguments, and each has led to the later ones. -/
structure Chained (args : Arguments) (pending : Pending) (kb : KnowledgeBase) : Prop where
  same : ∀ c ∈ pending, c.2 = args
  leads : pending.Pairwise fun later earlier => kb.Leads args earlier.1 later.1

/-- The calls under way have led to each other, and still do. -/
theorem Chained.retains (h : Chained args pending kb) (hretains : Retains kb kb' args) :
    Chained args pending kb' := ⟨h.same, h.leads.imp hretains.leads⟩

end KnowledgeBase

namespace Grounding

open Action KnowledgeBase

variable {ρ : Type} {g t : Grounding ρ} {failed : List Arguments} {args : Arguments}
  {pending : Pending} {p q : Nat} {r : Relation} {kb : KnowledgeBase}

/-- While a call is under way its arguments are registered, so calls retain what is admitted of
them. -/
theorem Exact.retains (h : Exact pending [] g) (hchained : Chained args pending g.base)
    {c : PredicateId × Arguments} (hc : c ∈ pending) (hgrows : Grows g.base kb) :
    Retains g.base kb args := by
  obtain ⟨a, ha⟩ := h.entered c hc
  exact hgrows.retains h.orderly.toPlaced (hchained.same c hc ▸ h.registered ha)

/-- Calls on the same arguments keep a knowledge base intact while each leads to the next. Where one
is refused the arguments are. -/
def intactUpkeep (ρ : Type) (failed : List Arguments) (args : Arguments) : Upkeep ρ Unit where
  Holds pending g _ := Exact pending [] g ∧ Chained args pending g.base ∧
    Intact failed pending g.base
  Refused pending g := (∀ c ∈ pending, c.2 = args) ∧ Intact (args :: failed) pending g.base
  More _ _ := True
  Done r args kb _ := kb.Called r.general args
  Wanted pending kb p args' := args' = args ∧ ∀ c ∈ pending, kb.Leads args c.1 p
  more_refl _ := trivial
  more_trans _ _ := trivial
  done_lasts hgrows _ h := h.imp fun a ha => hgrows.atoms _ _ a ha
  refused h := ⟨h.2.1.same, h.2.2.fail args⟩
  orderly h := h.1.orderly
  admitted h ha := h.1.admitted _ _ _ ha
  enrolls h hkb := by
    obtain ⟨hexact, hchained, hintact⟩ := h
    refine ⟨hexact.develops hkb.develops (hexact.orderly.registers hkb.toRegisters),
      ⟨hchained.same, ?_⟩, hintact.develops hexact.orderly hexact.admitted hkb.develops⟩
    refine hchained.leads.imp_of_mem fun {c d} hc _ hleads => ?_
    exact (hexact.retains hchained hc hkb.grows).leads hleads
  enters h hp hnone hadmits hwanted := by
    obtain ⟨hexact, hchained, hintact⟩ := h
    obtain ⟨rfl, hleads⟩ := hwanted
    refine ⟨hexact.enter hp hnone hadmits, ⟨?_, ?_⟩, hintact.enter hp hnone⟩
    · exact List.forall_mem_cons.2 ⟨rfl, hchained.same⟩
    · exact List.pairwise_cons.2 ⟨fun c hc => retains_enter.leads (hleads c hc),
        (hchained.retains retains_enter).leads⟩
  tells h _ hl := (h.1.after_assert hl).mono (fun _ t ⟨ht, hbase⟩ => ⟨(),
    ⟨ht, hbase ▸ h.2⟩, hbase, trivial, hbase ▸ ⟨_, hl.general⟩⟩) fun _ _ => False.elim
  settles h ha hdone _ := by
    obtain ⟨hexact, hchained, hintact⟩ := h
    obtain ⟨hleads, hchain⟩ := List.pairwise_cons.1 hchained.leads
    obtain ⟨rfl, hsame⟩ := List.forall_mem_cons.1 hchained.same
    refine (hexact.after_supportExistentials ha).mono (fun _ t ⟨ht, hbase⟩ => ⟨(), ⟨ht, ?_⟩,
      hbase, trivial⟩) fun _ _ => False.elim
    rw [hbase]
    exact ⟨⟨hsame, hchain⟩, hintact.settle hdone fun c hc _ => hleads c hc⟩
  withdraws h := by
    obtain ⟨hsame, hintact⟩ := h
    obtain ⟨rfl, hsame⟩ := List.forall_mem_cons.1 hsame
    exact ⟨hsame, hintact.withdraw List.mem_cons_self⟩
  wanted_lasts h hgrows hwanted := ⟨hwanted.1, fun c hc =>
    (h.1.retains h.2.1 hc hgrows).leads (hwanted.2 c hc)⟩
  wanted_enter hwanted := by
    obtain ⟨rfl, hleads⟩ := hwanted
    exact ⟨rfl, List.forall_mem_cons.2 ⟨.refl _ _ _, fun c hc => retains_enter.leads (hleads c hc)⟩⟩
  wanted_general _ hr hbears hwanted := by
    obtain ⟨rfl, hleads⟩ := hwanted
    exact ⟨rfl, fun c hc => .general hr hbears (hleads c hc)⟩
  wanted_sibling _ hq hr hadmits hwanted := by
    obtain ⟨rfl, hleads⟩ := hwanted
    exact ⟨rfl, fun c hc => .sibling hq hr hadmits (hleads c hc)⟩

/-- **A call keeps a knowledge base intact,** whether it goes through or is refused. -/
theorem Exact.after_call_intact (h : Exact [] [] g) (hintact : Intact failed [] g.base)
    (hp : p < g.base.predicates.size) (args : Arguments) :
    After (call p args) g (fun a t => Intact failed [] t.base ∧ Grows g.base t.base ∧
      t.base.atom? p args = some a) fun _ t => Intact (args :: failed) [] t.base :=
  After.mono ((intactUpkeep ρ failed args).after_call (x := ())
    ⟨h, ⟨nofun, List.Pairwise.nil⟩, hintact⟩ hp ⟨rfl, nofun⟩)
    (fun _ _ ⟨_, ht, hgrows, _, ha⟩ => ⟨ht.2.2, hgrows, ha⟩) fun _ _ ht => ht.2

/-- A call that leads to one that cannot be made is refused: if it went through, that one would have
been made. -/
theorem Exact.refuses (h : Exact [] [] g) (hintact : Intact failed [] g.base)
    (hp : p < g.base.predicates.size) (hargs : g.base.Registered args)
    (hone : args ∈ failed → g.base.OneWay p args)
    (hprompts : Relation.ReflTransGen (g.base.Prompts args) p q)
    (hadmits : g.base.admits q args = false) : ∃ e t, call p args g = .error e t := by
  cases hcall : call p args g with
  | error e t => exact ⟨e, t, rfl⟩
  -- were it to succeed, `q` would have been called on arguments that it does not admit
  | ok a t =>
    obtain ⟨ht, hgrows, ha⟩ := (h.after_call_intact hintact hp args).of_ok hcall
    have hplaced := h.orderly.toPlaced
    have hretains := hgrows.retains hplaced hargs
    have hback := hretains.symm fun r hr => hgrows.relations ▸ hr
    obtain ⟨b, hb⟩ := ht.called (fun hfailed => hback.oneWay (hone hfailed))
      (Relation.ReflTransGen.mono (fun _ _ => hretains.prompts) _ _ hprompts) ⟨a, ha⟩
    have hadmitted := ((h.after_call hp args).of_ok hcall).1.admitted q args b hb
    rw [hgrows.stays.admits hplaced hargs (hgrows.signature q), hadmits] at hadmitted
    cases hadmitted

/-! ### Attempts -/

/-- The knowledge base and the solver were new, and then things were declared, predicates were
called and existentials were requested. The arguments of the calls that were refused are listed, the
latest first. Whatever else was done to the solver, no rule was asserted with an existential as its
head. -/
inductive Attempts [RandomSource ρ] : List Arguments → Grounding ρ → Prop where
  | start (root : String) (config : Config) (source : ρ) :
    Attempts [] ⟨ofRoot root, Solver.ofConfig config source⟩
  | declaration {failed : List Arguments} {g : Grounding ρ} (hg : Attempts failed g)
    {d : Declaration} (hd : d.Valid g.base) : Attempts failed { g with base := d.perform g.base }
  | call {failed : List Arguments} {g t : Grounding ρ} {p : PredicateId} {args : Arguments}
    {a : Atom} (hg : Attempts failed g) (hp : p < g.base.predicates.size)
    (hok : call p args g = .ok a t) : Attempts failed t
  | refusal {failed : List Arguments} {g t : Grounding ρ} {p : PredicateId} {args : Arguments}
    {e : Error} (hg : Attempts failed g) (hp : p < g.base.predicates.size)
    (hrefused : call p args g = .error e t) : Attempts (args :: failed) t
  | existential {failed : List Arguments} {g : Grounding ρ} (hg : Attempts failed g)
    {p : PredicateId} {s : SortId} (hp : p < g.base.predicates.size)
    (hs : s < g.base.taxonomy.size) : Attempts failed (stateAfter (existential p s) g)
  | solver {failed : List Arguments} {g : Grounding ρ} (hg : Attempts failed g) {m : Solver.Move}
    (hm : m.Spares Proposition.IsExistential g.solver) :
    Attempts failed { g with solver := m.perform g.solver }

variable [RandomSource ρ]

/-- Several declarations in a row are part of the attempts. -/
theorem Attempts.declarations (h : Attempts failed g) {ds : List Declaration}
    (hds : Declaration.ValidAll ds g.base) :
    Attempts failed ⟨ds.foldl (fun kb d => d.perform kb) g.base, g.solver⟩ := by
  induction ds generalizing g with
  | nil => exact h
  | cons d ds ih => exact ih (h.declaration hds.1) hds.2

/-- Attempts are a history: refused calls belong to it as well. -/
theorem Attempts.history (h : Attempts failed g) : ∃ asked, History asked g := by
  induction h with
  | start root config source => exact ⟨_, .start root config source⟩
  | declaration hg hd ih => exact ih.imp fun _ hasked => hasked.declaration hd
  | @call failed g t p args a hg hp hok ih =>
    have hcall := ih.imp fun _ hasked => hasked.call hp args
    rwa [stateAfter, hok] at hcall
  | @refusal failed g t p args e hg hp hrefused ih =>
    have hcall := ih.imp fun _ hasked => hasked.call hp args
    rwa [stateAfter, hrefused] at hcall
  | existential hg hp hs ih => exact ih.elim fun _ hasked => ⟨_, hasked.existential hp hs⟩
  | solver hg hm ih => exact ih.imp fun _ hasked => hasked.solver hm

/-- After any attempts the existentials are exact. -/
theorem Attempts.exact (h : Attempts failed g) : Exact [] [] g :=
  h.history.elim fun _ hasked => hasked.exact

/-- **Whatever was attempted, knowledge bases stay intact.** -/
theorem Attempts.intact (h : Attempts failed g) : Intact failed [] g.base := by
  induction h with
  | start root config source => exact intact_start fun _ => rfl
  | declaration hg hd ih =>
    exact ih.develops hg.exact.orderly hg.exact.admitted
      (Declaration.develops _ hd hg.exact.orderly).1
  | call hg hp hok ih => exact ((hg.exact.after_call_intact ih hp _).of_ok hok).1
  | @refusal failed g t p args e hg hp hrefused ih =>
    have hcall := hg.exact.after_call_intact ih hp args
    -- a refused call keeps the invariant too, now with its arguments among the failed
    rwa [After, hrefused] at hcall
  | existential hg hp hs ih =>
    obtain ⟨-, hasks, -⟩ := hg.exact.existential hp hs
    refine ih.retains hasks.called_iff (fun p args ⟨a, ha⟩ => ?_) fun r hr => Or.inl ?_
    · exact hasks.grows.retains hg.exact.orderly.toPlaced (hg.exact.registered ha)
    · exact hasks.relations ▸ hr
  | solver hg hm ih => exact ih

/-- **Only where relations go around in a cycle may a refused call leave something half compiled.**
What a relation asks for of a call that has been made is there, unless it leads back and a call on
the same arguments was refused. So a call that leads to one that cannot be made is refused, if
nothing leads back or no call on the arguments was refused before. -/
theorem Attempts.called_general (h : Attempts failed g) :
    (∀ r ∈ g.base.relations, ∀ args, g.base.Called r.specific args → g.base.Bears r args →
      g.base.Called r.general args ∨
        args ∈ failed ∧ g.base.Leads args r.general r.specific) ∧
    ∀ p q args, p < g.base.predicates.size → g.base.Registered args →
      Relation.ReflTransGen (g.base.Prompts args) p q → g.base.admits q args = false →
      (args ∈ failed → g.base.OneWay p args) →
        ∃ e t, Grounding.call p args g = .error e t := by
  refine ⟨fun r hr args hspecific hbears => ?_, fun p q args hp hargs hprompts hadmits hone => ?_⟩
  · rcases h.intact r hr args hspecific List.not_mem_nil hbears with hgeneral | ⟨hleads, hgeneral⟩
    · exact Or.inl hgeneral.1
    · exact hgeneral.imp_right fun hfailed => ⟨hfailed, hleads⟩
  · exact h.exact.refuses h.intact hp hargs hone hprompts hadmits

/-- Granite is a rock, and only persons hope. To wait implies to hope, so granite cannot be said to
wait. It is refused, and refused again. -/
theorem called_general_granite :
    let g : Grounding Pcg := ⟨[Declaration.subsort "person" 0, .subsort "rock" 0,
      .entity "granite" 2, .predicate "waits" (.unary 0), .predicate "hopes" (.unary 1),
      .relation .generalization 0 1].foldl (fun kb d => d.perform kb) (ofRoot "entity"),
      Solver.ofConfig {} (Pcg.ofSeed 0)⟩
    let t := stateAfter (call 0 (.one "granite")) g
    Attempts [.one "granite"] t ∧ t.base.OneWay 0 (.one "granite") ∧
      (∃ e u, call 0 (.one "granite") t = .error e u) ∧
      ∀ r ∈ t.base.relations, ∀ args, t.base.Called r.specific args → t.base.Bears r args →
        t.base.Called r.general args ∨
          args ∈ [.one "granite"] ∧ t.base.Leads args r.general r.specific := by
  intro g t
  have hstart : Attempts [] _ := Attempts.start "entity" {} (Pcg.ofSeed 0)
  have hg : Attempts [] g := hstart.declarations (by decide +kernel)
  have hnone : value? (call 0 (.one "granite")) g = none := by decide +kernel
  obtain ⟨e, hcall⟩ := eq_error_of_value? hnone
  have ht : Attempts [.one "granite"] t := hg.refusal (by decide +kernel) hcall
  have hrelations : t.base.relations = [⟨.generalization, 0, 1⟩] := by decide +kernel
  -- the only relation goes one way
  have hone : t.base.OneWay 0 (.one "granite") := by
    rintro q u - ⟨r, hr, rfl, rfl, -⟩ hback
    rw [hrelations, List.mem_singleton] at hr
    subst hr
    have hsame := hback.eq_of_unrelated (by decide +kernel)
    cases hsame
  refine ⟨ht, hone, ht.called_general.2 0 1 (.one "granite") (by decide +kernel) ?_
    (.single ⟨⟨.generalization, 0, 1⟩, by decide +kernel, rfl, rfl, nofun⟩) (by decide +kernel)
    fun _ => hone, ht.called_general.1⟩
  exact List.forall_mem_singleton.2 (by decide +kernel)

/-- Granite is a rock, and only persons hope. To wait implies to hope by way of the third predicate,
and to stand and to wait exclude each other. Granite is refused to stand, and refused to wait. But
then to stand has gone through on the way: it relied on the call that led to it, and stays. -/
theorem half_compiled_granite :
    let g : Grounding Pcg := ⟨[Declaration.subsort "person" 0, .subsort "rock" 0,
      .entity "granite" 2, .predicate "stands" (.unary 0), .predicate "waits" (.unary 0),
      .predicate "expects" (.unary 0), .predicate "hopes" (.unary 1), .exclusion 0 1,
      .relation .negative 1 2, .relation .generalization 2 3].foldl (fun kb d => d.perform kb)
      (ofRoot "entity"), Solver.ofConfig {} (Pcg.ofSeed 0)⟩
    let s := stateAfter (call 0 (.one "granite")) g
    let t := stateAfter (call 1 (.one "granite")) s
    value? (call 0 (.one "granite")) g = none ∧ value? (call 1 (.one "granite")) s = none ∧
      value? (call 0 (.one "granite")) t = some (1 : Nat) ∧
      ¬ ∀ r ∈ t.base.relations, ∀ args, t.base.Called r.specific args → t.base.Bears r args →
        t.base.Called r.general args := by
  intro g s t
  have hruns : value? (call 0 (.one "granite")) g = none ∧
      value? (call 1 (.one "granite")) s = none ∧
      value? (call 0 (.one "granite")) t = some (1 : Nat) := by decide +kernel
  have hstands : t.base.atom? 0 (.one "granite") = some (1 : Nat) := by decide +kernel
  have hwaits : t.base.atom? 1 (.one "granite") = none := by decide +kernel
  -- the exclusion bears on the call that went through, and what it asks for is not there
  have hexcludes : ⟨.negative, 0, 1⟩ ∈ t.base.relations := by decide +kernel
  have hadmits : t.base.admits 1 (.one "granite") = true := by decide +kernel
  refine ⟨hruns.1, hruns.2.1, hruns.2.2, fun hclosed => ?_⟩
  obtain ⟨a, ha⟩ := hclosed _ hexcludes (.one "granite") ⟨_, hstands⟩ fun _ => hadmits
  rw [hwaits] at ha
  cases ha

end Grounding

end Storyworld
