import Storyworld.Proofs.Knowledge.Phrases
import Storyworld.Proofs.Solver.Naming

namespace Storyworld

/-!
# What is called later has later atoms

While calls, requests and declarations are made and none of the calls is refused, domains only get
longer, and what is new in them stands behind what was there (`Later`). It has new atoms as well,
and so a model that was found before makes of every predicate what it made then
(`Later.extension`).

That the atoms are new is a matter of names. A call that is not in the domain of its predicate is
given the atom of its name, and there is none yet, as long as every call whose name has an atom was
made (`Beyond.accounted`). A call that is refused would leave its name behind.
-/

/-- The proposition says that a predicate holds of certain entities. -/
def Proposition.IsCall (P : Proposition) : Prop :=
  ∃ (name : String) (args : Arguments), P = .call ⟨name, args.terms⟩

/-- A word by itself is no call. -/
theorem Proposition.not_isCall_word (w : String) : ¬ IsCall (.word w) := nofun

/-- An existential is no call. -/
theorem Proposition.not_isCall_ofSort (name sort : String) : ¬ IsCall (.ofSort name sort) := by
  rintro ⟨predicate, args, h⟩
  have hterms : [Term.sort sort] = args.terms := (Call.mk.inj (Proposition.call.inj h)).2
  cases args <;> cases hterms

/-- A model knows nothing of later atoms. -/
theorem Model.holds_pos_of_ge {m : Model} {a : Atom} (h : m.atomCount ≤ a) :
    m.holds (Literal.pos a) = false := by
  have hnone : m.value? a = none := Array.getElem?_eq_none h
  unfold Model.holds
  rw [show (Literal.pos a).atom = a from rfl, hnone]
  rfl

namespace KnowledgeBase

variable {kb kb' kb'' : KnowledgeBase} {n p q s a e : Nat} {args : Arguments} {m : Model}

/-- A predicate is found by its name, which no other has. -/
theorem Orderly.predicateNamed?_eq_some_iff (hkb : kb.Orderly) {name : String} :
    kb.predicateNamed? name = some p ↔ p < kb.predicates.size ∧ (kb.predicate p).name = name := by
  unfold predicateNamed?
  rw [Array.findIdx?_eq_some_iff_getElem]
  constructor
  · rintro ⟨hp, hname, -⟩
    rw [predicate_of_lt hp]
    exact ⟨hp, eq_of_beq hname⟩
  · rintro ⟨hp, hname⟩
    refine ⟨hp, ?_, fun j hj hsame => ?_⟩
    · rw [← predicate_of_lt hp, hname, beq_self_eq_true]
    · -- the first of the name is the only one, since names are distinct
      have hlt : j < kb.predicates.size := Nat.lt_trans hj hp
      rw [← predicate_of_lt hlt] at hsame
      have heq : j = p := hkb.names j p hlt hp ((eq_of_beq hsame).trans hname.symm)
      omega

/-! ### Additions that come later -/

/-- The second knowledge base comes from the first by additions, and what was put into a domain
stands behind what was there and has an atom from `n` on. -/
structure Later (n : Nat) (kb kb' : KnowledgeBase) : Prop where
  stays : Extends kb kb'
  size : kb.predicates.size ≤ kb'.predicates.size
  name : ∀ p : Nat, p < kb.predicates.size → (kb'.predicate p).name = (kb.predicate p).name
  domain : ∀ p, ∃ more,
    (kb'.predicate p).domain.toList = (kb.predicate p).domain.toList ++ more ∧ ∀ e ∈ more, n ≤ e.2

/-- Nothing was called later than what there is. -/
theorem Later.refl (n : Nat) (kb : KnowledgeBase) : Later n kb kb where
  stays := Extends.refl kb
  size := Nat.le_refl _
  name _ _ := rfl
  domain _ := ⟨[], (List.append_nil _).symm, nofun⟩

/-- What is added later in two steps is added later in one, and stands behind. -/
theorem Later.trans (h : Later n kb kb') (h' : Later n kb' kb'') : Later n kb kb'' where
  stays := h.stays.trans h'.stays
  size := Nat.le_trans h.size h'.size
  name p hp := (h'.name p (Nat.lt_of_lt_of_le hp h.size)).trans (h.name p hp)
  domain p := by
    obtain ⟨more, hmore, hlater⟩ := h.domain p
    obtain ⟨more', hmore', hlater'⟩ := h'.domain p
    refine ⟨more ++ more', ?_, ?_⟩
    · rw [hmore', hmore, List.append_assoc]
    · exact List.forall_mem_append.2 ⟨hlater, hlater'⟩

/-- Declarations call nothing. -/
theorem Develops.later (h : Develops kb kb') : Later n kb kb' where
  stays := h.stays
  size := h.size
  name := h.name
  domain p := by
    have hsame : (kb'.predicate p).domain = (kb.predicate p).domain := congrArg Prod.fst (h.uses p)
    exact ⟨[], by rw [hsame, List.append_nil], nofun⟩

/-- A call with a new atom is put behind those that were made. -/
theorem later_enter (hnone : kb.atom? p args = none) (ha : n ≤ a) :
    Later n kb (kb.enter p args a) where
  stays := (grows_enter hnone a).stays
  size := Nat.le_of_eq size_enter.symm
  name q _ := (grows_enter hnone a).name q
  domain q := by
    rcases predicate_modifyPredicate kb (fun r => { r with domain := (r.domain.insert args a).2 })
      q p with h | h
    · exact ⟨[], by rw [enter, h, List.append_nil], nofun⟩
    · rw [enter, h]
      -- one domain gains one entry at its end, the others gain none
      by_cases hpq : p = q
      · subst hpq
        refine ⟨[(args, a)], Domain.toList_insert hnone a, ?_⟩
        exact List.forall_mem_singleton.2 ha
      · rw [← h, predicate_modify_of_ne _ hpq]
        exact ⟨[], (List.append_nil _).symm, nofun⟩

/-- A request for an existential calls nothing. -/
theorem later_request (kb : KnowledgeBase) (p s e : Nat) : Later n kb (kb.request p s e) where
  stays := ⟨Taxonomy.Extends.refl _, fun _ _ h => h⟩
  size := Nat.le_of_eq Array.size_modify.symm
  name q _ := name_request kb p s e q
  domain q := by
    obtain ⟨es, hq⟩ := predicate_request kb p q s e
    exact ⟨[], by rw [hq, List.append_nil], nofun⟩

/-! ### What an earlier model makes of predicates -/

/-- A model that was found before is false of all that was called later. -/
theorem Later.trueArguments (h : Later n kb kb') (hm : m.atomCount ≤ n) (p : PredicateId) :
    kb'.trueArguments p m = kb.trueArguments p m := by
  obtain ⟨more, hmore, hlater⟩ := h.domain p
  have hfalse : more.filter (fun e => m.holds (Literal.pos e.2)) = [] := by
    apply List.filter_eq_nil_iff.2
    intro e he
    rw [Model.holds_pos_of_ge (Nat.le_trans hm (hlater e he))]
    exact Bool.false_ne_true
  unfold KnowledgeBase.trueArguments
  rw [hmore, List.filter_append, hfalse, List.append_nil]

/-- Which arguments are of the sorts of a signature was settled when they were called. -/
theorem Later.extension (h : Later n kb kb') (hm : m.atomCount ≤ n) (hkb : kb.Placed)
    (hcalled : ∀ args a, kb.atom? p args = some a → kb.Registered args) (signature : Signature) :
    kb'.extension p signature m = kb.extension p signature m := by
  unfold KnowledgeBase.extension
  rw [h.trueArguments hm]
  apply List.filter_congr
  intro args hargs
  obtain ⟨⟨_, a⟩, he, rfl⟩ := List.mem_map.1 hargs
  have hatom : kb.atom? p _ = some a := Domain.get?_eq_some_iff.2 (List.mem_filter.1 he).1
  exact h.stays.fits hkb (hcalled _ a hatom) signature

/-- A model that was found before relates an entity to the same ones on its right. -/
theorem Later.rightRelata (h : Later n kb kb') (hm : m.atomCount ≤ n) (p : PredicateId)
    (left : String) : kb'.rightRelata p left m = kb.rightRelata p left m := by
  unfold KnowledgeBase.rightRelata
  rw [h.trueArguments hm]

/-- A model that was found before relates an entity to the same ones on its left. -/
theorem Later.leftRelata (h : Later n kb kb') (hm : m.atomCount ≤ n) (p : PredicateId)
    (right : String) : kb'.leftRelata p right m = kb.leftRelata p right m := by
  unfold KnowledgeBase.leftRelata
  rw [h.trueArguments hm]

/-- A predicate that is not there has not been called. -/
theorem trueArguments_of_ge (hp : kb.predicates.size ≤ p) : kb.trueArguments p m = [] := by
  unfold trueArguments
  rw [predicate_of_ge hp]
  rfl

/-- A predicate that was there is found by the same name. -/
theorem Later.predicateNamed?_eq_some_iff (h : Later n kb kb') (hkb : kb.Orderly)
    (hkb' : kb'.Orderly) (hp : p < kb.predicates.size) {name : String} :
    kb'.predicateNamed? name = some p ↔ kb.predicateNamed? name = some p := by
  have hp' : p < kb'.predicates.size := Nat.lt_of_lt_of_le hp h.size
  rw [hkb.predicateNamed?_eq_some_iff, hkb'.predicateNamed?_eq_some_iff, h.name p hp,
    and_iff_right hp, and_iff_right hp']

end KnowledgeBase

namespace Grounding

open Action KnowledgeBase

variable {ρ : Type} {n p s e : Nat} {kb base : KnowledgeBase} {g : Grounding ρ} {args : Arguments}

/-! ### The invariant -/

/-- What was called since `kb` has atoms from `n` on, and every call whose name has an atom was made
and has that atom. -/
structure Beyond (n : Nat) (kb : KnowledgeBase) (g : Grounding ρ) : Prop where
  typed : Typed g
  count : n ≤ g.solver.atoms.count
  later : Later n kb g.base
  accounted : ∀ (name : String) (args : Arguments) (a : Atom),
    g.solver.atoms.named? (.call ⟨name, args.terms⟩) = some a →
      ∃ p, (g.base.predicate p).name = name ∧ g.base.atom? p args = some a

/-- What comes later may be told from any moment on. -/
theorem Beyond.now (h : Beyond n kb g) : Beyond g.solver.atoms.count g.base g where
  typed := h.typed
  count := Nat.le_refl _
  later := Later.refl _ _
  accounted := h.accounted

/-- Declarations add no call that would have to be accounted for. -/
theorem Beyond.develops (h : Beyond n kb g) {kb' : KnowledgeBase} (hkb : Develops g.base kb')
    (horder : kb'.Orderly) : Beyond n kb { g with base := kb' } where
  typed := h.typed.develops hkb horder
  count := h.count
  later := h.later.trans hkb.later
  accounted name args a ha := by
    obtain ⟨p, hname, hp⟩ := h.accounted name args a ha
    exact ⟨p, (hkb.name p (lt_of_atom? hp)).trans hname, (hkb.atom? p args).trans hp⟩

/-- The solver may go on by itself, as long as it names no calls. -/
theorem Beyond.withSolver (h : Beyond n kb g) {u : Solver ρ}
    (hspares : Solver.Spares (fun _ => False) g.solver u)
    (hnames : Solver.SameNames Proposition.IsCall g.solver u) :
    Beyond n kb { g with solver := u } where
  typed := h.typed.spares hspares
  count := Nat.le_trans h.count hspares.count
  later := h.later
  accounted name args a ha := h.accounted name args a ((hnames _ ⟨name, args, rfl⟩).symm.trans ha)

/-- The name of a call that was not made has no atom. -/
theorem Beyond.named?_eq_none (h : Beyond n kb g) (hp : p < g.base.predicates.size)
    (hnone : g.base.atom? p args = none) :
    g.solver.atoms.named? (.call ⟨(g.base.predicate p).name, args.terms⟩) = none := by
  apply Option.eq_none_iff_forall_ne_some.2
  intro a ha
  obtain ⟨q, hname, hq⟩ := h.accounted _ args a ha
  obtain rfl : q = p := h.typed.orderly.names q p (lt_of_atom? hq) hp hname
  rw [hnone] at hq
  cases hq

/-- A call that is entered has a new atom, as its name had none: every call whose name has one was
made. -/
theorem Beyond.enter (h : Beyond n kb g) (hp : p < g.base.predicates.size)
    (hnone : g.base.atom? p args = none) (hadmits : g.base.admits p args = true) :
    let u := g.solver.proposition (.call ⟨(g.base.predicate p).name, args.terms⟩)
    Beyond n kb ⟨g.base.enter p args u.1, u.2⟩ := by
  intro u
  have hnew : u.1 = g.solver.atoms.count :=
    Solver.proposition_fst_of_none (h.named?_eq_none hp hnone)
  have hspares : Solver.Spares (fun _ => False) g.solver u.2 :=
    Solver.spares_freshAtom h.typed.backed (some _)
  have hgrows : Grows g.base (g.base.enter p args u.1) := grows_enter hnone u.1
  refine ⟨h.typed.enter hp hnone hadmits, Nat.le_trans h.count hspares.count,
    h.later.trans (later_enter hnone (hnew ▸ h.count)), fun name args' a ha => ?_⟩
  by_cases hcall : Proposition.call ⟨(g.base.predicate p).name, args.terms⟩ =
      .call ⟨name, args'.terms⟩
  · -- the call that is made now
    rw [← hcall] at ha
    obtain ⟨hname, hterms⟩ := Call.mk.inj (Proposition.call.inj hcall)
    obtain rfl : args = args' := Arguments.entities_injective
      (List.map_inj_right (fun _ _ => Term.entity.inj) |>.1 hterms)
    rw [show u.2.atoms.named? _ = some u.1 from Solver.named?_proposition g.solver _] at ha
    refine ⟨p, (hgrows.name p).trans hname, ?_⟩
    rw [← Option.some.inj ha]
    exact atom?_enter_self hp hnone
  · rw [show u.2.atoms.named? _ = _ from Solver.named?_proposition_of_ne g.solver hcall] at ha
    obtain ⟨q, hname, hq⟩ := h.accounted name args' a ha
    exact ⟨q, (hgrows.name q).trans hname, hgrows.atoms q args' a hq⟩

/-- A request for an existential concerns no call. -/
theorem Beyond.request (h : Beyond n kb g) (hp : p < g.base.predicates.size)
    (hs : s < g.base.taxonomy.size)
    (hnamed : g.solver.atoms.named? (g.base.someMember p s) = some e) :
    Beyond n kb { g with base := g.base.request p s e } where
  typed := h.typed.request hp hs hnamed
  count := h.count
  later := h.later.trans (later_request g.base p s e)
  accounted name args a ha := by
    obtain ⟨q, hname, hq⟩ := h.accounted name args a ha
    exact ⟨q, (name_request g.base p s e q).trans hname,
      (atom?_request g.base p s e q args).trans hq⟩

/-! ### Calls and phrases -/

/-- The invariant, while sorts and predicates have the numbers they have in `base`. -/
def Ahead (n : Nat) (kb base : KnowledgeBase) (g : Grounding ρ) : Prop :=
  Beyond n kb g ∧ SameNumbers base g.base

/-- What names no call and adds to the rules at most leaves the calls accounted for. -/
theorem preserves_beyond_onSolver {α : Type} {act : EStateM Error (Solver ρ) α}
    (hspares : ∀ u : Solver ρ, u.Backed → Preserves (Solver.Spares (fun _ => False) u) act)
    (hnames : ∀ u : Solver ρ, Preserves (Solver.SameNames Proposition.IsCall u) act) :
    Preserves (fun g => Beyond n kb g ∧ g.base = base) (onSolver act) := by
  rintro g ⟨h, hbase⟩
  have hact := (hspares g.solver h.typed.backed g.solver (Solver.Spares.refl h.typed.backed)).and
    (hnames g.solver g.solver (Solver.SameNames.refl _))
  exact after_onSolver.2 (hact.mono (fun _ u hu => ⟨h.withSolver hu.1 hu.2, hbase⟩)
    fun _ u hu => ⟨h.withSolver hu.1 hu.2, hbase⟩)

/-- A constraint concerns no call. -/
theorem preserves_beyond_assert (c : Constraint) :
    Preserves (fun g => Beyond n kb g ∧ g.base = base) (assert (ρ := ρ) c) :=
  preserves_beyond_onSolver (fun _ hu => Solver.preserves_spares_assert hu (fun _ => not_false) c)
    fun _ => Solver.preserves_sameNames_assert c

/-- As long as no call is refused, calls are made with new atoms. -/
def beyondUpkeep (ρ : Type) (n : Nat) (kb base : KnowledgeBase) : Upkeep ρ Unit where
  Holds _ g _ := Ahead n kb base g
  Refused _ _ := True
  More _ _ := True
  Done _ _ _ _ := True
  Wanted _ _ _ _ := True
  more_refl _ := trivial
  more_trans _ _ := trivial
  done_lasts _ _ _ := trivial
  refused _ := trivial
  orderly h := h.1.typed.orderly
  admitted h ha := h.1.typed.admitted _ _ _ ha
  enrolls h hkb :=
    ⟨h.1.develops hkb.develops (h.1.typed.orderly.registers hkb.toRegisters),
      h.2.trans hkb.sameNumbers⟩
  enters h hp hnone hadmits _ := ⟨h.1.enter hp hnone hadmits, h.2.trans ⟨size_enter, rfl, rfl⟩⟩
  tells h _ _ := (preserves_beyond_assert _ _ ⟨h.1, rfl⟩).mono
    (fun _ _ ht => ⟨(), ⟨ht.1, ht.2 ▸ h.2⟩, ht.2, trivial, trivial⟩) fun _ _ _ => trivial
  settles h _ _ _ := (preserves_supportExistentials preserves_beyond_assert _ _ _ _ ⟨h.1, rfl⟩).mono
    (fun _ _ ht => ⟨(), ⟨ht.1, ht.2 ▸ h.2⟩, ht.2, trivial⟩) fun _ _ _ => trivial
  withdraws _ := trivial
  wanted_lasts _ _ _ := trivial
  wanted_enter _ := trivial
  wanted_general _ _ _ _ := trivial
  wanted_sibling _ _ _ _ _ := trivial

/-- The same while sorts and predicates have their numbers. -/
theorem preserves_ahead_onSolver {α : Type} {act : EStateM Error (Solver ρ) α}
    (hspares : ∀ u : Solver ρ, u.Backed → Preserves (Solver.Spares (fun _ => False) u) act)
    (hnames : ∀ u : Solver ρ, Preserves (Solver.SameNames Proposition.IsCall u) act) :
    Preserves (Ahead n kb base) (onSolver act) := by
  rintro g ⟨h, hnumbers⟩
  exact (preserves_beyond_onSolver hspares hnames g ⟨h, rfl⟩).mono
    (fun _ t ht => ⟨ht.1, ht.2 ▸ hnumbers⟩) fun _ t ht => ⟨ht.1, ht.2 ▸ hnumbers⟩

/-- The name of an existential is not that of a call. -/
theorem preserves_ahead_openExistential (hp : p < base.predicates.size)
    (hs : s < base.taxonomy.size) :
    Preserves (Ahead n kb base) (openExistential (ρ := ρ) p s) := by
  rintro g ⟨h, hnumbers⟩
  have hopened := (after_openExistential_named h.typed.backed p s fun _ => False).and
    (after_openExistential h.typed.backed.wellFormed p s)
  refine hopened.mono (fun e t ⟨⟨hbase, hspares, hnamed, _⟩, _, _, hadd⟩ => ?_)
    fun _ _ he => he.1.elim
  -- an existential is not a call, so no call gets a name here
  have hmade : Solver.SameNames Proposition.IsCall g.solver
      (g.solver.proposition (g.base.someMember p s)).2 :=
    Solver.sameNames_proposition (Proposition.not_isCall_ofSort _ _) g.solver
  have hnames : Solver.SameNames Proposition.IsCall g.solver t.solver :=
    (Solver.preserves_sameNames_addHead e _ hmade).of_ok hadd
  obtain ⟨base', solver⟩ := t
  obtain rfl : base' = g.base.request p s e := hbase
  have h' : Beyond n kb { g with solver } := h.withSolver hspares hnames
  exact ⟨h'.request (hnumbers.size ▸ hp) (hnumbers.sorts ▸ hs) hnamed,
    hnumbers.trans ⟨Array.size_modify, rfl, rfl⟩⟩

/-- Requests for existentials make no calls. -/
theorem requests_ahead (n : Nat) (kb base : KnowledgeBase) :
    Requests base (Ahead (ρ := ρ) n kb base) (Ahead n kb base) where
  refused _ h := h
  orderly _ h := h.1.typed.orderly
  numbers _ h := h.2
  opens _ _ hp hs g hg _ := preserves_ahead_openExistential hp hs g hg
  asserts c := preserves_ahead_onSolver
    (fun _ hu => Solver.preserves_spares_assert hu (fun _ => not_false) c)
    fun _ => Solver.preserves_sameNames_assert c

/-- **Whatever phrases lead to, what is called later has later atoms**, as long as nothing is
refused. -/
theorem carried_ahead (n : Nat) (kb : KnowledgeBase)
    (hexistence : ∀ p, base.existence = some p → p < base.predicates.size) :
    Carried base (Ahead (ρ := ρ) n kb base) (fun _ => True) where
  existence := hexistence
  refused _ _ := trivial
  orderly := (requests_ahead n kb base).orderly
  numbers := (requests_ahead n kb base).numbers
  opens p s hp hs g hg _ :=
    (preserves_ahead_openExistential hp hs).maintains (fun _ _ => trivial) g hg
  asserts c := Preserves.maintains ((requests_ahead n kb base).asserts c) fun _ _ => trivial
  -- the atom of a word has the name of a word, which is no call
  words w := by
    refine (preserves_ahead_onSolver (fun u hu => ?_) fun u t ht => ?_).maintains
      fun _ _ => trivial
    · exact Solver.preserves_spares hu fun _ ht =>
        after_modifyGet.2 (Solver.spares_freshAtom ht (some _))
    · have hnames := Solver.sameNames_proposition (Proposition.not_isCall_word w) t
      exact after_modifyGet.2 (ht.trans hnames)
  calls p args hp g h := by
    have hcall : (beyondUpkeep ρ n kb base).Advances [] g () (call p args) _ :=
      (beyondUpkeep ρ n kb base).after_call h (h.2.size ▸ hp) trivial
    exact After.imp_done hcall fun _ _ ⟨_, ht, _⟩ => ht
  bounds bound ls := (preserves_ahead_onSolver
    (fun _ hu => Solver.preserves_spares_addAtMost hu bound ls)
    fun _ => Solver.preserves_sameNames_addAtMost bound ls).maintains fun _ _ => trivial

end Grounding

end Storyworld
