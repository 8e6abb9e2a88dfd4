import Storyworld.Proofs.Knowledge.Closure
import Storyworld.Proofs.Knowledge.Meaning

namespace Storyworld

/-!
# The order of discovery

What a run of requests leaves in the solver depends on the order: an existential that is there
before a call is given its rule by the call, and one that comes after finds the call. But what it
means does not. A truth assignment to propositions is a model exactly when it respects the relations
between the calls that have been made, and each existential that was requested is true exactly when
the predicate is true of some member of the sort (`Finished.isModel_reading_iff`). Which calls have
been made, and which existentials were requested, is settled by the requests whatever their order
(`Prepared.run_perm`).
-/

/-! ### Truth assignments to propositions -/

/-- The interpretation that gives every atom the truth value of its name. Top has none, and is
true. -/
def Solver.reading {ρ : Type} (s : Solver ρ) (truth : Proposition → Bool) : Interpretation :=
  fun a => match s.atoms.name? a with
    | some P => truth P
    | none => true

/-- Under a reading the atom of a proposition is as true as the proposition. -/
theorem Solver.reading_of_named {ρ : Type} {s : Solver ρ} (hs : s.WellFormed)
    (truth : Proposition → Bool) {P : Proposition} {a : Atom} (ha : s.atoms.named? P = some a) :
    s.reading truth a = truth P := by
  rw [reading, hs.atoms.named P a ha]

namespace KnowledgeBase

variable {kb₀ kb kb' : KnowledgeBase} {truth : Proposition → Bool} {p : Nat} {args : Arguments}

/-- The proposition that says the predicate holds of the arguments. -/
def callOf (kb : KnowledgeBase) (p : PredicateId) (args : Arguments) : Proposition :=
  .call ⟨(kb.predicate p).name, args.terms⟩

/-- The truth values respect the relations between the calls that have been made, and each
existential that was requested is true exactly when the predicate is true of some member that it has
been called on. -/
structure Upholds (kb : KnowledgeBase) (truth : Proposition → Bool) : Prop where
  relations : kb.Respects fun p args => truth (kb.callOf p args)
  existentials : ∀ p s, (∃ e, kb.Requested p s e) → (truth (kb.someMember p s) = true ↔
    ∃ x, kb.Called p (.one x) ∧ kb.belongs x s = true ∧ truth (kb.callOf p (.one x)) = true)

/-- Both have grown from one knowledge base, by the same calls and the same existentials. -/
structure Alike (kb₀ kb kb' : KnowledgeBase) : Prop where
  placed : kb₀.Placed
  left : Grows kb₀ kb
  right : Grows kb₀ kb'
  registered : ∀ p args, kb.Called p args → kb₀.Registered args
  sorts : ∀ p s, (∃ e, kb.Requested p s e) → s < kb₀.taxonomy.size
  called : ∀ p args, kb.Called p args ↔ kb'.Called p args
  requested : ∀ p s, (∃ e, kb.Requested p s e) ↔ ∃ e, kb'.Requested p s e

/-- Which of two is alike the other makes no difference. -/
theorem Alike.symm (h : Alike kb₀ kb kb') : Alike kb₀ kb' kb where
  placed := h.placed
  left := h.right
  right := h.left
  registered p args hp := h.registered p args ((h.called p args).2 hp)
  sorts p s he := h.sorts p s ((h.requested p s).2 he)
  called p args := (h.called p args).symm
  requested p s := (h.requested p s).symm

/-- A call has the same name after others were made. -/
theorem Grows.callOf (h : Grows kb kb') (p : PredicateId) (args : Arguments) :
    kb'.callOf p args = kb.callOf p args := by
  rw [KnowledgeBase.callOf, h.name]
  rfl

/-- An existential has the same name after calls were made. -/
theorem Grows.someMember (h : Grows kb kb') {s : Nat} (hs : s < kb.taxonomy.size)
    (p : PredicateId) : kb'.someMember p s = kb.someMember p s := by
  rw [KnowledgeBase.someMember, h.name, h.stays.taxonomy.name s hs]
  rfl

/-- Calls change nothing of which predicates are related. -/
theorem Grows.mem_related (h : Grows kb kb') {kind : RelationKind} {p q : PredicateId} :
    q ∈ kb'.related kind p ↔ q ∈ kb.related kind p := by
  rw [KnowledgeBase.mem_related, KnowledgeBase.mem_related, h.relations]

/-- Calls change nothing of which predicates are strong specializations. -/
theorem Grows.mem_strongSpecializations (h : Grows kb kb') {p q : PredicateId} :
    q ∈ kb'.strongSpecializations p ↔ q ∈ kb.strongSpecializations p := by
  rw [KnowledgeBase.mem_strongSpecializations, KnowledgeBase.mem_strongSpecializations, h.relations]

/-- Where the same calls were made the same relations are to be respected. -/
theorem Alike.respects (h : Alike kb₀ kb kb')
    (hkb : kb.Respects fun p args => truth (kb.callOf p args)) :
    kb'.Respects fun p args => truth (kb'.callOf p args) := by
  -- a call has the same name in both, so truth assigns it the same
  have hcall : ∀ p args, kb'.callOf p args = kb.callOf p args := fun p args =>
    (h.right.callOf p args).trans (h.left.callOf p args).symm
  simp only [hcall]
  refine ⟨fun p q hq args hp => ?_, fun q args hsome => ?_, fun p q hq args hp hadmits => ?_⟩
  · rw [h.right.mem_related, ← h.left.mem_related] at hq
    have hsays := hkb.implied p q hq args ((h.called p args).2 hp)
    exact ⟨(h.called q args).1 hsays.1, hsays.2⟩
  · -- the ways for a call to come about are the same
    have hways : ∀ p, (p ∈ kb'.strongSpecializations q ∧ kb'.Called p args) ↔
        (p ∈ kb.strongSpecializations q ∧ kb.Called p args) := fun p => by
      rw [h.right.mem_strongSpecializations, ← h.left.mem_strongSpecializations, h.called]
    obtain ⟨hq, hiff⟩ := hkb.supported q args (hsome.imp fun p => (hways p).1)
    refine ⟨(h.called q args).1 hq, hiff.trans (exists_congr fun p => ?_)⟩
    rw [← and_assoc, ← and_assoc, hways]
  · rw [h.right.mem_related, ← h.left.mem_related] at hq
    have hcalled := (h.called p args).2 hp
    have hregistered := h.registered p args hcalled
    rw [h.right.stays.admits h.placed hregistered (h.right.signature q),
      ← h.left.stays.admits h.placed hregistered (h.left.signature q)] at hadmits
    have hsays := hkb.exclusive p q hq args hcalled hadmits
    exact ⟨(h.called q args).1 hsays.1, hsays.2⟩

/-- What is upheld depends on which calls and which existentials there are, and not on how they came
about. -/
theorem Alike.upholds (h : Alike kb₀ kb kb') (hkb : kb.Upholds truth) : kb'.Upholds truth where
  relations := h.respects hkb.relations
  existentials p s he := by
    have he' := (h.requested p s).2 he
    have hs := h.sorts p s he'
    rw [h.right.someMember hs, ← h.left.someMember hs, hkb.existentials p s he']
    refine exists_congr fun x => ?_
    rw [← h.called, h.right.callOf, ← h.left.callOf]
    refine and_congr_right fun hcalled => ?_
    have hx := h.registered p _ hcalled x List.mem_cons_self
    rw [h.right.stays.belongs h.placed hx, ← h.left.stays.belongs h.placed hx]

end KnowledgeBase

namespace Grounding

open Action KnowledgeBase

variable {ρ : Type} {g t t' : Grounding ρ} {links : List Link} {truth : Proposition → Bool}
  {i : Interpretation}

/-- Once all requests have been answered no call is under way. -/
theorem Arrived.finished {kb : KnowledgeBase} {rs : List Request} (h : Arrived kb rs g) :
    ∃ links, Finished g links :=
  h.inquired.compiled.imp fun _ hlinks => ⟨h.exact, hlinks⟩

/-! ### Models by name -/

/-- A support of an atom is true exactly when one of its links gives a reason. -/
theorem Finished.exists_support_iff_reason (h : Finished g links) (i : Interpretation) (b : Atom) :
    (∃ l ∈ g.solver.rules.supportsOf b, i.Satisfies l) ↔ Link.Reason links i b := by
  obtain ⟨atoms, heads, htold, -⟩ := h.compiled.told
  exact (htold.faithful.meant.supports i (h.definedIn i) b).trans Link.exists_rule_account

/-- Calls are read by name. -/
theorem Finished.realizes_reading (h : Finished g links) (truth : Proposition → Bool) :
    Realizes g (fun p args => truth (g.base.callOf p args)) (g.solver.reading truth) := by
  have hwf := h.exact.backed.wellFormed
  refine ⟨?_, fun p args a ha => Solver.reading_of_named hwf truth (h.exact.named p args a ha)⟩
  rw [Solver.reading, hwf.atoms.top]

/-- Under a reading an existential is as true as what it says. -/
theorem Finished.reading_of_requested (h : Finished g links) (truth : Proposition → Bool)
    {p s e : Nat} (he : g.base.Requested p s e) :
    g.solver.reading truth e = truth (g.base.someMember p s) :=
  Solver.reading_of_named h.exact.backed.wellFormed truth (h.exact.called p s e he)

/-- Whether a predicate is true of some member is read by name. -/
theorem Realizes.exists_member_iff {truth : PredicateId → Arguments → Bool} (h : Realizes g truth i)
    (p s : Nat) : (∃ x a, g.base.Member p s x a ∧ i a = true) ↔
      ∃ x, g.base.Called p (.one x) ∧ g.base.belongs x s = true ∧ truth p (.one x) = true := by
  refine exists_congr fun x => ⟨?_, ?_⟩
  · rintro ⟨a, hm, htrue⟩
    exact ⟨⟨a, hm.atom⟩, hm.belongs, (h.calls p _ a hm.atom).symm.trans htrue⟩
  · rintro ⟨⟨a, ha⟩, hx, htrue⟩
    exact ⟨a, ⟨ha, hx⟩, (h.calls p _ a ha).trans htrue⟩

/-- **The models by name are the truth assignments that uphold the relations and the
existentials.** -/
theorem Finished.isModel_reading_iff (h : Finished g links) (truth : Proposition → Bool) :
    (g.solver.reading truth).IsModel g.solver.formula ↔ g.base.Upholds truth := by
  have hrealizes := h.realizes_reading truth
  have hmembers := hrealizes.exists_member_iff
  rw [h.isModel_iff hrealizes.top]
  constructor
  · rintro ⟨hlinks, hreasons⟩
    have hmodel := (h.isModel_iff hrealizes.top).2 ⟨hlinks, hreasons⟩
    refine ⟨h.respects hrealizes hlinks, fun p s ⟨e, he⟩ => ?_⟩
    rw [← h.reading_of_requested truth he, h.exact.isModel_iff hmodel he, hmembers]
  · intro hupholds
    have hexact : ∀ p s e, g.base.Requested p s e → (g.solver.reading truth e = true ↔
        ∃ x a, g.base.Member p s x a ∧ g.solver.reading truth a = true) := by
      intro p s e he
      rw [h.reading_of_requested truth he, hupholds.existentials p s ⟨e, he⟩, hmembers]
    have hreasons : ∀ p s e, g.base.Requested p s e → (g.solver.reading truth e = true ↔
        Link.Reason links (g.solver.reading truth) e) := by
      intro p s e he
      rw [← h.exists_support_iff_reason,
        h.exact.exists_support_iff he fun t f hb => hexact p t f hb.requested, hexact p s e he]
    refine ⟨fun l hl => ?_, hreasons⟩
    -- the link comes from a relation, or is a rule of an existential
    rcases h.compiled.justified l hl with ⟨r, hr, args, hrelates⟩ | ⟨hkind, p, s, he⟩
    · exact h.saysIn_relation hrealizes hupholds.relations hr hrelates
    · exact (Link.saysIn_strong hkind).2 (hreasons p s _ he)

/-- The propositions that have atoms are those of the calls and of the existentials. -/
theorem Finished.exists_named_iff (h : Finished g links) (P : Proposition) :
    (∃ a, g.solver.atoms.named? P = some a) ↔
      (∃ p args, g.base.Called p args ∧ P = g.base.callOf p args) ∨
        ∃ p s, (∃ e, g.base.Requested p s e) ∧ P = g.base.someMember p s := by
  have hatoms := h.exact.backed.wellFormed.atoms
  constructor
  · rintro ⟨a, ha⟩
    -- every atom below the count is covered, and `top` has no name
    rcases h.compiled.covered a (hatoms.lt ha) with htop | ⟨p, args, hatom⟩ | ⟨p, s, he⟩
    · exact absurd htop (h.exact.ne_top ha)
    · -- two names of one atom are the same
      exact Or.inl ⟨p, args, ⟨a, hatom⟩, hatoms.injective ha (h.exact.named p args a hatom)⟩
    · exact Or.inr ⟨p, s, ⟨a, he⟩, hatoms.injective ha (h.exact.called p s a he)⟩
  · rintro (⟨p, args, ⟨a, ha⟩, rfl⟩ | ⟨p, s, ⟨e, he⟩, rfl⟩)
    · exact ⟨a, h.exact.named p args a ha⟩
    · exact ⟨e, h.exact.called p s e he⟩

/-- Alike groundings have atoms for the same propositions. -/
theorem exists_named_of_alike {kb : KnowledgeBase} {links' : List Link} (h : Finished t links)
    (h' : Finished t' links') (halike : Alike kb t.base t'.base) {P : Proposition}
    (hP : ∃ a, t.solver.atoms.named? P = some a) : ∃ a, t'.solver.atoms.named? P = some a := by
  rw [h'.exists_named_iff]
  refine ((h.exists_named_iff P).1 hP).imp ?_ ?_
  · rintro ⟨p, args, hp, rfl⟩
    exact ⟨p, args, (halike.called p args).1 hp,
      (halike.left.callOf p args).trans (halike.right.callOf p args).symm⟩
  · rintro ⟨p, s, he, rfl⟩
    have hs := halike.sorts p s he
    exact ⟨p, s, (halike.requested p s).1 he,
      (halike.left.someMember hs p).trans (halike.right.someMember hs p).symm⟩

end Grounding

/-! ### Runs in any order -/

namespace KnowledgeBase

open Action Grounding

/-- The knowledge base comes from one that has only a root sort, by declarations that name sorts and
predicates there are. -/
inductive Prepared : KnowledgeBase → Prop where
  | start (root : String) : Prepared (ofRoot root)
  | declaration {kb : KnowledgeBase} (hkb : Prepared kb) {d : Declaration} (hd : d.Valid kb) :
    Prepared (d.perform kb)

variable {ρ : Type} {kb : KnowledgeBase} {rs rs' : List Request}

/-- Several valid declarations in a row prepare a knowledge base. -/
theorem Prepared.declarations (h : kb.Prepared) {ds : List Declaration}
    (hds : Declaration.ValidAll ds kb) :
    Prepared (ds.foldl (fun kb d => d.perform kb) kb) := by
  induction ds generalizing kb with
  | nil => exact h
  | cons d ds ih => exact ih (h.declaration hds.1) hds.2

/-- A knowledge base that was prepared is in order. -/
theorem Prepared.orderly (h : kb.Prepared) : kb.Orderly := by
  induction h with
  | start root => exact orderly_ofRoot root
  | declaration _ hd ih => exact (Declaration.develops _ hd ih).2

/-- Before any request nothing has been called or requested. -/
theorem Prepared.uses (h : kb.Prepared) (p : PredicateId) : kb.uses p = ({}, []) := by
  induction h with
  | start root => rfl
  | declaration _ _ ih => rw [Declaration.uses_perform, ih]

/-- The order of requests does not matter to what two runs lead to. -/
theorem alike_of_arrived {t t' : Grounding ρ} (hkb : kb.Placed) (hperm : rs.Perm rs')
    (hvalid : ∀ r ∈ rs, r.Valid kb) (h : Arrived kb rs t) (h' : Arrived kb rs' t')
    (hdone : ∀ r ∈ rs, r.Fulfilled t.base) (hdone' : ∀ r ∈ rs', r.Fulfilled t'.base) :
    Alike kb t.base t'.base where
  placed := hkb
  left := h.inquired.confined.grows
  right := h'.inquired.confined.grows
  registered p args hp :=
    (closed_reached hvalid).registered p args (h.inquired.confined.wanted p args hp)
  sorts p s := fun ⟨e, he⟩ => h.inquired.confined.grows.sorts ▸ h.exact.placed p s e he
  called p args := by
    have hvalid' : ∀ r ∈ rs', r.Valid kb := fun r hr => hvalid r (hperm.mem_iff.2 hr)
    -- each run made the calls that its requests lead to, and the requests are the same
    rw [h.called_iff hkb hvalid hdone, h'.called_iff hkb hvalid' hdone']
    exact ⟨Reached.of_subset hperm.subset, Reached.of_subset hperm.symm.subset⟩
  requested p s := by
    rw [h.requested_iff hkb hdone, h'.requested_iff hkb hdone']
    exact ⟨Asked.of_subset hperm.subset, Asked.of_subset hperm.symm.subset⟩

/-- **The order of requests does not matter.** When everything is declared and registered
beforehand, and the same requests go through in two orders, then the same calls have been made, the
same existentials are remembered, the same propositions have atoms, and the same truth assignments
to propositions are models: the calls are those that the requests lead to, the existentials those
that were asked for and those below, and the models uphold the relations and the existentials. -/
theorem Prepared.run_perm (hkb : kb.Prepared) (hperm : rs.Perm rs')
    (hvalid : ∀ r ∈ rs, r.Valid kb) {config config' : Config} {source source' : ρ}
    {t t' : Grounding ρ} (ht : run rs ⟨kb, Solver.ofConfig config source⟩ = .ok ⟨⟩ t)
    (ht' : run rs' ⟨kb, Solver.ofConfig config' source'⟩ = .ok ⟨⟩ t') :
    (∀ p args, t.base.Called p args ↔ t'.base.Called p args) ∧
      (∀ p s, (∃ e, t.base.Requested p s e) ↔ ∃ e, t'.base.Requested p s e) ∧
      (∀ P, (∃ a, t.solver.atoms.named? P = some a) ↔ ∃ a, t'.solver.atoms.named? P = some a) ∧
      (∀ truth : Proposition → Bool, (t.solver.reading truth).IsModel t.solver.formula ↔
        (t'.solver.reading truth).IsModel t'.solver.formula) ∧
      (∀ p args, t.base.Called p args ↔ kb.Reached rs p args) ∧
      (∀ p s, (∃ e, t.base.Requested p s e) ↔ kb.Asked rs p s) ∧
      ∀ truth : Proposition → Bool,
        (t.solver.reading truth).IsModel t.solver.formula ↔ t.base.Upholds truth := by
  have hplaced := hkb.orderly.toPlaced
  have hvalid' : ∀ r ∈ rs', r.Valid kb := fun r hr => hvalid r (hperm.mem_iff.2 hr)
  -- each run arrives at what its own requests lead to
  obtain ⟨h, hdone⟩ := (after_run hkb.orderly hkb.uses hvalid config source).of_ok ht
  obtain ⟨h', hdone'⟩ := (after_run hkb.orderly hkb.uses hvalid' config' source').of_ok ht'
  have halike := alike_of_arrived hplaced hperm hvalid h h' hdone hdone'
  obtain ⟨links, hfinished⟩ := h.finished
  obtain ⟨links', hfinished'⟩ := h'.finished
  have hmodels := hfinished.isModel_reading_iff
  refine ⟨halike.called, halike.requested, fun P => ?_, fun truth => ?_, ?_, ?_, hmodels⟩
  · exact ⟨exists_named_of_alike hfinished hfinished' halike,
      exists_named_of_alike hfinished' hfinished halike.symm⟩
  · -- being a model comes down to what the knowledge base upholds, where the order is forgotten
    rw [hmodels, hfinished'.isModel_reading_iff]
    exact ⟨halike.upholds, halike.symm.upholds⟩
  · exact fun p args => h.called_iff hplaced hvalid hdone
  · exact fun p s => h.requested_iff hplaced hdone

/-- Dogs are alive, and it is asked whether something is and whether Rex is a dog. In the one order
the existential over animals is there when Rex turns out to be alive, in the other it comes after.
The formulas differ: so do the atoms. -/
theorem run_perm_rex :
    let kb := [Declaration.subsort "animal" 0, .entity "Rex" 1, .predicate "alive" (.unary 0),
      .predicate "dog" (.unary 1), .relation .strong 1 0].foldl (fun kb d => d.perform kb)
        (ofRoot "thing")
    let rs := [Request.existential 0 0, .call 1 (.one "Rex")]
    let g : Grounding Pcg := ⟨kb, Solver.ofConfig {} (Pcg.ofSeed 0)⟩
    let t := stateAfter (run rs) g
    let t' := stateAfter (run rs.reverse) g
    Prepared kb ∧ rs.Perm rs.reverse ∧ (∀ r ∈ rs, r.Valid kb) ∧
      run rs g = .ok ⟨⟩ t ∧ run rs.reverse g = .ok ⟨⟩ t' ∧
      t.solver.formula ≠ t'.solver.formula ∧
      (∀ p args, t.base.Called p args ↔ t'.base.Called p args) ∧
      (∀ p s, (∃ e, t.base.Requested p s e) ↔ ∃ e, t'.base.Requested p s e) ∧
      (∀ P, (∃ a, t.solver.atoms.named? P = some a) ↔ ∃ a, t'.solver.atoms.named? P = some a) ∧
      (∀ truth : Proposition → Bool, (t.solver.reading truth).IsModel t.solver.formula ↔
        (t'.solver.reading truth).IsModel t'.solver.formula) ∧
      (∀ p args, t.base.Called p args ↔ kb.Reached rs p args) ∧
      (∀ p s, (∃ e, t.base.Requested p s e) ↔ kb.Asked rs p s) ∧
      ∀ truth : Proposition → Bool,
        (t.solver.reading truth).IsModel t.solver.formula ↔ t.base.Upholds truth := by
  intro kb rs g t t'
  have hkb : Prepared kb := (Prepared.start "thing").declarations (by decide +kernel)
  have hperm : rs.Perm rs.reverse := rs.reverse_perm.symm
  have hvalid : ∀ r ∈ rs, r.Valid kb := by decide +kernel
  have ht : run rs g = .ok ⟨⟩ t := eq_ok_of_value? (by decide +kernel)
  have ht' : run rs.reverse g = .ok ⟨⟩ t' := eq_ok_of_value? (by decide +kernel)
  exact ⟨hkb, hperm, hvalid, ht, ht', by decide +kernel, hkb.run_perm hperm hvalid ht ht'⟩

end KnowledgeBase

end Storyworld
