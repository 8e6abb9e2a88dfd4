import Storyworld.Proofs.Knowledge.Compilation
import Storyworld.Proofs.Solver.Completion
import Storyworld.Random.Pcg

namespace Storyworld

/-!
# Calls mean what relations say

A knowledge base and a solver are taken from the start through declarations and calls
(`Grounding.FromCalls`). The atoms of the solver are then top and one atom for each call, so a
truth value for every call is an interpretation (`Realizes`), and that is a model exactly when the
values respect the relations (`FromCalls.isModel_iff_respects`).
-/

/-! ### What relations say -/

namespace KnowledgeBase

variable {kb : KnowledgeBase} {p q : PredicateId} {args : Arguments}

/-- The truth values of calls respect the relations, and the calls that the relations lead to have
been made. A strong generalization holds exactly when one of its specializations does, of those
that have been called on the arguments. -/
structure Respects (kb : KnowledgeBase) (truth : PredicateId → Arguments → Bool) : Prop where
  implied : ∀ p, ∀ q ∈ kb.related .generalization p, ∀ args, kb.Called p args →
    kb.Called q args ∧ (truth p args = true → truth q args = true)
  supported : ∀ q args, (∃ p ∈ kb.strongSpecializations q, kb.Called p args) →
    kb.Called q args ∧ (truth q args = true ↔
      ∃ p ∈ kb.strongSpecializations q, kb.Called p args ∧ truth p args = true)
  exclusive : ∀ p, ∀ q ∈ kb.related .negative p, ∀ args, kb.Called p args →
    kb.admits q args = true →
      kb.Called q args ∧ ¬ (truth p args = true ∧ truth q args = true)

end KnowledgeBase

namespace Grounding

open Action KnowledgeBase

variable {ρ : Type} {g : Grounding ρ} {links : List Link} {i : Interpretation}
  {truth : PredicateId → Arguments → Bool} {pending : Pending}
  {opened : List (PredicateId × SortId)} {e : Nat}

/-- The interpretation gives each call its truth value. -/
structure Realizes (g : Grounding ρ) (truth : PredicateId → Arguments → Bool)
    (i : Interpretation) : Prop where
  top : i Atom.top = true
  calls : ∀ p args a, g.base.atom? p args = some a → i a = truth p args

/-! ### The atoms of calls -/

/-- Different calls have different atoms. -/
theorem Exact.atom_injective (h : Exact pending opened g) {p q : Nat} {args args' : Arguments}
    {a : Nat} (hp : g.base.atom? p args = some a) (hq : g.base.atom? q args' = some a) :
    p = q ∧ args = args' := h.typed.atom_injective hp hq

/-- The atom of a call is not that of an existential. -/
theorem Exact.not_requested (h : Exact pending opened g) {p q : Nat} {args : Arguments} {s a : Nat}
    (ha : g.base.atom? p args = some a) : ¬ g.base.Requested q s a := h.typed.not_requested ha

/-- Top has no name, and what has a name is not top. -/
theorem Exact.ne_top (h : Exact pending opened g) {a : Nat} {P : Proposition}
    (ha : g.solver.atoms.named? P = some a) : a ≠ Atom.top := by
  have hatoms := h.backed.wellFormed.atoms
  rintro rfl
  have hname := hatoms.named _ _ ha
  rw [hatoms.top] at hname
  cases hname

/-! ### Models and links -/

/-- No call is pending and no existential open: what the solver was told are links. -/
structure Finished (g : Grounding ρ) (links : List Link) : Prop where
  exact : Exact [] [] g
  compiled : Compiled [] g links

/-- Every truth value of the calls is that of an interpretation. -/
theorem Finished.exists_realizes (h : Finished g links) (truth : PredicateId → Arguments → Bool) :
    ∃ i, Realizes g truth i := by
  -- an atom is true if it is top or belongs to a call that is
  classical
  refine ⟨fun a => decide (a = Atom.top ∨ ∃ p args, g.base.atom? p args = some a ∧
    truth p args = true), decide_eq_true (Or.inl rfl), fun p args a ha => ?_⟩
  refine Bool.eq_iff_iff.2 (decide_eq_true_iff.trans ⟨?_, fun ht => Or.inr ⟨p, args, ha, ht⟩⟩)
  rintro (htop | ⟨q, args', ha', ht⟩)
  · exact absurd htop (h.exact.ne_top (h.exact.named p args a ha))
  · obtain ⟨rfl, rfl⟩ := h.exact.atom_injective ha' ha
    exact ht

/-- No atom stands for a body: every atom but top has a name. -/
theorem Finished.definedIn (h : Finished g links) (i : Interpretation) :
    g.solver.rules.DefinedIn i := by
  intro d hd
  obtain ⟨atoms, heads, htold, -⟩ := h.compiled.told
  have hs := htold.faithful
  rcases h.compiled.covered d.2 (hs.wellFormed.rules.definitions d hd) with htop | hspeaks
  · exact absurd (Or.inl htop) (hs.owned.apart d hd)
  · obtain ⟨P, hP⟩ := h.exact.exists_named hspeaks
    exact absurd (hs.knows_named hP) (hs.owned.apart d hd)

/-- The models are the interpretations in which every link says something true, and existentials
are true only for a reason. -/
theorem Finished.isModel_iff (h : Finished g links) (htop : i Atom.top = true) :
    i.IsModel g.solver.formula ↔ (∀ l ∈ links, l.SaysIn links i) ∧
      ∀ p s e, g.base.Requested p s e → (i e = true ↔ Link.Reason links i e) := by
  obtain ⟨atoms, heads, htold, hheads⟩ := h.compiled.told
  have hs := htold.faithful
  have hmodel : i.IsModel g.solver.formula ↔ (Link.account atoms heads links).IsMetBy i :=
    hs.isModel_iff.trans ⟨fun hi => hi.2.2, fun hmet => ⟨htop, h.definedIn i, hmet⟩⟩
  rw [hmodel, Link.isMetBy_account]
  refine and_congr_right fun hlinks => ⟨fun hall p s e he => ?_, fun hall b hb => ?_⟩
  · -- an existential was declared to be a head, or is the general atom of a rule
    rcases Link.isHead_account.1 ((hs.meant.heads e).1 (h.exact.heads p s e he)) with
      hhead | ⟨l, hl, hkind, rfl⟩
    · exact hall e hhead
    · exact (Link.saysIn_strong hkind).1 (hlinks l hl)
  · obtain ⟨p, s, he⟩ := hheads b hb
    exact hall p s b he

/-! ### Links and relations -/

variable {p q : Nat} {args : Arguments} {r : Relation} {l : Link}

/-- The specific end of a link has the value of its call. -/
theorem Realizes.specific (hi : Realizes g truth i) (hl : g.base.Relates r args l) :
    i l.specific = truth r.specific args := hi.calls _ _ _ hl.specific

theorem Realizes.general (hi : Realizes g truth i) (hl : g.base.Relates r args l) :
    i l.general = truth r.general args := hi.calls _ _ _ hl.general

/-- When no call is pending every relation that bears on a call has its link. -/
theorem Finished.linked (h : Finished g links) {kind : RelationKind}
    (hr : ⟨kind, p, q⟩ ∈ g.base.relations) (hcalled : g.base.Called p args)
    (hbears : g.base.Bears ⟨kind, p, q⟩ args) : Linked ⟨kind, p, q⟩ args g.base links :=
  h.compiled.complete _ hr args hcalled List.not_mem_nil hbears

/-- The strong links to a call are those of the specializations that have been called. -/
theorem Finished.reason_iff (h : Finished g links) (hi : Realizes g truth i) {b : Nat}
    (hb : g.base.atom? q args = some b) : Link.Reason links i b ↔
      ∃ p ∈ g.base.strongSpecializations q, g.base.Called p args ∧ truth p args = true := by
  constructor
  · rintro ⟨m, hm, hkind, rfl, htrue⟩
    rcases h.compiled.justified m hm with ⟨⟨kind, p, q'⟩, hr, args', hrelates⟩ | ⟨-, p, s, he⟩
    · -- the link comes from a relation, and its general atom tells which call that is
      obtain ⟨rfl, rfl⟩ := h.exact.atom_injective hrelates.general hb
      have hstrong : kind = .strong := hrelates.kind.symm.trans hkind
      refine ⟨p, mem_strongSpecializations.2 (hstrong ▸ hr), ⟨_, hrelates.specific⟩, ?_⟩
      rw [← hi.specific hrelates, htrue]
    · exact absurd he (h.exact.not_requested hb)
  · rintro ⟨p, hp, hcalled, htrue⟩
    obtain ⟨m, hm, hrelates⟩ := h.linked (mem_strongSpecializations.1 hp) hcalled nofun
    refine ⟨m, hm, hrelates.kind, Option.some.inj (hrelates.general.symm.trans hb), ?_⟩
    rw [hi.specific hrelates, htrue]

/-- Where every link says something true the relations are respected. -/
theorem Finished.respects (h : Finished g links) (hi : Realizes g truth i)
    (hlinks : ∀ l ∈ links, l.SaysIn links i) : g.base.Respects truth where
  implied p q hq args hcalled := by
    -- nothing is pending, so each relation has its link, and what the link says is the relation
    obtain ⟨l, hl, hrelates⟩ := h.linked (mem_related.1 hq) hcalled nofun
    have hsays := (Link.saysIn_generalization hrelates.kind).1 (hlinks l hl)
    rw [hi.specific hrelates, hi.general hrelates] at hsays
    exact ⟨⟨_, hrelates.general⟩, hsays⟩
  supported q args hsome := by
    obtain ⟨p, hp, hcalled⟩ := hsome
    obtain ⟨l, hl, hrelates⟩ := h.linked (mem_strongSpecializations.1 hp) hcalled nofun
    have hsays := (Link.saysIn_strong hrelates.kind).1 (hlinks l hl)
    rw [hi.general hrelates, h.reason_iff hi hrelates.general] at hsays
    exact ⟨⟨_, hrelates.general⟩, hsays⟩
  exclusive p q hq args hcalled hadmits := by
    obtain ⟨l, hl, hrelates⟩ := h.linked (mem_related.1 hq) hcalled fun _ => hadmits
    have hsays := (Link.saysIn_negative hrelates.kind).1 (hlinks l hl)
    rw [hi.specific hrelates, hi.general hrelates] at hsays
    exact ⟨⟨_, hrelates.general⟩, hsays⟩

/-- Where the relations are respected every link that comes from one says something true. -/
theorem Finished.saysIn_relation (h : Finished g links) (hi : Realizes g truth i)
    (hrespects : g.base.Respects truth) (hr : r ∈ g.base.relations)
    (hrelates : g.base.Relates r args l) : l.SaysIn links i := by
  obtain ⟨kind, p, q⟩ := r
  have hspecific := hi.specific hrelates
  have hgeneral := hi.general hrelates
  have hcalled : g.base.Called p args := ⟨_, hrelates.specific⟩
  cases kind with
  | generalization =>
    rw [Link.saysIn_generalization hrelates.kind, hspecific, hgeneral]
    exact (hrespects.implied p q (mem_related.2 hr) args hcalled).2
  | strong =>
    rw [Link.saysIn_strong hrelates.kind, h.reason_iff hi hrelates.general, hgeneral]
    exact (hrespects.supported q args ⟨p, mem_strongSpecializations.2 hr, hcalled⟩).2
  | negative =>
    rw [Link.saysIn_negative hrelates.kind, hspecific, hgeneral]
    -- the excluded call was made, so its predicate admits the arguments
    have hadmits := h.exact.admitted q args _ hrelates.general
    exact (hrespects.exclusive p q (mem_related.2 hr) args hcalled hadmits).2

/-! ### Calls alone -/

/-- What the solver was told are links, and no existential was requested. -/
structure Plain (g : Grounding ρ) (links : List Link) : Prop extends Finished g links where
  plain : ∀ p s e, ¬ g.base.Requested p s e

/-- The models are the interpretations in which every link says something true. -/
theorem Plain.isModel_iff (h : Plain g links) (htop : i Atom.top = true) :
    i.IsModel g.solver.formula ↔ ∀ l ∈ links, l.SaysIn links i := by
  rw [h.toFinished.isModel_iff htop]
  exact and_iff_left fun p s e he => absurd he (h.plain p s e)

/-- Where the relations are respected every link says something true: it comes from a relation. -/
theorem Plain.saysIn (h : Plain g links) (hi : Realizes g truth i)
    (hrespects : g.base.Respects truth) (hl : l ∈ links) : l.SaysIn links i := by
  rcases h.compiled.justified l hl with ⟨r, hr, args, hrelates⟩ | ⟨-, p, s, he⟩
  · exact h.saysIn_relation hi hrespects hr hrelates
  · exact absurd he (h.plain p s _)

/-! ### From the start -/

/-- The knowledge base and the solver were new, and nothing was done but to declare and to call.
Every call went through, and named a predicate there was. -/
inductive FromCalls : Grounding ρ → Prop where
  | start (root : String) (config : Config) (source : ρ) :
    FromCalls ⟨ofRoot root, Solver.ofConfig config source⟩
  | declaration {g : Grounding ρ} (hg : FromCalls g) {d : Declaration} (hd : d.Valid g.base) :
    FromCalls { g with base := d.perform g.base }
  | call {g t : Grounding ρ} {p : PredicateId} {args : Arguments} {a : Atom} (hg : FromCalls g)
    (hp : p < g.base.predicates.size) (hok : call p args g = .ok a t) : FromCalls t

/-- Whatever was declared and called, the solver has been told links of relations. -/
theorem FromCalls.compiled (h : FromCalls g) : ∃ links, Plain g links := by
  induction h with
  | start root config source =>
    have huses : ∀ p, (ofRoot root).uses p = ({}, []) := fun _ => rfl
    exact ⟨[], ⟨exact_start (orderly_ofRoot root) huses config source,
      compiled_start huses config source⟩, nofun⟩
  | declaration hg hd ih =>
    obtain ⟨links, hlinks⟩ := ih
    -- a declaration tells the solver nothing
    obtain ⟨hdevelops, horder⟩ := Declaration.develops _ hd hlinks.exact.orderly
    exact ⟨links, ⟨hlinks.exact.develops hdevelops horder,
      hlinks.compiled.develops hlinks.exact hdevelops⟩,
      fun p s e he => hlinks.plain p s e (hdevelops.requested.1 he)⟩
  | @call g t p args a hg hp hok ih =>
    obtain ⟨links, hlinks⟩ := ih
    obtain ⟨links', ⟨hexact, ht⟩, -⟩ := ((compileUpkeep ρ).after_call
      ⟨hlinks.exact, hlinks.compiled⟩ hp trivial).of_ok hok
    -- a call requests no existential, so there is still none
    have hsame := ((hlinks.exact.after_call hp args).of_ok hok).2
    exact ⟨links', ⟨hexact, ht⟩, fun p s e he => hlinks.plain p s e (hsame.requested.1 he)⟩

/-- **Calls mean exactly what the relations say.** Truth values of the calls that have been made are
those of an interpretation, and every such interpretation is a model of the asserted clauses and
the completion clauses exactly when the values respect the relations. -/
theorem FromCalls.isModel_iff_respects (h : FromCalls g)
    (truth : PredicateId → Arguments → Bool) :
    (∃ i, Realizes g truth i) ∧ ∀ i, Realizes g truth i →
      (i.IsModel g.solver.formula ↔ g.base.Respects truth) := by
  obtain ⟨links, hlinks⟩ := h.compiled
  refine ⟨hlinks.exists_realizes truth, fun i hi => ?_⟩
  rw [hlinks.isModel_iff hi.top]
  exact ⟨hlinks.respects hi, fun hrespects _ hl => hlinks.saysIn hi hrespects hl⟩

/-- To be a dog is a way to be an animal and excludes to be a cat. To call that Rex is a dog calls
the other two. -/
theorem isModel_iff_respects_dog :
    let g : Grounding Pcg := ⟨[Declaration.predicate "animal" (.unary 0),
      .predicate "dog" (.unary 0), .predicate "cat" (.unary 0), .relation .strong 1 0,
      .relation .negative 1 2].foldl (fun kb d => d.perform kb) (ofRoot "thing"),
      Solver.ofConfig {} (Pcg.ofSeed 0)⟩
    let t := stateAfter (call 1 (.one "Rex")) g
    let truth : PredicateId → Arguments → Bool := fun p _ => p != 2
    FromCalls t ∧ t.solver.formula = [[Literal.neg 1, Literal.pos 2],
      [Literal.neg 1, Literal.neg 3], [Literal.neg 2, Literal.pos 1]] ∧
      (∃ i, Realizes t truth i) ∧ ∀ i, Realizes t truth i →
        (i.IsModel t.solver.formula ↔ t.base.Respects truth) := by
  intro g t truth
  have hstart : FromCalls _ := FromCalls.start "thing" {} (Pcg.ofSeed 0)
  have hanimal := hstart.declaration (d := .predicate "animal" (.unary 0)) (by decide +kernel)
  have hdog := hanimal.declaration (d := .predicate "dog" (.unary 0)) (by decide +kernel)
  have hcat := hdog.declaration (d := .predicate "cat" (.unary 0)) (by decide +kernel)
  have hstrong := hcat.declaration (d := .relation .strong 1 0) (by decide +kernel)
  have hg : FromCalls g :=
    hstrong.declaration (d := .relation .negative 1 2) (by decide +kernel)
  have hcall : value? (call 1 (.one "Rex")) g = some (1 : Nat) ∧ t.solver.formula =
      [[Literal.neg 1, Literal.pos 2], [Literal.neg 1, Literal.neg 3],
        [Literal.neg 2, Literal.pos 1]] := by decide +kernel
  have ht : FromCalls t := hg.call (by decide +kernel) (eq_ok_of_value? hcall.1)
  exact ⟨ht, hcall.2, ht.isModel_iff_respects truth⟩

end Grounding

end Storyworld
