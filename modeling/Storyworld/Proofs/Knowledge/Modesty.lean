import Storyworld.Proofs.Knowledge.Grounding
import Storyworld.Proofs.Solver.Supports

namespace Storyworld

/-!
# Compiling alone claims nothing

What calls and existentials assert is modest: every clause denies an atom other than top, and the
body of every rule is such an atom. The crux is that this is kept step by step, so it does not
matter what a call that is refused on the way leaves behind. Every atom but top has a name, so
where nothing else is asserted each clause denies a named proposition, and the interpretations in
which no proposition holds are models (`Solver.Modest.isModel`).
-/

namespace Constraint

/-- The constraint denies an atom, or claims its head for the sake of one only. -/
def Modest : Constraint → Prop
  | .clause c => ∃ a, a ≠ Atom.top ∧ Literal.neg a ∈ c
  | .implication body _ => body.atom ≠ Atom.top ∧ body.positive = true
  | .rule head body => head ≠ Atom.top ∧ ∃ a, a ≠ Atom.top ∧ body = [Literal.pos a]

end Constraint

/-- Nothing is true but top. -/
def Interpretation.nothing : Interpretation := fun a => a == Atom.top

namespace Solver

open Action

variable {ρ : Type} {s t : Solver ρ}

/-! ### Modest solvers -/

/-- Every atom but top has a name, every asserted clause denies an atom other than top, and top is
not declared to be a head. -/
structure Modest (s : Solver ρ) : Prop where
  wellFormed : s.WellFormed
  named : ∀ a, a < s.atoms.count → a ≠ Atom.top → ∃ p, s.atoms.name? a = some p
  denies : ∀ c ∈ s.clauses.asserted, ∃ a, a ≠ Atom.top ∧ Literal.neg a ∈ c
  heads : ∀ h ∈ s.rules.supports, h ≠ Atom.top

/-- A new solver is modest, as its only atom is top. -/
theorem modest_ofConfig (config : Config) (source : ρ) : (ofConfig config source).Modest where
  wellFormed := wellFormed_ofConfig config source
  named _ ha htop := absurd (Nat.lt_one_iff.1 ha) htop
  denies c hc := absurd hc (Array.not_mem_empty c)
  heads _ hh := absurd hh Std.TreeMap.not_mem_emptyc

/-- Whoever leaves the constraints as they are leaves a modest solver modest. -/
theorem Modest.of_same (hs : s.Modest) (hsame : SameConstraints s t) (ht : t.WellFormed) :
    t.Modest where
  wellFormed := ht
  named := by
    rw [hsame.atoms]
    exact hs.named
  denies := by
    rw [hsame.asserted]
    exact hs.denies
  heads := by
    rw [hsame.rules]
    exact hs.heads

/-- A new atom has the name that it is made for. -/
theorem Modest.proposition (hs : s.Modest) (p : Proposition) : (s.proposition p).2.Modest := by
  have hwf := (hs.wellFormed.grown.proposition p).1
  unfold Solver.proposition at hwf ⊢
  split at hwf
  · exact hs
  · refine ⟨hwf, fun a ha hne => ?_, hs.denies, hs.heads⟩
    show ∃ q, (s.atoms.fresh (some p)).2.name? a = some q
    -- the new atom is the one whose name was asked for, the others had names before
    rw [Atoms.name?_fresh]
    split
    · exact ⟨p, rfl⟩
    · rename_i hold
      have hcount : a < (s.atoms.fresh (some p)).2.count := ha
      rw [Atoms.count_fresh] at hcount
      exact hs.named a (Nat.lt_of_le_of_ne (Nat.le_of_lt_succ hcount) hold) hne

/-- The atom of a proposition is not top, which has no name. -/
theorem Modest.proposition_ne_top (hs : s.Modest) (p : Proposition) :
    (s.proposition p).1 ≠ Atom.top := by
  have hatoms := (hs.proposition p).wellFormed.atoms
  have hname := hatoms.named p _ (named?_proposition s p)
  intro htop
  rw [htop, hatoms.top] at hname
  cases hname

/-- A clause that denies an atom other than top may be stored. -/
theorem Modest.store (hs : s.Modest) {c : Clause} (hc : ∀ l ∈ c, l.atom < s.atoms.count)
    (hdenies : ∃ a, a ≠ Atom.top ∧ Literal.neg a ∈ c) : (s.store c).2.Modest := by
  have hwf := hs.wellFormed.store hc
  rcases store_cases c s with ⟨-, h⟩ | ⟨-, h⟩ | ⟨key, clauses, -, hpush, h⟩
  · rwa [h]
  · rwa [h]
  · rw [h] at hwf ⊢
    refine ⟨hwf, hs.named, fun d hd => ?_, hs.heads⟩
    have hd : d ∈ s.clauses.asserted.push c.canonical := hpush ▸ hd
    rcases Array.mem_push.1 hd with hd | rfl
    · exact hs.denies d hd
    · -- the canonical form has the literals of the clause
      exact hdenies.imp fun a ha => ⟨ha.1, Clause.mem_canonical.2 ha.2⟩

/-- A clause that denies an atom other than top may be asserted, also where it is refused or a
tautology. -/
theorem preserves_modest_addClause {c : Clause} (hc : ∃ a, a ≠ Atom.top ∧ Literal.neg a ∈ c) :
    Preserves Modest (addClause (ρ := ρ) c) := by
  intro s hs
  refine (after_addClause c s).mono (fun stored t h => ?_) fun _ _ h => h.1 ▸ hs
  obtain rfl : t = (s.store c).2 := congrArg Prod.snd h.2
  exact hs.store h.1 hc

/-- An atom other than top may be declared to be a head. -/
theorem preserves_modest_addHead {head : Atom} (hhead : head ≠ Atom.top) :
    Preserves Modest (addHead (ρ := ρ) head) := by
  intro s hs
  have hwf := preserves_addHead head s hs.wellFormed.grown
  refine ((after_addHead head s).and hwf).mono (fun _ t h => ?_) fun _ _ h => h.1.1 ▸ hs
  obtain ⟨⟨-, rfl⟩, ht⟩ := h
  refine ⟨ht.1, hs.named, hs.denies, fun h hh => ?_⟩
  rcases Rules.mem_supports_declareHead.1 hh with rfl | hh
  · exact hhead
  · exact hs.heads h hh

/-- A rule whose body is one atom asserts a clause that denies it. -/
theorem preserves_modest_addRule {head a : Atom} (hhead : head ≠ Atom.top) (ha : a ≠ Atom.top) :
    Preserves Modest (addRule (ρ := ρ) head [Literal.pos a]) := by
  intro s hs
  have hcanonical : Clause.canonical [Literal.pos a] = [Literal.pos a] := rfl
  refine (after_addRule head [Literal.pos a] s).mono (fun stored t h => ?_) fun _ _ h => h.1 ▸ hs
  obtain ⟨-, hlt, hbody, heq⟩ := h
  obtain rfl : t = (s.storeRule head [Literal.pos a]).2 := congrArg Prod.snd heq
  rcases storeRule_cases head [Literal.pos a] s with ⟨-, h⟩ | ⟨-, h⟩ | ⟨-, -, h⟩
  · rwa [h]
  · rwa [h]
  · rw [h, hcanonical]
    have hwf := (hs.wellFormed.recordRule hlt hbody).1
    -- the atom is its own support
    have hstored : (s.store [Literal.neg a, Literal.pos head]).2.Modest := by
      refine hs.store (fun l hl => ?_) ⟨a, ha, List.mem_cons_self⟩
      rcases List.mem_cons.1 hl with rfl | hl
      · exact hbody (Literal.pos a) List.mem_cons_self
      · rw [List.mem_singleton.1 hl]
        exact hlt
    refine ⟨hwf, hstored.named, hstored.denies, fun h hh => ?_⟩
    rcases Rules.mem_supports_record.1 hh with rfl | hh
    · exact hhead
    · exact hstored.heads h hh

/-- A modest constraint may be asserted, whatever kind it is. -/
theorem preserves_modest_assert {c : Constraint} (hc : c.Modest) :
    Preserves Modest (assert (ρ := ρ) c) := by
  cases c with
  | clause c => exact (preserves_modest_addClause hc).bind fun _ => preserves_pure _
  | implication body head =>
    obtain ⟨htop, hpos⟩ := hc
    -- the body is positive, so its negation is what the clause denies
    have hneg : body.negate = Literal.neg body.atom := by
      rw [Literal.negate, hpos]
      rfl
    refine (preserves_modest_addClause ⟨body.atom, htop, ?_⟩).bind fun _ => preserves_pure _
    rw [hneg]
    exact List.mem_cons_self
  | rule head body =>
    obtain ⟨hhead, a, ha, rfl⟩ := hc
    exact (preserves_modest_addRule hhead ha).bind fun _ => preserves_pure _

/-! ### What modest solvers allow -/

/-- Every clause denies a named proposition. -/
theorem Modest.denies_named (hs : s.Modest) {c : Clause} (hc : c ∈ s.formula) :
    ∃ a p, Literal.neg a ∈ c ∧ s.atoms.name? a = some p := by
  have hdenies : ∃ a, a ≠ Atom.top ∧ Literal.neg a ∈ c := by
    rcases List.mem_append.1 hc with hc | hc
    · exact hs.denies c (Array.mem_toList_iff.1 hc)
    · -- a completion clause denies its head
      obtain ⟨h, hh, rfl⟩ := Rules.mem_completion.1 hc
      exact ⟨h, hs.heads h hh, List.mem_cons_self⟩
  obtain ⟨a, htop, hmem⟩ := hdenies
  obtain ⟨p, hp⟩ := hs.named a (hs.wellFormed.below c hc _ hmem) htop
  exact ⟨a, p, hmem, hp⟩

/-- Where no proposition holds, everything asserted does. -/
theorem Modest.isModel (hs : s.Modest) {i : Interpretation} (htop : i Atom.top = true)
    (hi : ∀ a p, s.atoms.name? a = some p → i a = false) : i.IsModel s.formula := by
  refine ⟨htop, fun c hc => ?_⟩
  obtain ⟨a, p, hmem, hp⟩ := hs.denies_named hc
  exact ⟨Literal.neg a, hmem, hi a p hp⟩

/-- What denies an atom other than top holds where nothing but top is true. -/
theorem Modest.isModel_nothing (hs : s.Modest) : Interpretation.nothing.IsModel s.formula := by
  refine hs.isModel rfl fun a p hp => beq_eq_false_iff_ne.2 ?_
  -- top has no name
  rintro rfl
  rw [hs.wellFormed.atoms.top] at hp
  cases hp

/-- A modest solver may be asked: top has no rule. -/
theorem Modest.ready (hs : s.Modest) : s.Ready :=
  ⟨hs.wellFormed, Rules.supportsOf_eq_nil fun hh => hs.heads _ hh rfl⟩

end Solver

namespace KnowledgeBase

variable {kb kb' : KnowledgeBase} {p : PredicateId}

/-- No predicate remembers top as the atom of a call or of an existential. -/
def WithoutTop (kb : KnowledgeBase) : Prop :=
  ∀ p, (∀ e ∈ (kb.predicate p).domain.toList, e.2 ≠ Atom.top) ∧
    ∀ e ∈ (kb.predicate p).existentials, e.2 ≠ Atom.top

/-- What the predicates remember decides; the rest of the knowledge base may change. -/
theorem WithoutTop.of_uses (h : kb.WithoutTop) (huses : ∀ p, kb'.uses p = kb.uses p) :
    kb'.WithoutTop := by
  intro p
  show (∀ e ∈ (kb'.uses p).1.toList, e.2 ≠ Atom.top) ∧ ∀ e ∈ (kb'.uses p).2, e.2 ≠ Atom.top
  rw [huses]
  exact h p

/-- What has only been declared remembers nothing. -/
theorem Declared.withoutTop (h : kb.Declared) : kb.WithoutTop := by
  intro p
  show (∀ e ∈ (kb.uses p).1.toList, e.2 ≠ Atom.top) ∧ ∀ e ∈ (kb.uses p).2, e.2 ≠ Atom.top
  rw [h.uses]
  exact ⟨nofun, nofun⟩

/-- A change to one predicate remembers no top if it does not for that predicate. -/
theorem WithoutTop.modifyPredicate (h : kb.WithoutTop) (p : PredicateId) {f : Predicate → Predicate}
    (hdomain : ∀ q, (∀ e ∈ q.domain.toList, e.2 ≠ Atom.top) →
      ∀ e ∈ (f q).domain.toList, e.2 ≠ Atom.top)
    (hexistentials : ∀ q, (∀ e ∈ q.existentials, e.2 ≠ Atom.top) →
      ∀ e ∈ (f q).existentials, e.2 ≠ Atom.top) : (kb.modifyPredicate p f).WithoutTop := by
  intro q
  rcases predicate_modifyPredicate kb f q p with heq | heq
  · rw [heq]
    exact h q
  · rw [heq]
    exact ⟨hdomain _ (h q).1, hexistentials _ (h q).2⟩

end KnowledgeBase

namespace Grounding

open Action

variable {ρ : Type} {α : Type} {g : Grounding ρ} {atom : Atom}

/-! ### Modest groundings -/

/-- The solver is modest, and the predicates remember no top. -/
structure Modest (g : Grounding ρ) : Prop where
  solver : g.solver.Modest
  base : g.base.WithoutTop

/-- The action keeps groundings modest, and gives an atom other than top. -/
def GivesModest (act : EStateM Error (Grounding ρ) Atom) : Prop :=
  ∀ g, Modest g → After act g (fun a t => Modest t ∧ a ≠ Atom.top) (fun _ t => Modest t)

/-- What gives a modest atom keeps groundings modest. -/
theorem GivesModest.preserves {act : EStateM Error (Grounding ρ) Atom} (h : GivesModest act) :
    Preserves Modest act :=
  fun g hg => (h g hg).imp_done fun _ _ ht => ht.1

/-- What follows the action may rely on its atom not being top. -/
theorem GivesModest.bind {act : EStateM Error (Grounding ρ) Atom} (h : GivesModest act)
    {next : Atom → EStateM Error (Grounding ρ) α}
    (hnext : ∀ a, a ≠ Atom.top → Preserves Modest (next a)) : Preserves Modest (act >>= next) :=
  fun g hg => after_bind.2 ((h g hg).imp_done fun a t ht => hnext a ht.2 t ht.1)

/-- An atom other than top may be given as it is. -/
theorem givesModest_pure (ha : atom ≠ Atom.top) :
    GivesModest (pure atom : EStateM Error (Grounding ρ) Atom) :=
  fun _ hg => ⟨hg, ha⟩

/-- What is done before an atom is given has to keep groundings modest. -/
theorem GivesModest.after {act : EStateM Error (Grounding ρ) α} (h : Preserves Modest act)
    {next : α → EStateM Error (Grounding ρ) Atom} (hnext : ∀ a, GivesModest (next a)) :
    GivesModest (act >>= next) :=
  fun g hg => after_bind.2 ((h g hg).imp_done fun a t ht => hnext a t ht)

/-- An atom may depend on one that was given before, which is known not to be top. -/
theorem GivesModest.then {act : EStateM Error (Grounding ρ) Atom} (h : GivesModest act)
    {next : Atom → EStateM Error (Grounding ρ) Atom}
    (hnext : ∀ a, a ≠ Atom.top → GivesModest (next a)) : GivesModest (act >>= next) :=
  fun g hg => after_bind.2 ((h g hg).imp_done fun a t ht => hnext a ht.2 t ht.1)

/-- A change to one predicate keeps groundings modest if what it remembers for that predicate is not
top. -/
theorem preserves_modest_modifyPredicate (p : PredicateId) {f : Predicate → Predicate}
    (hdomain : ∀ q, (∀ e ∈ q.domain.toList, e.2 ≠ Atom.top) →
      ∀ e ∈ (f q).domain.toList, e.2 ≠ Atom.top)
    (hexistentials : ∀ q, (∀ e ∈ q.existentials, e.2 ≠ Atom.top) →
      ∀ e ∈ (f q).existentials, e.2 ≠ Atom.top) :
    Preserves Modest (modifyPredicate (ρ := ρ) p f) :=
  preserves_modify fun _ hg => ⟨hg.solver, hg.base.modifyPredicate p hdomain hexistentials⟩

/-- What keeps solvers modest keeps groundings modest. -/
theorem preserves_modest_onSolver {act : EStateM Error (Solver ρ) α}
    (h : Preserves Solver.Modest act) : Preserves Modest (onSolver act) := by
  intro g hg
  rw [after_onSolver]
  exact (h _ hg.solver).mono (fun _ _ hs => ⟨hs, hg.base⟩) fun _ _ hs => ⟨hs, hg.base⟩

theorem preserves_modest_assert {c : Constraint} (hc : c.Modest) :
    Preserves Modest (assert (ρ := ρ) c) :=
  preserves_modest_onSolver (Solver.preserves_modest_assert hc)

/-- To check arguments may register entities, and asserts nothing. -/
theorem preserves_modest_checkArguments (p : PredicateId) (args : Arguments) :
    Preserves Modest (onBase (ρ := ρ) (KnowledgeBase.checkArguments p args)) := by
  intro g hg
  rw [after_onBase]
  have hsame := KnowledgeBase.preserves_checkArguments p args g.base
    (KnowledgeBase.SamePredicates.refl g.base)
  exact hsame.mono (fun _ _ hkb => ⟨hg.solver, hg.base.of_uses fun _ => hkb.uses⟩)
    fun _ _ hkb => ⟨hg.solver, hg.base.of_uses fun _ => hkb.uses⟩

/-- The atom of a proposition is never top, which has no name. -/
theorem givesModest_proposition (p : Proposition) : GivesModest (proposition (ρ := ρ) p) := by
  intro g hg
  refine after_onSolver.2 (after_modifyGet.2 ⟨⟨hg.solver.proposition p, hg.base⟩, ?_⟩)
  exact hg.solver.proposition_ne_top p

/-! ### Calls -/

/-- A call is remembered with the atom of a proposition. -/
theorem givesModest_enter (p : PredicateId) (args : Arguments) :
    GivesModest (enter (ρ := ρ) p args) := by
  refine GivesModest.after preserves_get fun g => (givesModest_proposition _).then fun a ha => ?_
  refine GivesModest.after ?_ fun _ => givesModest_pure ha
  apply preserves_modest_modifyPredicate
  case hdomain =>
    intro q hq e he
    rcases Domain.mem_toList_insert he with he | rfl
    · exact hq e he
    · exact ha
  case hexistentials => exact fun q hq => hq

/-- To take a call back forgets an atom and asserts nothing. -/
theorem preserves_modest_withdraw (p : PredicateId) (args : Arguments) (e : Error) :
    Preserves Modest (withdraw (ρ := ρ) p args e) := by
  refine Preserves.bind ?_ fun _ => preserves_throw e
  exact preserves_modest_modifyPredicate p (fun _ hq d hd => hq d (Domain.mem_toList_remove hd))
    fun _ hq => hq

/-- Each kind of relation is asserted by modest constraints. -/
theorem preserves_modest_relateCall {call : PredicateId → EStateM Error (Grounding ρ) Atom}
    (hcall : ∀ p, GivesModest (call p)) (p : PredicateId) (args : Arguments)
    (hatom : atom ≠ Atom.top) : Preserves Modest (relateCall call p args atom) := by
  have hgeneral : ∀ q, Preserves Modest (do
      let general ← call q
      assert (.implication (Literal.pos atom) (Literal.pos general))) :=
    fun q => (hcall q).bind fun _ _ => preserves_modest_assert ⟨hatom, rfl⟩
  have hrule : ∀ head, head ≠ Atom.top →
      Preserves Modest (assert (ρ := ρ) (.rule head [Literal.pos atom])) :=
    fun head hhead => preserves_modest_assert ⟨hhead, atom, hatom, rfl⟩
  have hspecific : ∀ q, Preserves Modest (do
      if q ≠ p && (← get).base.admits q args then
        let _ ← call q) := by
    intro q
    refine preserves_get.bind fun t => ?_
    split
    · exact (hcall q).preserves.bind fun _ => preserves_pure _
    · exact preserves_pure _
  have hnegative : ∀ q, Preserves Modest (do
      if (← get).base.admits q args then
        let other ← call q
        onSolver (Solver.inconsistent (Literal.pos atom) (Literal.pos other))) := by
    intro q
    refine preserves_get.bind fun t => ?_
    split
    · refine (hcall q).bind fun other _ => preserves_modest_onSolver ?_
      exact Solver.preserves_modest_assert ⟨atom, hatom, List.mem_cons_self⟩
    · exact preserves_pure _
  refine preserves_get.bind fun t => (preserves_forM fun q _ => hgeneral q).bind fun _ => ?_
  refine preserves_get.bind fun t => (preserves_forM fun q _ => ?_).bind fun _ => ?_
  · refine (hcall q).bind fun head hhead => (hrule head hhead).bind fun _ => ?_
    exact preserves_get.bind fun u => preserves_forM fun r _ => hspecific r
  · refine preserves_get.bind fun t => (preserves_forM fun q _ => hnegative q).bind fun _ => ?_
    cases args with
    | two left right => exact preserves_pure _
    | one entity =>
      -- the existentials are read off a grounding that is modest itself
      intro t ht
      refine after_bind.2 (after_get.2 (preserves_forM (fun e he => ?_) t ht))
      refine preserves_get.bind fun u => (preserves_ofExcept _).bind fun b => ?_
      split
      · exact hrule e.2 ((ht.base p).2 e he)
      · exact preserves_pure _

/-- A call is modest if what relates it to others is, at whatever depth. -/
theorem givesModest_callWithin_of_related {depth : Nat} {args : Arguments} {p : PredicateId}
    (h : ∀ atom, atom ≠ Atom.top → GivesModest (match depth with
      | 0 => return atom
      | depth + 1 => do
        tryCatch (relateCall (ρ := ρ) (callWithin depth args) p args atom) (withdraw p args)
        return atom)) :
    GivesModest (callWithin (ρ := ρ) depth args p) := by
  unfold callWithin
  refine GivesModest.after (preserves_modest_checkArguments p args) fun _ g hg =>
    after_bind.2 (after_get.2 ?_)
  cases hget : (g.base.predicate p).domain.get? args with
  -- what is remembered is not top, by the invariant
  | some atom =>
    exact after_pure.2 ⟨hg, (hg.base p).1 _ (Domain.get?_eq_some_iff.1 hget)⟩
  | none => exact (givesModest_enter p args).then h g hg

/-- Every call keeps the grounding modest, also one that is refused. -/
theorem givesModest_callWithin (depth : Nat) (args : Arguments) (p : PredicateId) :
    GivesModest (callWithin (ρ := ρ) depth args p) := by
  induction depth generalizing p with
  | zero => exact givesModest_callWithin_of_related fun atom ha => givesModest_pure ha
  | succ depth ih =>
    refine givesModest_callWithin_of_related fun atom ha => GivesModest.after ?_ fun _ =>
      givesModest_pure ha
    exact (preserves_modest_relateCall ih p args ha).tryCatch fun e =>
      preserves_modest_withdraw p args e

/-- A call gives an atom other than top and claims nothing, also where it fails. -/
theorem givesModest_call (p : PredicateId) (args : Arguments) :
    GivesModest (call (ρ := ρ) p args) :=
  GivesModest.after preserves_get fun _ => givesModest_callWithin _ args p

/-! ### Existentials -/

/-- An existential that is opened gets the atom of a proposition, or has one already. -/
theorem givesModest_openExistential (p : PredicateId) (sort : SortId) :
    GivesModest (openExistential (ρ := ρ) p sort) := by
  refine GivesModest.after preserves_get fun g => (givesModest_proposition _).then fun head hhead => ?_
  refine GivesModest.after
    (preserves_modest_onSolver (Solver.preserves_modest_addHead hhead)) fun _ => ?_
  refine GivesModest.after ?_ fun _ => givesModest_pure hhead
  apply preserves_modest_modifyPredicate
  -- domains are as they were, and one existential is added
  case hdomain => exact fun q hq => hq
  case hexistentials =>
    intro q hq e he
    rcases List.mem_append.1 he with he | he
    · exact hq e he
    · rw [List.mem_singleton.1 he]
      exact hhead

/-- An existential claims nothing if what descends into the subsorts does not. -/
theorem givesModest_existentialFrom {descend : Atom → EStateM Error (Grounding ρ) Unit}
    (h : ∀ head, head ≠ Atom.top → Preserves Modest (descend head)) (p : PredicateId)
    (sort : SortId) : GivesModest (existentialFrom descend p sort) := by
  intro g hg
  refine after_bind.2 (after_get.2 ?_)
  dsimp only
  split
  · exact hg
  · cases hlookup : (g.base.predicate p).existentials.lookup sort with
    | some head =>
      obtain ⟨before, rest, hsplit, -⟩ := List.lookup_eq_some_iff.1 hlookup
      refine after_pure.2 ⟨hg, (hg.base p).2 (sort, head) ?_⟩
      rw [hsplit]
      simp
    | none =>
      refine (givesModest_openExistential p sort).then (fun head hhead => ?_) g hg
      refine GivesModest.after (h head hhead) fun _ t ht => after_bind.2 (after_get.2 ?_)
      -- the instances called before stand with atoms that are not top
      refine GivesModest.after (preserves_forM fun e he => ?_) (fun _ => givesModest_pure hhead) t ht
      have hmem : e ∈ (t.base.predicate p).domain.toList := (List.mem_filter.1 he).1
      exact preserves_modest_assert ⟨hhead, e.2, (ht.base p).1 e hmem, rfl⟩

/-- Every existential keeps the grounding modest. -/
theorem givesModest_existentialWithin (depth : Nat) (p : PredicateId) (sort : SortId) :
    GivesModest (existentialWithin (ρ := ρ) depth p sort) := by
  induction depth generalizing sort with
  | zero => exact givesModest_existentialFrom (fun _ _ => preserves_pure _) p sort
  | succ depth ih =>
    refine givesModest_existentialFrom (fun head hhead => ?_) p sort
    refine preserves_get.bind fun t => preserves_forM fun subsort _ => (ih subsort).bind ?_
    exact fun body hbody => preserves_modest_assert ⟨hhead, body, hbody, rfl⟩

/-- An existential gives an atom other than top and claims nothing. -/
theorem givesModest_existential (p : PredicateId) (sort : SortId) :
    GivesModest (existential (ρ := ρ) p sort) :=
  GivesModest.after preserves_get fun _ => givesModest_existentialWithin _ p sort

/-! ### What only compiling leads to -/

/-- A knowledge base is put together with a new solver, and then there are declarations, calls and
existentials, which may be refused. Literals may be assumed and questions asked in between, but
nothing else is asserted. -/
inductive Compiling [RandomSource ρ] : Grounding ρ → Prop where
  | start {base : KnowledgeBase} (hbase : base.WithoutTop) (config : Config) (source : ρ) :
    Compiling ⟨base, Solver.ofConfig config source⟩
  | declaration {g : Grounding ρ} (hg : Compiling g) (d : KnowledgeBase.Declaration) :
    Compiling { g with base := d.perform g.base }
  | call {g : Grounding ρ} (hg : Compiling g) (p : PredicateId) (args : Arguments) :
    Compiling (stateAfter (call p args) g)
  | existential {g : Grounding ρ} (hg : Compiling g) (p : PredicateId) (sort : SortId) :
    Compiling (stateAfter (existential p sort) g)
  | ask {g : Grounding ρ} (hg : Compiling g) {m : Solver.Move} (hm : m.asks = true) :
    Compiling { g with solver := m.perform g.solver }

/-- Several declarations in a row leave a grounding one that only compiles. -/
theorem Compiling.declarations [RandomSource ρ] {g : Grounding ρ} (h : g.Compiling)
    (ds : List KnowledgeBase.Declaration) :
    Compiling ⟨ds.foldl (fun kb d => d.perform kb) g.base, g.solver⟩ := by
  induction ds generalizing g with
  | nil => exact h
  | cons d ds ih => exact ih (h.declaration d)

/-- **What only compiling leads to is modest.** -/
theorem Compiling.modest [RandomSource ρ] {g : Grounding ρ} (h : g.Compiling) : g.Modest := by
  induction h with
  | start hbase config source => exact ⟨Solver.modest_ofConfig config source, hbase⟩
  | declaration hg d ih => exact ⟨ih.solver, ih.base.of_uses fun p => d.uses_perform _⟩
  | call hg p args ih => exact (givesModest_call p args).preserves.stateAfter ih
  | existential hg p sort ih => exact (givesModest_existential p sort).preserves.stateAfter ih
  | ask hg hm ih =>
    exact ⟨ih.solver.of_same (Solver.sameConstraints_perform hm _)
      (ih.solver.wellFormed.grown.perform _).1, ih.base⟩

end Grounding

end Storyworld
