import Storyworld.Proofs.Solver.Invariant

namespace Storyworld

/-!
# What a caller has said

A caller is given atoms and asserts clauses, rules and heads about them. `Solver.Account`
keeps what was given and asserted, as it was put, and `Solver.Told` says that a solver has been
told just that. What the solver stores differs from it in three ways: bodies and clauses are
canonical, tautologies and repetitions are left out, and a body of several literals has an
atom of its own. `Faithful` is the invariant that says that nothing is lost by this: the
caller's atoms and those of bodies are kept apart (`Owned`), and the asserted clauses and the
supports of heads mean what was asserted (`Meant`).
-/

/-! ### Bodies and clauses under an interpretation -/

namespace Interpretation

variable {i : Interpretation} {l m : Literal} {c : Clause}

theorem isTrue_pair : i.IsTrue [l, m] ↔ i.Satisfies l ∨ i.Satisfies m := by
  simp [IsTrue]

/-- A clause of two literals says that the negation of the first implies the second. -/
theorem isTrue_negate_pair : i.IsTrue [l.negate, m] ↔ (i.Satisfies l → i.Satisfies m) := by
  rw [isTrue_pair, satisfies_negate]
  exact Decidable.imp_iff_not_or.symm

/-- A clause may say that some literals together imply another. -/
theorem isTrue_negations : i.IsTrue (c.map Literal.negate ++ [l]) ↔
    (i.SatisfiesAll c → i.Satisfies l) := by
  constructor
  · rintro ⟨m, hm, hsat⟩ hall
    rcases List.mem_append.1 hm with hm | hm
    · obtain ⟨n, hn, rfl⟩ := List.mem_map.1 hm
      exact absurd (hall n hn) (satisfies_negate.1 hsat)
    · exact List.mem_singleton.1 hm ▸ hsat
  · intro h
    by_cases hall : i.SatisfiesAll c
    · exact ⟨l, by simp, h hall⟩
    · -- a literal of the body is false, so its negation makes the clause true
      obtain ⟨n, hn⟩ := Classical.not_forall.1 hall
      obtain ⟨hn, hsat⟩ := Classical.not_imp.1 hn
      exact ⟨n.negate, List.mem_append_left _ (List.mem_map_of_mem hn), satisfies_negate.2 hsat⟩

/-- The canonical form has the same literals, so it is as true. -/
theorem satisfiesAll_canonical : i.SatisfiesAll c.canonical ↔ i.SatisfiesAll c :=
  forall_congr' fun _ => imp_congr_left Clause.mem_canonical

/-- Interpretations that give the atoms of a clause the same values agree on it. -/
theorem isTrue_congr {j : Interpretation} (h : ∀ l ∈ c, i l.atom = j l.atom) :
    i.IsTrue c ↔ j.IsTrue c := by
  refine exists_congr fun l => and_congr_right fun hl => ?_
  rw [Satisfies, Satisfies, h l hl]

/-- Whether literals are true depends on their atoms. -/
theorem satisfiesAll_congr {j : Interpretation} (h : ∀ l ∈ c, i l.atom = j l.atom) :
    i.SatisfiesAll c ↔ j.SatisfiesAll c := by
  refine forall_congr' fun l => imp_congr_right fun hl => ?_
  rw [Satisfies, Satisfies, h l hl]

end Interpretation

namespace Rules

/-- Each atom that stands for a body is true exactly when the body is. -/
def DefinedIn (r : Rules) (i : Interpretation) : Prop :=
  ∀ d ∈ r.definitions, (i d.2 = true ↔ i.SatisfiesAll d.1)

end Rules

namespace Solver

variable {ρ : Type} {s : Solver ρ} {i : Interpretation}

/-- Every asserted clause is true. -/
def TrueIn (s : Solver ρ) (i : Interpretation) : Prop := ∀ c ∈ s.clauses.asserted, i.IsTrue c

/-! ### What storing means -/

/-- A clause that is stored has to be true from then on, also where it was there already or is a
tautology. -/
theorem trueIn_store (c : Clause) : (s.store c).2.TrueIn i ↔ s.TrueIn i ∧ i.IsTrue c := by
  rcases store_cases c s with ⟨hclash, h⟩ | ⟨hmem, h⟩ | ⟨key, clauses, -, hpush, h⟩
  · rw [h]
    -- a tautology is true in any case
    obtain ⟨l, hl, hn⟩ := Clause.clashes_canonical_iff.1 hclash
    exact (and_iff_left (Interpretation.isTrue_of_clash hl hn)).symm
  · rw [h]
    -- a duplicate is true with the clause that was stored before
    exact (and_iff_left_of_imp fun hs => Interpretation.isTrue_canonical.1 (hs _ hmem)).symm
  · rw [h, TrueIn, hpush]
    constructor
    · intro hall
      refine ⟨fun d hd => hall d (Array.mem_push_of_mem _ hd), ?_⟩
      exact Interpretation.isTrue_canonical.1 (hall _ (Array.mem_push_self ..))
    · rintro ⟨hs, hc⟩ d hd
      rcases Array.mem_push.1 hd with hd | rfl
      · exact hs d hd
      · exact Interpretation.isTrue_canonical.2 hc

/-- Clauses that are stored one after the other have to be true from then on. -/
theorem trueIn_storeAll (cs : List Clause) :
    (storeAll cs s).TrueIn i ↔ s.TrueIn i ∧ ∀ c ∈ cs, i.IsTrue c := by
  induction cs generalizing s with
  | nil => exact (and_iff_left fun c hc => by cases hc).symm
  | cons c cs ih =>
    show (storeAll cs (s.store c).2).TrueIn i ↔ _
    rw [ih, trueIn_store, and_assoc, List.forall_mem_cons]

/-- The defining clauses say that the support is true exactly when the body is. -/
theorem isTrue_definingClauses {support : Literal} {body : Clause} :
    (∀ c ∈ definingClauses support body, i.IsTrue c) ↔
      (i.Satisfies support ↔ i.SatisfiesAll body) := by
  rw [definingClauses, List.forall_mem_append, List.forall_mem_map, List.forall_mem_singleton,
    Interpretation.isTrue_negations]
  constructor
  · rintro ⟨hparts, hwhole⟩
    exact ⟨fun hs l hl => Interpretation.isTrue_negate_pair.1 (hparts l hl) hs, hwhole⟩
  · intro h
    exact ⟨fun l hl => Interpretation.isTrue_negate_pair.2 fun hs => h.1 hs l hl, h.2⟩

/-- The clauses for a support say that it is true exactly when the body is. -/
theorem trueIn_defineBody (body : Clause) :
    (defineBody body s).TrueIn i ↔
      s.TrueIn i ∧ (i s.atoms.count = true ↔ i.SatisfiesAll body) :=
  (trueIn_storeAll _).trans (and_congr_right fun _ => isTrue_definingClauses)

/-! ### Accounts -/

/-- What a caller was given and has asserted. -/
structure Account where
  /-- The atoms that were made for the caller. -/
  atoms : List Nat := []
  clauses : List Clause := []
  /-- The atoms that were declared to be heads. -/
  heads : List Nat := []
  /-- The rules, each with its head first. -/
  rules : List (Nat × Clause) := []

namespace Account

/-- Top, or an atom that was made for the caller. -/
def Knows (k : Account) (a : Atom) : Prop := a = Atom.top ∨ a ∈ k.atoms

instance (k : Account) (a : Atom) : Decidable (k.Knows a) :=
  inferInstanceAs (Decidable (_ ∨ _))

/-- Declared to be a head, or the head of a rule. -/
def IsHead (k : Account) (h : Atom) : Prop := h ∈ k.heads ∨ ∃ body, (h, body) ∈ k.rules

/-- Every clause is true, and each head is true exactly when the body of one of its rules is. -/
def IsMetBy (k : Account) (i : Interpretation) : Prop :=
  (∀ c ∈ k.clauses, i.IsTrue c) ∧
    ∀ h, k.IsHead h → (i h = true ↔ ∃ body, (h, body) ∈ k.rules ∧ i.SatisfiesAll body)

end Account

/-- The solver has been told what the account says, from the beginning. Clauses and rules are about
known atoms, no body has a literal together with its negation, and nothing was refused. -/
inductive Told : Solver ρ → Account → Prop where
  | start (config : Config) (source : ρ) : Told (ofConfig config source) {}
  | freshAtom {s : Solver ρ} {k : Account} (hs : Told s k) (name : Option Proposition) :
    Told (s.freshAtom name).2 { k with atoms := (s.freshAtom name).1 :: k.atoms }
  | addClause {s t : Solver ρ} {k : Account} (hs : Told s k) {c : Clause} {stored : Stored}
    (hc : ∀ l ∈ c, k.Knows l.atom) (hok : addClause c s = .ok stored t) :
    Told t { k with clauses := c :: k.clauses }
  | addRule {s t : Solver ρ} {k : Account} (hs : Told s k) {head : Atom} {body : Clause}
    {stored : Stored} (hhead : k.Knows head) (hbody : ∀ l ∈ body, k.Knows l.atom)
    (hclash : ∀ l ∈ body, l.negate ∉ body) (hok : addRule head body s = .ok stored t) :
    Told t { k with rules := (head, body) :: k.rules }
  | addHead {s t : Solver ρ} {k : Account} (hs : Told s k) {head : Atom} (hhead : k.Knows head)
    (hok : addHead head s = .ok () t) : Told t { k with heads := head :: k.heads }

/-! ### Whose the atoms are -/

/-- Every atom is known to the caller or stands for a body, and not both; different bodies have
different atoms, and bodies are about known atoms. -/
structure Owned (s : Solver ρ) (k : Account) : Prop where
  known_lt : ∀ a, k.Knows a → a < s.atoms.count
  covered : ∀ a, a < s.atoms.count → k.Knows a ∨ ∃ body, (body, a) ∈ s.rules.definitions
  apart : ∀ d ∈ s.rules.definitions, ¬ k.Knows d.2
  nameless : ∀ d ∈ s.rules.definitions, s.atoms.name? d.2 = none
  known : ∀ d ∈ s.rules.definitions, ∀ l ∈ d.1, k.Knows l.atom
  distinct : ∀ d ∈ s.rules.definitions, ∀ e ∈ s.rules.definitions, d.2 = e.2 → d.1 = e.1

/-- What is asserted is about known atoms. -/
structure Account.Closed (k : Account) : Prop where
  clauses : ∀ c ∈ k.clauses, ∀ l ∈ c, k.Knows l.atom
  heads : ∀ h ∈ k.heads, k.Knows h
  rules : ∀ r ∈ k.rules, k.Knows r.1 ∧ ∀ l ∈ r.2, k.Knows l.atom

/-- What is stored means what was asserted. -/
structure Meant (s : Solver ρ) (k : Account) : Prop where
  closed : k.Closed
  heads : ∀ h, h ∈ s.rules.supports ↔ k.IsHead h
  recorded : ∀ h body, (h, body) ∈ s.rules.recorded → ∃ b, (h, b) ∈ k.rules ∧ b.canonical = body
  asserted : ∀ i, s.TrueIn i ↔ (∀ c ∈ k.clauses, i.IsTrue c) ∧ s.rules.DefinedIn i ∧
    ∀ r ∈ k.rules, i.SatisfiesAll r.2 → i r.1 = true
  supports : ∀ i, s.rules.DefinedIn i → ∀ h, (∃ l ∈ s.rules.supportsOf h, i.Satisfies l) ↔
    ∃ body, (h, body) ∈ k.rules ∧ i.SatisfiesAll body

/-- The solver is well formed and has stored what the account says, in its own way. -/
structure Faithful (s : Solver ρ) (k : Account) : Prop where
  wellFormed : s.WellFormed
  owned : Owned s k
  meant : Meant s k

variable {t : Solver ρ} {k : Account}

/-! ### A new solver -/

/-- A caller who was given nothing knows top only. -/
theorem not_knows_start {a : Atom} (h : ({} : Account).Knows a) : a = Atom.top := by
  rcases h with h | h
  · exact h
  · cases h

/-- Nothing is lost of what was never said. -/
theorem faithful_start (config : Config) (source : ρ) : Faithful (ofConfig config source) {} where
  wellFormed := wellFormed_ofConfig config source
  owned :=
    { known_lt := fun a ha => not_knows_start ha ▸ Nat.one_pos
      covered := fun a ha => Or.inl (Or.inl (Nat.lt_one_iff.1 ha))
      apart := by nofun
      nameless := by nofun
      known := by nofun
      distinct := by nofun }
  meant :=
    { closed := ⟨by nofun, by nofun, by nofun⟩
      heads := by
        intro h
        refine ⟨fun hh => absurd hh Std.TreeMap.not_mem_emptyc, fun hh => ?_⟩
        rcases hh with hh | ⟨body, hh⟩ <;> cases hh
      recorded := by nofun
      asserted := by
        intro i
        refine ⟨fun _ => ⟨by nofun, by nofun, by nofun⟩, fun _ c hc => ?_⟩
        exact absurd hc (Array.not_mem_empty c)
      supports := by
        intro i _ h
        -- no head has a support, since no rule is recorded
        have hnil : (ofConfig config source).rules.supportsOf h = [] := by
          by_cases hnil : (ofConfig config source).rules.supportsOf h = []
          · exact hnil
          · obtain ⟨body, hbody⟩ := (Rules.over_start 0).recorded h hnil
            cases hbody
        rw [hnil]
        constructor
        · rintro ⟨l, hl, -⟩
          cases hl
        · rintro ⟨body, hbody, -⟩
          cases hbody }

/-! ### A new atom -/

/-- A caller knows the atom that was given last, and those from before. -/
theorem knows_cons {a b : Atom} : ({ k with atoms := a :: k.atoms } : Account).Knows b ↔
    b = a ∨ k.Knows b := by
  show b = Atom.top ∨ b ∈ a :: k.atoms ↔ b = a ∨ b = Atom.top ∨ b ∈ k.atoms
  rw [List.mem_cons]
  exact or_left_comm

/-- With more atoms known, what is stored means what it meant. -/
theorem Meant.know (h : Meant s k) (a : Atom) (hclauses : t.clauses = s.clauses)
    (hrules : t.rules = s.rules) : Meant t { k with atoms := a :: k.atoms } := by
  have htrue : ∀ i, t.TrueIn i ↔ s.TrueIn i := fun i => by rw [TrueIn, TrueIn, hclauses]
  have hknow : ∀ b, k.Knows b → ({ k with atoms := a :: k.atoms } : Account).Knows b :=
    fun b hb => knows_cons.2 (Or.inr hb)
  refine ⟨⟨fun c hc l hl => hknow _ (h.closed.clauses c hc l hl),
    fun b hb => hknow b (h.closed.heads b hb), fun r hr => ?_⟩, ?_, ?_, ?_, ?_⟩
  · exact ⟨hknow _ (h.closed.rules r hr).1, fun l hl => hknow _ ((h.closed.rules r hr).2 l hl)⟩
  · rw [hrules]
    exact h.heads
  · rw [hrules]
    exact h.recorded
  · intro i
    rw [htrue, hrules]
    exact h.asserted i
  · rw [hrules]
    exact h.supports

/-- An atom that is made for the caller is one of the caller's atoms. -/
theorem Faithful.makeAtom (h : Faithful s k) (name : Option Proposition) :
    Faithful (s.makeAtom name).2.invalidate { k with atoms := s.atoms.count :: k.atoms } where
  wellFormed := h.wellFormed.makeAtom name
  owned := by
    have hcount : (s.atoms.fresh name).2.count = s.atoms.count + 1 := Atoms.count_fresh ..
    have hdef : ∀ d ∈ s.rules.definitions, d.2 < s.atoms.count := h.wellFormed.rules.definitions
    refine ⟨fun a ha => ?_, fun a ha => ?_, fun d hd hk => ?_, fun d hd => ?_, fun d hd l hl => ?_,
      h.owned.distinct⟩
    · show a < (s.atoms.fresh name).2.count
      rw [hcount, Nat.lt_succ_iff]
      rcases knows_cons.1 ha with rfl | ha
      · exact Nat.le_refl _
      · exact Nat.le_of_lt (h.owned.known_lt a ha)
    · -- the new atom is the caller's, and the others are whose they were
      have ha : a < (s.atoms.fresh name).2.count := ha
      rw [hcount, Nat.lt_succ_iff] at ha
      rcases Nat.lt_or_eq_of_le ha with hlt | rfl
      · exact (h.owned.covered a hlt).imp_left fun hk => knows_cons.2 (Or.inr hk)
      · exact Or.inl (knows_cons.2 (Or.inl rfl))
    · rcases knows_cons.1 hk with e | hk
      · exact absurd e (Nat.ne_of_lt (hdef d hd))
      · exact h.owned.apart d hd hk
    · show (s.atoms.fresh name).2.name? d.2 = none
      rw [Atoms.name?_fresh_of_lt (hdef d hd)]
      exact h.owned.nameless d hd
    · exact knows_cons.2 (Or.inr (h.owned.known d hd l hl))
  meant := h.meant.know s.atoms.count rfl rfl

/-- An atom with a name is known: it does not stand for a body. -/
theorem Faithful.knows_named (h : Faithful s k) {p : Proposition} {a : Atom}
    (ha : s.atoms.named? p = some a) : k.Knows a := by
  have hname := h.wellFormed.atoms.named p a ha
  rcases h.owned.covered a (Atoms.lt_count hname) with hk | ⟨body, hbody⟩
  · exact hk
  · have hnone := h.owned.nameless _ hbody
    rw [show ((body, a) : Clause × Nat).2 = a from rfl, hname] at hnone
    cases hnone

/-- To know an atom that is known already changes nothing. -/
theorem Faithful.know (h : Faithful s k) {a : Atom} (ha : k.Knows a) :
    Faithful s { k with atoms := a :: k.atoms } := by
  have hknows : ∀ b, ({ k with atoms := a :: k.atoms } : Account).Knows b ↔ k.Knows b := fun b =>
    knows_cons.trans (or_iff_right_of_imp fun e => e ▸ ha)
  refine ⟨h.wellFormed, ?_, h.meant.know a rfl rfl⟩
  exact ⟨fun b hb => h.owned.known_lt b ((hknows b).1 hb),
    fun b hb => (h.owned.covered b hb).imp_left (hknows b).2,
    fun d hd hk => h.owned.apart d hd ((hknows _).1 hk), h.owned.nameless,
    fun d hd l hl => (hknows _).2 (h.owned.known d hd l hl), h.owned.distinct⟩

/-- An atom that is asked for by name may be one that the caller was given before. -/
theorem Faithful.freshAtom (h : Faithful s k) (name : Option Proposition) :
    Faithful (s.freshAtom name).2 { k with atoms := (s.freshAtom name).1 :: k.atoms } := by
  cases name with
  | none => exact h.makeAtom none
  | some p =>
    unfold Solver.freshAtom Solver.proposition
    dsimp only
    split
    · rename_i a ha
      -- the name leads to an atom already, and that one is given out again
      exact h.know (h.knows_named ha)
    · exact h.makeAtom (some p)

/-! ### Clauses and heads -/

/-- What is owned depends on the atoms and the definitions only. -/
theorem Owned.of_eq {k' : Account} (h : Owned s k) (hatoms : t.atoms = s.atoms)
    (hdefinitions : t.rules.definitions = s.rules.definitions) (hk : k'.atoms = k.atoms) :
    Owned t k' := by
  -- who owns an atom is seen from the atoms and the definitions, and these are the same
  have hknows : ∀ a, k'.Knows a ↔ k.Knows a := fun a => by rw [Account.Knows, Account.Knows, hk]
  refine ⟨fun a ha => ?_, fun a ha => ?_, ?_, ?_, ?_, ?_⟩
  · rw [hatoms]
    exact h.known_lt a ((hknows a).1 ha)
  · rw [hatoms] at ha
    rw [hdefinitions, hknows]
    exact h.covered a ha
  · rw [hdefinitions]
    exact fun d hd hkd => h.apart d hd ((hknows _).1 hkd)
  · rw [hdefinitions, hatoms]
    exact h.nameless
  · rw [hdefinitions]
    exact fun d hd l hl => (hknows _).2 (h.known d hd l hl)
  · rw [hdefinitions]
    exact h.distinct

/-- A clause over known atoms is stored as what it says. -/
theorem Faithful.addClause (h : Faithful s k) {c : Clause} (hc : ∀ l ∈ c, k.Knows l.atom) :
    Faithful (s.store c).2 { k with clauses := c :: k.clauses } := by
  have hwf := h.wellFormed.store fun l hl => h.owned.known_lt _ (hc l hl)
  have htrue : ∀ i, (s.store c).2.TrueIn i ↔ s.TrueIn i ∧ i.IsTrue c := fun _ => trueIn_store c
  obtain ⟨clauses, status, hframe, -⟩ := store_frame c s
  rw [hframe] at hwf htrue ⊢
  refine ⟨hwf, h.owned.of_eq rfl rfl rfl, ⟨⟨?_, h.meant.closed.heads, h.meant.closed.rules⟩,
    h.meant.heads, h.meant.recorded, fun i => ?_, h.meant.supports⟩⟩
  · exact List.forall_mem_cons.2 ⟨hc, h.meant.closed.clauses⟩
  · rw [htrue, h.meant.asserted, List.forall_mem_cons]
    exact and_comm.trans and_assoc.symm

/-- A head that is declared is one that the caller has declared. -/
theorem Faithful.addHead (h : Faithful s k) {head : Atom} (hhead : k.Knows head) :
    Faithful { s with rules := s.rules.declareHead head, status := .stale }
      { k with heads := head :: k.heads } := by
  refine ⟨⟨h.wellFormed.atoms, h.wellFormed.clauses,
    h.wellFormed.rules.declareHead (h.owned.known_lt _ hhead), h.wellFormed.assumptions,
    Or.inl rfl⟩, h.owned.of_eq rfl rfl rfl, ⟨⟨h.meant.closed.clauses, ?_, h.meant.closed.rules⟩,
    fun a => ?_, h.meant.recorded, h.meant.asserted, fun i hi a => ?_⟩⟩
  · exact List.forall_mem_cons.2 ⟨hhead, h.meant.closed.heads⟩
  · show a ∈ (s.rules.declareHead head).supports ↔ a ∈ head :: k.heads ∨ _
    -- a head that was declared already is not declared anew, and has its supports still
    rw [Rules.mem_supports_declareHead, h.meant.heads, List.mem_cons, or_assoc]
    rfl
  · show (∃ l ∈ (s.rules.declareHead head).supportsOf a, i.Satisfies l) ↔ _
    rw [Rules.supportsOf_declareHead]
    exact h.meant.supports i hi a

/-! ### Rules -/

/-- A rule about known atoms leaves all that is asserted about known atoms. -/
theorem Account.Closed.addRule (h : k.Closed) {head : Atom} {body : Clause}
    (hhead : k.Knows head) (hbody : ∀ l ∈ body, k.Knows l.atom) :
    ({ k with rules := (head, body) :: k.rules } : Account).Closed where
  clauses := h.clauses
  heads := h.heads
  rules := List.forall_mem_cons.2 ⟨⟨hhead, hbody⟩, h.rules⟩

/-- A rule makes its atom a head. -/
theorem isHead_cons {a b : Atom} {body : Clause} :
    ({ k with rules := (a, body) :: k.rules } : Account).IsHead b ↔ b = a ∨ k.IsHead b := by
  constructor
  · rintro (hb | ⟨c, hc⟩)
    · exact Or.inr (Or.inl hb)
    · rcases List.mem_cons.1 hc with e | hc
      · exact Or.inl (congrArg Prod.fst e)
      · exact Or.inr (Or.inr ⟨c, hc⟩)
  · rintro (rfl | hb | ⟨c, hc⟩)
    · exact Or.inr ⟨body, List.mem_cons_self⟩
    · exact Or.inl hb
    · exact Or.inr ⟨c, List.mem_cons_of_mem _ hc⟩

/-- One more rule is one more way for its head to be supported. -/
theorem exists_rule_cons {a b : Atom} {body : Clause} :
    (∃ c, (b, c) ∈ (a, body) :: k.rules ∧ i.SatisfiesAll c) ↔
      (∃ c, (b, c) ∈ k.rules ∧ i.SatisfiesAll c) ∨ a = b ∧ i.SatisfiesAll body := by
  constructor
  · rintro ⟨c, hc, hsat⟩
    rcases List.mem_cons.1 hc with e | hc
    · obtain ⟨rfl, rfl⟩ := Prod.mk.inj e
      exact Or.inr ⟨rfl, hsat⟩
    · exact Or.inl ⟨c, hc, hsat⟩
  · rintro (⟨c, hc, hsat⟩ | ⟨rfl, hsat⟩)
    · exact ⟨c, List.mem_cons_of_mem _ hc, hsat⟩
    · exact ⟨body, List.mem_cons_self, hsat⟩

/-- A rule whose body has the same literals as that of a rule before says nothing new. -/
theorem Faithful.repeatRule (h : Faithful s k) {head : Atom} {body : Clause}
    (hhead : k.Knows head) (hbody : ∀ l ∈ body, k.Knows l.atom)
    (hrecorded : (head, body.canonical) ∈ s.rules.recorded) :
    Faithful s { k with rules := (head, body) :: k.rules } := by
  obtain ⟨b, hb, hcanonical⟩ := h.meant.recorded _ _ hrecorded
  -- the rule that was recorded may have been put in another way, but had the same canonical body
  have hsame : ∀ i : Interpretation, i.SatisfiesAll body ↔ i.SatisfiesAll b := fun i => by
    rw [← Interpretation.satisfiesAll_canonical (c := body), ← hcanonical,
      Interpretation.satisfiesAll_canonical]
  refine ⟨h.wellFormed, h.owned.of_eq rfl rfl rfl, ⟨h.meant.closed.addRule hhead hbody,
    fun a => ?_, fun a c hc => ?_, fun i => ?_, fun i hi a => ?_⟩⟩
  · rw [h.meant.heads, isHead_cons]
    exact (or_iff_right_of_imp fun e => e ▸ Or.inr ⟨b, hb⟩).symm
  · obtain ⟨d, hd, he⟩ := h.meant.recorded a c hc
    exact ⟨d, List.mem_cons_of_mem _ hd, he⟩
  · rw [h.meant.asserted, List.forall_mem_cons]
    refine and_congr_right fun _ => and_congr_right fun _ => ?_
    exact (and_iff_right_of_imp fun hall hsat => hall _ hb ((hsame i).1 hsat)).symm
  · rw [h.meant.supports i hi, exists_rule_cons]
    refine (or_iff_left_of_imp ?_).symm
    rintro ⟨rfl, hsat⟩
    exact ⟨b, hb, (hsame i).1 hsat⟩

/-- An atom that stands for a body from now on. The body is about known atoms, and no atom stands
for it yet. -/
theorem Faithful.defineBody (h : Faithful s k) {body : Clause}
    (hbody : ∀ l ∈ body, k.Knows l.atom) : Faithful (defineBody body s) k := by
  have hwf := h.wellFormed.defineBody fun l hl => h.owned.known_lt _ (hbody l hl)
  have htrue : ∀ i, (Solver.defineBody body s).TrueIn i ↔
      s.TrueIn i ∧ (i s.atoms.count = true ↔ i.SatisfiesAll body) := fun _ => trueIn_defineBody body
  have hcount : (s.atoms.fresh none).2.count = s.atoms.count + 1 := Atoms.count_fresh ..
  have hdef : ∀ d ∈ s.rules.definitions, d.2 < s.atoms.count := h.wellFormed.rules.definitions
  obtain ⟨clauses, hframe⟩ := defineBody_frame body s
  rw [hframe] at hwf htrue ⊢
  refine ⟨hwf, ⟨fun a ha => ?_, fun a ha => ?_, ?_, ?_, ?_, ?_⟩, ⟨h.meant.closed, h.meant.heads,
    h.meant.recorded, fun i => ?_, fun i hi a => ?_⟩⟩
  · show a < (s.atoms.fresh none).2.count
    rw [hcount]
    exact Nat.lt_succ_of_lt (h.owned.known_lt a ha)
  · have ha : a < (s.atoms.fresh none).2.count := ha
    rw [hcount, Nat.lt_succ_iff] at ha
    rcases Nat.lt_or_eq_of_le ha with hlt | rfl
    · rcases h.owned.covered a hlt with hk | ⟨b, hb⟩
      · exact Or.inl hk
      · exact Or.inr ⟨b, List.mem_cons_of_mem _ hb⟩
    · exact Or.inr ⟨body, List.mem_cons_self⟩
  · refine List.forall_mem_cons.2 ⟨fun hk => ?_, h.owned.apart⟩
    exact Nat.lt_irrefl _ (h.owned.known_lt _ hk)
  · refine List.forall_mem_cons.2 ⟨?_, fun d hd => ?_⟩
    · exact (Atoms.name?_fresh s.atoms none s.atoms.count).trans (if_pos rfl)
    · exact (Atoms.name?_fresh_of_lt (hdef d hd) none).trans (h.owned.nameless d hd)
  · exact List.forall_mem_cons.2 ⟨hbody, h.owned.known⟩
  · -- the new atom is above those that stood for a body before
    intro d hd e he hde
    rcases List.mem_cons.1 hd with rfl | hd
    · rcases List.mem_cons.1 he with rfl | he
      · rfl
      · exact absurd hde (Nat.ne_of_gt (hdef e he))
    · rcases List.mem_cons.1 he with rfl | he
      · exact absurd hde (Nat.ne_of_lt (hdef d hd))
      · exact h.owned.distinct d hd e he hde
  · rw [htrue, h.meant.asserted]
    show _ ↔ _ ∧ (∀ d ∈ (body, s.atoms.count) :: s.rules.definitions, _) ∧ _
    rw [List.forall_mem_cons]
    constructor
    · rintro ⟨⟨hclauses, hdefined, hrules⟩, hnew⟩
      exact ⟨hclauses, ⟨hnew, hdefined⟩, hrules⟩
    · rintro ⟨hclauses, ⟨hnew, hdefined⟩, hrules⟩
      exact ⟨⟨hclauses, hdefined, hrules⟩, hnew⟩
  · exact h.meant.supports i (fun d hd => hi d (List.mem_cons_of_mem _ hd)) a

/-- The support of a body is true exactly when the body is. -/
theorem Faithful.support (h : Faithful s k) {body : Clause} (hbody : ∀ l ∈ body, k.Knows l.atom) :
    Faithful (s.support body).2 k ∧
      ∀ i, (s.support body).2.rules.DefinedIn i →
        (i.Satisfies (s.support body).1 ↔ i.SatisfiesAll body) := by
  -- the body is one literal, or has its atom already, or is given one now
  rcases support_cases body s with ⟨l, rfl, hs⟩ | ⟨a, ha, hs⟩ | ⟨-, hs⟩
  · rw [hs]
    exact ⟨h, fun i _ => Interpretation.satisfiesAll_singleton.symm⟩
  · rw [hs]
    exact ⟨h, fun i hi => hi _ ha⟩
  · rw [hs]
    refine ⟨h.defineBody hbody, fun i hi => hi (body, s.atoms.count) ?_⟩
    obtain ⟨clauses, hframe⟩ := defineBody_frame body s
    show (body, s.atoms.count) ∈ (Solver.defineBody body s).rules.definitions
    rw [hframe]
    exact List.mem_cons_self

/-- The clause that is stored with a rule says that the support implies the head. -/
theorem trueIn_recordRule (head : Atom) (body : Clause) :
    (recordRule head body s).TrueIn i ↔ (s.support body).2.TrueIn i ∧
      (i.Satisfies (s.support body).1 → i head = true) :=
  (trueIn_store _).trans (and_congr_right fun _ => Interpretation.isTrue_negate_pair)

/-- A rule that is recorded changes the clauses, the rules and the status, beyond what its support
changes. -/
theorem recordRule_frame (head : Atom) (body : Clause) (s : Solver ρ) :
    ∃ clauses, recordRule head body s =
      { (s.support body).2 with
        clauses
        rules := (s.support body).2.rules.record head body (s.support body).1
        status := .stale } := by
  obtain ⟨clauses, status, h, -⟩ :=
    store_frame [(s.support body).1.negate, Literal.pos head] (s.support body).2
  refine ⟨clauses, ?_⟩
  unfold recordRule
  dsimp only
  rw [h]

/-- A rule over known atoms is recorded as what it says: its support is true exactly when its body
is. -/
theorem Faithful.recordRule (h : Faithful s k) {head : Atom} {body : Clause}
    (hhead : k.Knows head) (hbody : ∀ l ∈ body, k.Knows l.atom) :
    Faithful (recordRule head body.canonical s) { k with rules := (head, body) :: k.rules } := by
  have hcanonical : ∀ l ∈ body.canonical, k.Knows l.atom :=
    fun l hl => hbody l (Clause.mem_canonical.1 hl)
  obtain ⟨ht, hsupport⟩ := h.support hcanonical
  have hwf := (h.wellFormed.recordRule (h.owned.known_lt _ hhead)
    fun l hl => h.owned.known_lt _ (hcanonical l hl)).1
  have htrue : ∀ i, (Solver.recordRule head body.canonical s).TrueIn i ↔
      (s.support body.canonical).2.TrueIn i ∧
        (i.Satisfies (s.support body.canonical).1 → i head = true) :=
    fun _ => trueIn_recordRule head _
  obtain ⟨clauses, hframe⟩ := recordRule_frame head body.canonical s
  rw [hframe] at hwf htrue ⊢
  refine ⟨hwf, ht.owned.of_eq rfl rfl rfl, ⟨ht.meant.closed.addRule hhead hbody, fun a => ?_,
    fun a c hc => ?_, fun i => ?_, fun i hi a => ?_⟩⟩
  · rw [isHead_cons]
    exact Rules.mem_supports_record.trans (or_congr_right (ht.meant.heads a))
  · rcases Rules.mem_recorded_record.1 hc with e | hc
    · obtain ⟨rfl, rfl⟩ := Prod.mk.inj e
      exact ⟨body, List.mem_cons_self, rfl⟩
    · obtain ⟨b, hb, he⟩ := ht.meant.recorded a c hc
      exact ⟨b, List.mem_cons_of_mem _ hb, he⟩
  · -- the clause of the rule speaks of the support, which is true exactly when the body is
    rw [htrue, ht.meant.asserted, List.forall_mem_cons]
    constructor
    · rintro ⟨⟨hclauses, hdefined, hrules⟩, hnew⟩
      refine ⟨hclauses, hdefined, fun hsat => hnew ?_, hrules⟩
      exact (hsupport i hdefined).2 (Interpretation.satisfiesAll_canonical.2 hsat)
    · rintro ⟨hclauses, hdefined, hnew, hrules⟩
      refine ⟨⟨hclauses, hdefined, hrules⟩, fun hsat => hnew ?_⟩
      exact Interpretation.satisfiesAll_canonical.1 ((hsupport i hdefined).1 hsat)
  · -- the support recorded now stands for the new rule, and the others for the rules before
    have hdefined : (s.support body.canonical).2.rules.DefinedIn i := hi
    rw [exists_rule_cons, ← ht.meant.supports i hdefined, ← Interpretation.satisfiesAll_canonical,
      ← hsupport i hdefined]
    constructor
    · rintro ⟨l, hl, hsat⟩
      rcases Rules.mem_supportsOf_record.1 hl with hl | ⟨e, rfl⟩
      · exact Or.inl ⟨l, hl, hsat⟩
      · exact Or.inr ⟨e, hsat⟩
    · rintro (⟨l, hl, hsat⟩ | ⟨e, hsat⟩)
      · exact ⟨l, Rules.mem_supportsOf_record.2 (Or.inl hl), hsat⟩
      · exact ⟨_, Rules.mem_supportsOf_record.2 (Or.inr ⟨e, rfl⟩), hsat⟩

/-- A rule over known atoms that is no tautology is kept as what it says, whether it is new or
not. -/
theorem Faithful.addRule (h : Faithful s k) {head : Atom} {body : Clause} (hhead : k.Knows head)
    (hbody : ∀ l ∈ body, k.Knows l.atom) (hclash : ∀ l ∈ body, l.negate ∉ body) :
    Faithful (s.storeRule head body).2 { k with rules := (head, body) :: k.rules } := by
  rcases storeRule_cases head body s with ⟨hc, -⟩ | ⟨hrecorded, hs⟩ | ⟨-, -, hs⟩
  · -- the solver drops such a rule, and no caller gives one
    obtain ⟨l, hl, hn⟩ := Clause.clashes_canonical_iff.1 hc
    exact absurd hn (hclash l hl)
  · rw [hs]
    exact h.repeatRule hhead hbody hrecorded
  · rw [hs]
    exact h.recordRule hhead hbody

/-- **What a solver stores is what it was told.** -/
theorem Told.faithful (h : Told s k) : Faithful s k := by
  induction h with
  | start config source => exact faithful_start config source
  | freshAtom hs name ih => exact ih.freshAtom name
  | @addClause _ t _ hs c _ hc hok ih =>
    -- what was told went through, so the outcome is that of storing
    obtain ⟨-, hstore⟩ := (after_addClause _ _).of_ok hok
    have ht : t = (Solver.store c _).2 := congrArg Prod.snd hstore
    rw [ht]
    exact ih.addClause hc
  | @addRule _ t _ hs head body _ hhead hbody hclash hok ih =>
    obtain ⟨-, -, -, hstore⟩ := (after_addRule _ _ _).of_ok hok
    have ht : t = (Solver.storeRule head body _).2 := congrArg Prod.snd hstore
    rw [ht]
    exact ih.addRule hhead hbody hclash
  | addHead hs hhead hok ih =>
    obtain ⟨-, hstore⟩ := (after_addHead _ _).of_ok hok
    rw [hstore]
    exact ih.addHead hhead

end Solver

end Storyworld
