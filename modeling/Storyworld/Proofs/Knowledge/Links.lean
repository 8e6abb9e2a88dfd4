import Storyworld.Knowledge.Base
import Storyworld.Proofs.Solver.Account

namespace Storyworld

/-!
# Links between atoms

What a call tells the solver are links: each relates the atom of a call to that of a more
general one, in the way of a relation. The rules of an existential are strong links to its atom,
which is declared to be a head beforehand. `Link.account` is the account of a list of links, and
`Link.isMetBy_account` says what it asks of an interpretation.
-/

/-- Two atoms, and how the specific one bears on the general one. -/
structure Link where
  kind : RelationKind
  specific : Nat
  general : Nat

namespace Link

open Action Solver

variable {ρ : Type} {s : Solver ρ} {atoms heads : List Nat} {links : List Link}
  {i : Interpretation}

/-- What is asserted for the link. -/
def constraint (l : Link) : Constraint :=
  match l.kind with
  | .generalization => .implication (Literal.pos l.specific) (Literal.pos l.general)
  | .strong => .rule l.general [Literal.pos l.specific]
  | .negative => .clause [(Literal.pos l.specific).negate, (Literal.pos l.general).negate]

/-- The clause of the link, unless it is a rule. -/
def clause? (l : Link) : Option Clause :=
  match l.kind with
  | .generalization => some [(Literal.pos l.specific).negate, Literal.pos l.general]
  | .strong => none
  | .negative => some [(Literal.pos l.specific).negate, (Literal.pos l.general).negate]

/-- The rule of the link, if it is one. -/
def rule? (l : Link) : Option (Nat × Clause) :=
  match l.kind with
  | .strong => some (l.general, [Literal.pos l.specific])
  | _ => none

/-- The account of links between atoms. Some atoms are heads beside those of strong links. -/
def account (atoms heads : List Nat) (links : List Link) : Account :=
  { atoms, heads, clauses := links.filterMap clause?, rules := links.filterMap rule? }

/-- Some strong link to the atom has a specific atom that is true. -/
def Reason (links : List Link) (i : Interpretation) (b : Atom) : Prop :=
  ∃ m ∈ links, m.kind = .strong ∧ m.general = b ∧ i m.specific = true

/-- What the link says beside other links. A strong one says that the general atom is true exactly
when the specific atom of some strong link to it is. -/
def SaysIn (links : List Link) (i : Interpretation) (l : Link) : Prop :=
  match l.kind with
  | .generalization => i l.specific = true → i l.general = true
  | .strong => i l.general = true ↔ Reason links i l.general
  | .negative => ¬ (i l.specific = true ∧ i l.general = true)

theorem saysIn_generalization {l : Link} (h : l.kind = .generalization) :
    l.SaysIn links i ↔ (i l.specific = true → i l.general = true) := by
  unfold SaysIn
  rw [h]

/-- A strong link says that what is general is true exactly if it has a reason. -/
theorem saysIn_strong {l : Link} (h : l.kind = .strong) :
    l.SaysIn links i ↔ (i l.general = true ↔ Reason links i l.general) := by
  unfold SaysIn
  rw [h]

theorem saysIn_negative {l : Link} (h : l.kind = .negative) :
    l.SaysIn links i ↔ ¬ (i l.specific = true ∧ i l.general = true) := by
  unfold SaysIn
  rw [h]

/-! ### Telling the solver -/

/-- A rule whose body is one literal makes no atom. -/
theorem atoms_storeRule_singleton (s : Solver ρ) (head : Atom) (l : Literal) :
    (s.storeRule head [l]).2.atoms = s.atoms := by
  rcases storeRule_cases head [l] s with ⟨-, h⟩ | ⟨-, h⟩ | ⟨-, -, h⟩
  · rw [h]
  · rw [h]
  · have hcanonical : Clause.canonical [l] = [l] := rfl
    rw [h, hcanonical]
    obtain ⟨clauses, status, hstore, -⟩ := store_frame [l.negate, Literal.pos head] s
    show (s.store [l.negate, Literal.pos head]).2.atoms = s.atoms
    rw [hstore]

theorem after_addClause_told {k : Account} (hs : Told s k) {c : Clause}
    (hc : ∀ l ∈ c, k.Knows l.atom) :
    After (addClause c) s
      (fun _ t => Told t { k with clauses := c :: k.clauses } ∧ t.atoms = s.atoms)
      (fun _ _ => True) := by
  refine (after_addClause c s).eq_ok.mono (fun stored t ⟨hok, hstored⟩ => ?_) fun _ _ _ => trivial
  refine ⟨hs.addClause hc hok, ?_⟩
  obtain ⟨clauses, status, hframe, -⟩ := store_frame c s
  rw [← hstored.2] at hframe
  rw [show t = _ from hframe]

/-- A rule with one condition is told as it stands. -/
theorem after_addRule_told {k : Account} (hs : Told s k) {head : Atom} {l : Literal}
    (hhead : k.Knows head) (hl : k.Knows l.atom) :
    After (addRule head [l]) s
      (fun _ t => Told t { k with rules := (head, [l]) :: k.rules } ∧ t.atoms = s.atoms)
      (fun _ _ => True) := by
  refine (after_addRule head [l] s).eq_ok.mono (fun stored t ⟨hok, hstored⟩ => ?_)
    fun _ _ _ => trivial
  -- a single literal does not clash with itself
  have hclash : ∀ m ∈ [l], m.negate ∉ [l] := by
    intro m hm hn
    rw [List.mem_singleton.1 hm] at hn
    exact Literal.negate_ne l (List.mem_singleton.1 hn)
  refine ⟨hs.addRule hhead (List.forall_mem_singleton.2 hl) hclash hok, ?_⟩
  have hatoms := atoms_storeRule_singleton s head l
  rwa [← hstored.2.2.2] at hatoms

/-- What is asserted for a link is added to the account. -/
theorem after_assert (hs : Told s (account atoms heads links)) (l : Link)
    (hspecific : (account atoms heads links).Knows l.specific)
    (hgeneral : (account atoms heads links).Knows l.general) :
    After (Solver.assert l.constraint) s
      (fun _ t => Told t (account atoms heads (l :: links)) ∧ t.atoms = s.atoms)
      (fun _ _ => True) := by
  obtain ⟨kind, a, b⟩ := l
  -- both clauses are a pair of literals of the atoms that are linked
  have hpair : ∀ m : Literal, m.atom = b →
      ∀ n ∈ [(Literal.pos a).negate, m], (account atoms heads links).Knows n.atom := by
    intro m hm n hn
    rcases List.mem_cons.1 hn with rfl | hn
    · exact hspecific
    · rw [List.mem_singleton.1 hn, hm]
      exact hgeneral
  cases kind with
  | generalization =>
    exact after_bind.2 (after_addClause_told hs (hpair _ rfl))
  | strong =>
    exact after_bind.2 (after_addRule_told hs hgeneral hspecific)
  | negative =>
    exact after_bind.2 (after_addClause_told hs (hpair _ rfl))

/-! ### What an account of links asks for -/

theorem rule?_eq_some {l : Link} {r : Nat × Clause} :
    l.rule? = some r ↔ l.kind = .strong ∧ r = (l.general, [Literal.pos l.specific]) := by
  obtain ⟨kind, a, b⟩ := l
  cases kind <;> simp [rule?, eq_comm]

theorem mem_rules_account {r : Nat × Clause} : r ∈ (account atoms heads links).rules ↔
    ∃ l ∈ links, l.kind = .strong ∧ r = (l.general, [Literal.pos l.specific]) := by
  show r ∈ links.filterMap rule? ↔ _
  rw [List.mem_filterMap]
  exact exists_congr fun l => and_congr_right fun _ => rule?_eq_some

theorem isHead_account {b : Nat} : (account atoms heads links).IsHead b ↔
    b ∈ heads ∨ ∃ l ∈ links, l.kind = .strong ∧ l.general = b := by
  refine or_congr_right ⟨?_, ?_⟩
  · rintro ⟨body, hbody⟩
    obtain ⟨l, hl, hkind, hr⟩ := mem_rules_account.1 hbody
    exact ⟨l, hl, hkind, (congrArg Prod.fst hr).symm⟩
  · rintro ⟨l, hl, hkind, rfl⟩
    exact ⟨_, mem_rules_account.2 ⟨l, hl, hkind, rfl⟩⟩

theorem exists_rule_account {b : Nat} :
    (∃ body, (b, body) ∈ (account atoms heads links).rules ∧ i.SatisfiesAll body) ↔
      Reason links i b := by
  constructor
  · rintro ⟨body, hbody, hsat⟩
    obtain ⟨l, hl, hkind, hr⟩ := mem_rules_account.1 hbody
    obtain ⟨rfl, rfl⟩ := Prod.mk.inj hr
    exact ⟨l, hl, hkind, rfl, hsat _ List.mem_cons_self⟩
  · rintro ⟨l, hl, hkind, rfl, hsat⟩
    refine ⟨_, mem_rules_account.2 ⟨l, hl, hkind, rfl⟩, ?_⟩
    exact Interpretation.satisfiesAll_singleton.2 hsat

/-- The clauses of links are true exactly when the links that are no rules say something true. -/
theorem forall_clauses_account : (∀ c ∈ (account atoms heads links).clauses, i.IsTrue c) ↔
    ∀ l ∈ links, l.kind ≠ .strong → l.SaysIn links i := by
  -- strong links are rules and have no clause, the others have one clause each
  have hclause : ∀ l : Link, (∀ c, l.clause? = some c → i.IsTrue c) ↔
      (l.kind ≠ .strong → l.SaysIn links i) := by
    rintro ⟨kind, a, b⟩
    cases kind with
    | strong => simp [clause?]
    | generalization =>
      simp only [clause?, Option.some.injEq, forall_eq', Interpretation.isTrue_negate_pair]
      exact ⟨fun h _ => h, fun h => h (by decide)⟩
    | negative =>
      simp only [clause?, Option.some.injEq, forall_eq', Interpretation.isTrue_negate_pair,
        Interpretation.satisfies_negate]
      exact ⟨fun h _ hboth => h hboth.1 hboth.2, fun h ha hb => h (by decide) ⟨ha, hb⟩⟩
  show (∀ c ∈ links.filterMap clause?, i.IsTrue c) ↔ _
  constructor
  · intro h l hl
    exact (hclause l).1 fun c hc => h c (List.mem_filterMap.2 ⟨l, hl, hc⟩)
  · intro h c hc
    obtain ⟨l, hl, hlc⟩ := List.mem_filterMap.1 hc
    exact (hclause l).2 (h l hl) c hlc

/-- An account of links is met exactly when every link says something true, and the other heads are
true only for a reason. -/
theorem isMetBy_account : (account atoms heads links).IsMetBy i ↔
    (∀ l ∈ links, l.SaysIn links i) ∧ ∀ b ∈ heads, (i b = true ↔ Reason links i b) := by
  rw [Account.IsMetBy, forall_clauses_account]
  constructor
  · rintro ⟨hclauses, hheads⟩
    refine ⟨fun l hl => ?_, fun b hb => ?_⟩
    · by_cases hkind : l.kind = .strong
      · -- the strong links are the rules, and the others the clauses
        rw [saysIn_strong hkind,
          hheads l.general (isHead_account.2 (Or.inr ⟨l, hl, hkind, rfl⟩))]
        exact exists_rule_account
      · exact hclauses l hl hkind
    · rw [hheads b (isHead_account.2 (Or.inl hb))]
      exact exists_rule_account
  · rintro ⟨hlinks, hheads⟩
    refine ⟨fun l hl _ => hlinks l hl, fun head hhead => ?_⟩
    rw [exists_rule_account]
    rcases isHead_account.1 hhead with hhead | ⟨l, hl, hkind, rfl⟩
    · exact hheads head hhead
    · exact (saysIn_strong hkind).1 (hlinks l hl)

end Link

end Storyworld
