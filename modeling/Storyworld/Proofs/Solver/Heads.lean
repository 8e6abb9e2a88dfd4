import Storyworld.Proofs.Solver.Supports

namespace Storyworld

/-!
# What asserting a rule says of its head

A head is true in a model exactly when a body asserted for it is, in every solver that can be
reached, whatever was asserted, refused or asked in between (`Noted.head_iff`). So an atom that is a
head is false where none of its bodies holds.

The crux is which atoms are heads. A rule makes its head one, unless its body holds a literal
together with its negation. Such a rule goes through as well, but nothing is kept of it
(`Noted.addRule_declares`), and if the head has not been declared otherwise then a model may make
it true for no reason at all (`undeclared_contradiction`).
-/

namespace Solver

open Action

variable {ρ : Type} {s t : Solver ρ} {k : Account} {i : Interpretation} {head : Nat}
  {body : Clause} {h : Nat}

/-! ### Accounts of arbitrary moves -/

/-- The body holds a literal together with its negation, so it is never true. -/
def Contradictory (body : Clause) : Prop := ∃ l ∈ body, l.negate ∈ body

instance (body : Clause) : Decidable (Contradictory body) :=
  inferInstanceAs (Decidable (∃ l ∈ body, _))

/-- The canonical form of a body clashes exactly when the body is contradictory. -/
theorem clashes_eq_false_iff : body.canonical.clashes = false ↔ ¬ Contradictory body := by
  rw [Contradictory, ← Clause.clashes_canonical_iff, Bool.not_eq_true]

theorem Contradictory.not_satisfiesAll (h : Contradictory body) : ¬ i.SatisfiesAll body := by
  intro hall
  obtain ⟨l, hl, hn⟩ := h
  exact Interpretation.satisfies_negate.1 (hall _ hn) (hall l hl)

/-- Declared to be a head, or the head of a rule whose body is not contradictory. -/
def Account.Declares (k : Account) (h : Nat) : Prop :=
  h ∈ k.heads ∨ ∃ body, (h, body) ∈ k.rules ∧ ¬ Contradictory body

/-- What is added to an account by a move: what was made or asserted, unless it was refused. Bounds
are not part of an account. -/
def Account.note (k : Account) (s : Solver ρ) : Move → Account
  | .freshAtom name => { k with atoms := (s.freshAtom name).1 :: k.atoms }
  | .addClause c =>
    if (value? (addClause c) s).isSome then { k with clauses := c :: k.clauses } else k
  | .addRule head body =>
    if (value? (addRule head body) s).isSome then { k with rules := (head, body) :: k.rules } else k
  | .addHead head =>
    if (value? (addHead head) s).isSome then { k with heads := head :: k.heads } else k
  | _ => k

/-- The solver comes from a new one by moves, of which the account has been kept. -/
inductive Noted [RandomSource ρ] : Solver ρ → Account → Prop where
  | start (config : Config) (source : ρ) : Noted (ofConfig config source) {}
  | move {s : Solver ρ} {k : Account} (hs : Noted s k) (m : Move) :
    Noted (m.perform s) (k.note s m)

/-- Of every solver that can be reached an account can be kept. -/
theorem Reachable.noted [RandomSource ρ] (hs : s.Reachable) : ∃ k, Noted s k := by
  induction hs with
  | start config source => exact ⟨{}, .start config source⟩
  | move _ m ih =>
    obtain ⟨k, hk⟩ := ih
    exact ⟨_, hk.move m⟩

/-! ### What is stored of rules -/

/-- The rules that are stored mean those of the account. Of a rule with a contradictory body nothing
is stored. -/
structure Recounted (s : Solver ρ) (k : Account) : Prop where
  defined : ∀ i, s.TrueIn i → s.rules.DefinedIn i
  heads : ∀ h, h ∈ s.rules.supports ↔ k.Declares h
  recorded : ∀ h body, (h, body) ∈ s.rules.recorded →
    ∃ b, (h, b) ∈ k.rules ∧ ¬ Contradictory b ∧ b.canonical = body
  implied : ∀ h body, (h, body) ∈ k.rules → ∀ i, s.TrueIn i → i.SatisfiesAll body → i h = true
  supported : ∀ h, ∀ l ∈ s.rules.supportsOf h, ∃ body, (h, body) ∈ k.rules ∧
    ∀ i, s.TrueIn i → i.Satisfies l → i.SatisfiesAll body

/-- In a model a head is true exactly when a body asserted for it is. -/
theorem Recounted.head_iff (hs : Recounted s k) (hi : i.IsModel s.formula) (hh : k.Declares h) :
    i h = true ↔ ∃ body, (h, body) ∈ k.rules ∧ i.SatisfiesAll body := by
  obtain ⟨-, htrue, hheads⟩ := isModel_formula.1 hi
  constructor
  · intro hval
    obtain ⟨l, hl, hsat⟩ := hheads h ((hs.heads h).2 hh) hval
    obtain ⟨body, hbody, hmeans⟩ := hs.supported h l hl
    exact ⟨body, hbody, hmeans i htrue hsat⟩
  · rintro ⟨body, hbody, hsat⟩
    exact hs.implied h body hbody i htrue hsat

theorem recounted_ofConfig (config : Config) (source : ρ) :
    Recounted (ofConfig config source) {} where
  defined := by
    intro i _ d hd
    cases hd
  heads := by
    intro h
    refine ⟨fun hh => absurd hh Std.TreeMap.not_mem_emptyc, ?_⟩
    rintro (hh | ⟨body, hbody, -⟩)
    · cases hh
    · cases hbody
  recorded := by
    intro h body hbody
    cases hbody
  implied := by
    intro h body hbody
    cases hbody
  supported := by
    intro h l hl
    rw [supportsOf_ofConfig] at hl
    cases hl

/-- More clauses may be asserted, as long as the rules stay. -/
theorem Recounted.of_rules {k' : Account} (hs : Recounted s k) (hrules : t.rules = s.rules)
    (htrue : ∀ i, t.TrueIn i → s.TrueIn i) (hheads : k'.heads = k.heads)
    (hasserted : k'.rules = k.rules) : Recounted t k' := by
  -- only clauses may have been added, and the rules are what the account speaks of
  have hdeclares : ∀ h, k'.Declares h ↔ k.Declares h := fun h => by
    rw [Account.Declares, Account.Declares, hheads, hasserted]
  refine ⟨fun i hi => ?_, fun h => ?_, fun h body hbody => ?_, fun h body hbody i hi => ?_,
    fun h l hl => ?_⟩
  · rw [hrules]
    exact hs.defined i (htrue i hi)
  · rw [hrules, hdeclares]
    exact hs.heads h
  · rw [hasserted]
    exact hs.recorded h body (hrules ▸ hbody)
  · exact hs.implied h body (hasserted ▸ hbody) i (htrue i hi)
  · obtain ⟨body, hbody, hmeans⟩ := hs.supported h l (hrules ▸ hl)
    exact ⟨body, hasserted ▸ hbody, fun i hi => hmeans i (htrue i hi)⟩

theorem preserves_recounted_addClause (c : Clause) :
    Preserves (Recounted · k) (addClause (ρ := ρ) c) := by
  intro s hs
  refine (after_addClause c s).mono (fun stored t h => ?_) fun _ _ h => h.1 ▸ hs
  obtain rfl : t = (s.store c).2 := congrArg Prod.snd h.2
  obtain ⟨clauses, status, hframe, -⟩ := store_frame c s
  refine hs.of_rules (by rw [hframe]) (fun i hi => ?_) rfl rfl
  exact ((trueIn_store c).1 hi).1

theorem preserves_recounted_addAtMost (bound : Nat) (ls : List Literal) :
    Preserves (Recounted · k) (addAtMost (ρ := ρ) bound ls) :=
  preserves_addAtMost_of (fun _ hs => hs.of_rules rfl (fun _ hi => hi) rfl rfl)
    preserves_recounted_addClause bound ls

theorem Recounted.freshAtom {k' : Account} (hs : Recounted s k) (name : Option Proposition)
    (hheads : k'.heads = k.heads) (hasserted : k'.rules = k.rules) :
    Recounted (s.freshAtom name).2 k' := by
  have hframe : (s.freshAtom name).2.rules = s.rules ∧
      (s.freshAtom name).2.clauses = s.clauses := by
    cases name with
    | none => exact ⟨rfl, rfl⟩
    | some p =>
      unfold Solver.freshAtom proposition
      dsimp only
      split <;> exact ⟨rfl, rfl⟩
  refine hs.of_rules hframe.1 (fun i hi => ?_) hheads hasserted
  rwa [TrueIn, hframe.2] at hi

theorem SameConstraints.recounted (hs : Recounted s k) (hst : SameConstraints s t) :
    Recounted t k :=
  hs.of_rules hst.rules (fun _ hi c hc => hi c (hst.asserted ▸ hc)) rfl rfl

/-- A head that is declared is a head from then on. -/
theorem Recounted.addHead (hs : Recounted s k) (head : Nat) :
    Recounted { s with rules := s.rules.declareHead head, status := .stale }
      { k with heads := head :: k.heads } where
  defined := hs.defined
  heads := by
    intro h
    show h ∈ (s.rules.declareHead head).supports ↔ h ∈ head :: k.heads ∨ _
    rw [Rules.mem_supports_declareHead, hs.heads, List.mem_cons, or_assoc]
    rfl
  recorded := hs.recorded
  implied := hs.implied
  supported := by
    intro h l hl
    have hl : l ∈ (s.rules.declareHead head).supportsOf h := hl
    rw [Rules.supportsOf_declareHead] at hl
    exact hs.supported h l hl

/-! ### A rule that is recorded -/

/-- The support of a body is true exactly when the body is, and so is each atom that stands for a
body. -/
theorem Recounted.after_support (hs : Recounted s k) (body : Clause)
    (hi : (s.support body).2.TrueIn i) :
    (s.support body).2.rules.DefinedIn i ∧
      (i.Satisfies (s.support body).1 ↔ i.SatisfiesAll body) := by
  have hdefined := hs.defined i ((support_keeps body s).2.2 i hi)
  rcases support_cases body s with ⟨l, rfl, h⟩ | ⟨a, ha, h⟩ | ⟨-, h⟩
  · rw [h]
    exact ⟨hdefined, Interpretation.satisfiesAll_singleton.symm⟩
  · rw [h]
    exact ⟨hdefined, hdefined _ ha⟩
  · rw [h] at hi ⊢
    -- the clauses of the definition were stored with it, so it holds
    obtain ⟨-, hnew⟩ := (trueIn_defineBody body).1 hi
    obtain ⟨clauses, hframe⟩ := defineBody_frame body s
    rw [hframe]
    exact ⟨List.forall_mem_cons.2 ⟨hnew, hdefined⟩, hnew⟩

theorem declares_cons : ({ k with rules := (head, body) :: k.rules } : Account).Declares h ↔
    h = head ∧ ¬ Contradictory body ∨ k.Declares h := by
  unfold Account.Declares
  simp only [List.mem_cons, Prod.mk.injEq]
  constructor
  · rintro (hh | ⟨b, ⟨rfl, rfl⟩ | hb, hfine⟩)
    · exact Or.inr (Or.inl hh)
    · exact Or.inl ⟨rfl, hfine⟩
    · exact Or.inr (Or.inr ⟨b, hb, hfine⟩)
  · rintro (⟨rfl, hfine⟩ | hh | ⟨b, hb, hfine⟩)
    · exact Or.inr ⟨body, Or.inl ⟨rfl, rfl⟩, hfine⟩
    · exact Or.inl hh
    · exact Or.inr ⟨b, Or.inr hb, hfine⟩

/-- A rule that says nothing new of the asserted clauses, nor adds a head. -/
theorem Recounted.repeatRule (hs : Recounted s k) (hdeclares : Contradictory body ∨ k.Declares head)
    (himplied : ∀ i, s.TrueIn i → i.SatisfiesAll body → i head = true) :
    Recounted s { k with rules := (head, body) :: k.rules } where
  defined := hs.defined
  heads := by
    intro h
    rw [hs.heads, declares_cons]
    refine (or_iff_right_of_imp ?_).symm
    rintro ⟨rfl, hfine⟩
    -- a rule that says nothing new declares no head that was not one
    exact hdeclares.resolve_left hfine
  recorded := by
    intro h c hc
    obtain ⟨b, hb, hrest⟩ := hs.recorded h c hc
    exact ⟨b, List.mem_cons_of_mem _ hb, hrest⟩
  implied := by
    intro h c hc
    rcases List.mem_cons.1 hc with e | hc
    · obtain ⟨rfl, rfl⟩ := Prod.mk.inj e
      exact himplied
    · exact hs.implied h c hc
  supported := by
    intro h l hl
    obtain ⟨b, hb, hmeans⟩ := hs.supported h l hl
    exact ⟨b, List.mem_cons_of_mem _ hb, hmeans⟩

/-- A rule that is recorded implies its head, and supports it. -/
theorem Recounted.recordRule (hs : Recounted s k) (hfine : ¬ Contradictory body) :
    Recounted (recordRule head body.canonical s) { k with rules := (head, body) :: k.rules } := by
  obtain ⟨hsupports, hrecorded, htrue⟩ := support_keeps body.canonical s
  -- the rules are those of the support with the new one recorded
  have hrules := recordRule_rules head body.canonical s
  have hclause : ∀ i, (Solver.recordRule head body.canonical s).TrueIn i → s.TrueIn i ∧
      (s.support body.canonical).2.rules.DefinedIn i ∧
      (i.Satisfies (s.support body.canonical).1 ↔ i.SatisfiesAll body) ∧
      (i.SatisfiesAll body → i head = true) := by
    intro i hi
    obtain ⟨hi, hhead⟩ := (trueIn_recordRule head body.canonical).1 hi
    obtain ⟨hdefined, hiff⟩ := hs.after_support body.canonical hi
    rw [Interpretation.satisfiesAll_canonical] at hiff
    exact ⟨htrue i hi, hdefined, hiff, fun hsat => hhead (hiff.2 hsat)⟩
  refine ⟨fun i hi => ?_, fun h => ?_, fun h c hc => ?_, fun h c hc i hi => ?_, fun h l hl => ?_⟩
  · rw [hrules]
    exact (hclause i hi).2.1
  · rw [hrules, Rules.mem_supports_record, hsupports, hs.heads, declares_cons]
    simp [hfine]
  · rw [hrules, Rules.mem_recorded_record, hrecorded] at hc
    rcases hc with e | hc
    · obtain ⟨rfl, rfl⟩ := Prod.mk.inj e
      exact ⟨body, List.mem_cons_self, hfine, rfl⟩
    · obtain ⟨b, hb, hrest⟩ := hs.recorded h c hc
      exact ⟨b, List.mem_cons_of_mem _ hb, hrest⟩
  · rcases List.mem_cons.1 hc with e | hc
    · obtain ⟨rfl, rfl⟩ := Prod.mk.inj e
      exact (hclause i hi).2.2.2
    · exact hs.implied h c hc i (hclause i hi).1
  · rcases mem_supportsOf_recordRule.1 hl with hl | ⟨rfl, rfl⟩
    · obtain ⟨b, hb, hmeans⟩ := hs.supported h l hl
      exact ⟨b, List.mem_cons_of_mem _ hb, fun i hi => hmeans i (hclause i hi).1⟩
    · exact ⟨body, List.mem_cons_self, fun i hi => (hclause i hi).2.2.1.1⟩

/-- A rule that is stored is recorded, unless its body is contradictory. -/
theorem Recounted.storeRule (hs : Recounted s k) (head : Nat) (body : Clause) :
    Recounted (s.storeRule head body).2 { k with rules := (head, body) :: k.rules } := by
  rcases storeRule_cases head body s with ⟨hclash, h⟩ | ⟨hrecorded, h⟩ | ⟨hclash, -, h⟩
  · rw [h]
    have hbody : Contradictory body := Clause.clashes_canonical_iff.1 hclash
    exact hs.repeatRule (Or.inl hbody) fun i _ hsat => absurd hsat hbody.not_satisfiesAll
  · rw [h]
    -- an equal body was asserted for the head before
    obtain ⟨b, hb, hfine, hcanonical⟩ := hs.recorded _ _ hrecorded
    refine hs.repeatRule (Or.inr (Or.inr ⟨b, hb, hfine⟩)) fun i hi hsat => ?_
    refine hs.implied head b hb i hi ?_
    rwa [← Interpretation.satisfiesAll_canonical, hcanonical,
      Interpretation.satisfiesAll_canonical]
  · rw [h]
    exact hs.recordRule (clashes_eq_false_iff.1 hclash)

/-! ### Every run -/

section Runs

variable [RandomSource ρ]

omit [RandomSource ρ] in
/-- What may be refused is noted if it went through. -/
theorem recounted_of_after {α : Type} {act : EStateM Error (Solver ρ) α} {k' : Account}
    (h : After act s (fun _ t => Recounted t k') fun _ t => Recounted t k) :
    Recounted (stateAfter act s) (if (value? act s).isSome then k' else k) := by
  unfold After at h
  unfold stateAfter value?
  cases hact : act s with
  | ok a t =>
    rw [hact] at h
    exact h
  | error e t =>
    rw [hact] at h
    exact h

/-- Every move keeps account of the rules. -/
theorem Recounted.perform (hs : Recounted s k) (m : Move) :
    Recounted (m.perform s) (k.note s m) := by
  cases m with
  | freshAtom name => exact hs.freshAtom name rfl rfl
  | addClause c =>
    refine recounted_of_after ((preserves_recounted_addClause c s hs).imp_done fun _ t ht => ?_)
    exact ht.of_rules rfl (fun _ hi => hi) rfl rfl
  | addRule head body =>
    refine recounted_of_after ((after_addRule head body s).mono (fun stored t h => ?_)
      fun _ _ h => h.1 ▸ hs)
    -- a rule that is refused is not noted, so this is the one that went through
    obtain rfl : t = (s.storeRule head body).2 := congrArg Prod.snd h.2.2.2
    exact hs.storeRule head body
  | addHead head =>
    refine recounted_of_after ((after_addHead head s).mono (fun _ t h => ?_) fun _ _ h => h.1 ▸ hs)
    rw [h.2]
    exact hs.addHead head
  | addAtMost bound ls => exact (preserves_recounted_addAtMost bound ls).stateAfter hs
  | force l => exact (sameConstraints_perform rfl s).recounted hs
  | reset => exact (sameConstraints_perform rfl s).recounted hs
  | fixedValue a => exact (sameConstraints_perform rfl s).recounted hs
  | solve optimize => exact (sameConstraints_perform rfl s).recounted hs

/-- Whatever was noted, what the rules say is what was asserted. -/
theorem Noted.recounted (hs : Noted s k) : Recounted s k := by
  induction hs with
  | start config source => exact recounted_ofConfig config source
  | move _ m ih => exact ih.perform m

/-- **A head is true exactly when a body asserted for it is**, in every model of every solver that
can be reached. -/
theorem Noted.head_iff (hs : Noted s k) (hi : i.IsModel s.formula) (hh : k.Declares h) :
    i h = true ↔ ∃ body, (h, body) ∈ k.rules ∧ i.SatisfiesAll body :=
  hs.recounted.head_iff hi hh

/-- **A rule declares its head, unless its body is contradictory.** Over the atoms there are a rule
goes through. If its body is not contradictory, or the head was declared before, then the head is
false in every model in which no body asserted for it holds. If the body is contradictory, nothing
changes. -/
theorem Noted.addRule_declares (hs : Noted s k) (hhead : head < s.atoms.count) (hne : body ≠ [])
    (hbody : ∀ l ∈ body, l.atom < s.atoms.count) :
    ∃ stored t, addRule head body s = .ok stored t ∧
      (¬ Contradictory body ∨ k.Declares head → ∀ i : Interpretation, i.IsModel t.formula →
        (∀ b, (head, b) ∈ (head, body) :: k.rules → ¬ i.SatisfiesAll b) → i head = false) ∧
      (Contradictory body → stored = .tautology ∧ t = s) := by
  have hgoes : After (addRule head body) s (fun stored t => (stored, t) = s.storeRule head body)
      fun _ _ => False := by
    refine (after_addRule head body s).mono (fun _ _ h => h.2.2.2) ?_
    rintro e t ⟨-, ⟨hnil, -⟩ | ⟨l, hl, hge, -⟩⟩
    · exact hne hnil
    · rcases List.mem_cons.1 hl with rfl | hl
      · exact Nat.not_le_of_lt hhead hge
      · exact Nat.not_le_of_lt (hbody l hl) hge
  obtain ⟨stored, t, hok, hstore⟩ := hgoes.exists_ok
  refine ⟨stored, t, hok, fun hdeclares i hi hnone => ?_, fun hbody => ?_⟩
  · have ht : Recounted t { k with rules := (head, body) :: k.rules } := by
      obtain rfl : t = (s.storeRule head body).2 := congrArg Prod.snd hstore
      exact hs.recounted.storeRule head body
    have hhead := ht.head_iff hi (declares_cons.2 (hdeclares.imp_left fun hfine => ⟨rfl, hfine⟩))
    refine Bool.eq_false_iff.2 fun htrue => ?_
    obtain ⟨b, hb, hsat⟩ := hhead.1 htrue
    exact hnone b hb hsat
  · rcases storeRule_cases head body s with ⟨-, h⟩ | ⟨hrecorded, -⟩ | ⟨hclash, -, -⟩
    · rw [h] at hstore
      exact Prod.mk.inj hstore
    · -- a body that is recorded is not contradictory
      obtain ⟨b, -, hfine, hcanonical⟩ := hs.recounted.recorded _ _ hrecorded
      rw [← clashes_eq_false_iff, hcanonical, clashes_eq_false_iff] at hfine
      exact absurd hbody hfine
    · exact absurd hbody (clashes_eq_false_iff.1 hclash)

end Runs

/-- A rule for the first of two atoms, in a solver in which nothing was asserted yet. -/
theorem addRule_declares_implication :
    let s : Solver Pcg := [Move.freshAtom none, .freshAtom none].foldl (fun s m => m.perform s)
      (ofConfig {} (Pcg.ofSeed 0))
    let k : Account := { atoms := [2, 1] }
    Noted s k ∧ 1 < s.atoms.count ∧ [Literal.pos 2] ≠ [] ∧
      (∀ l ∈ [Literal.pos 2], l.atom < s.atoms.count) ∧
      ∃ stored t, addRule 1 [Literal.pos 2] s = .ok stored t ∧
        (¬ Contradictory [Literal.pos 2] ∨ k.Declares 1 →
          ∀ i : Interpretation, i.IsModel t.formula →
            (∀ b, (1, b) ∈ (1, [Literal.pos 2]) :: k.rules → ¬ i.SatisfiesAll b) → i 1 = false) ∧
        (Contradictory [Literal.pos 2] → stored = .tautology ∧ t = s) := by
  intro s k
  have hs : Noted s k :=
    ((Noted.start {} (Pcg.ofSeed 0)).move (.freshAtom none)).move (.freshAtom none)
  have hhead : 1 < s.atoms.count := by decide
  have hbody : ∀ l ∈ [Literal.pos 2], l.atom < s.atoms.count := by decide
  exact ⟨hs, hhead, by decide, hbody, hs.addRule_declares hhead (by decide) hbody⟩

/-- The only rule for the first of two atoms has a contradictory body. It goes through, and yet there
is a model in which the head is true, although its body cannot hold. -/
theorem undeclared_contradiction :
    ¬ ∀ (s : Solver Pcg) (k : Account) (head : Nat) (body : Clause) (stored : Stored)
      (t : Solver Pcg), Noted s k → head < s.atoms.count → head ≠ Atom.top → body ≠ [] →
      (∀ l ∈ body, l.atom < s.atoms.count) → addRule head body s = .ok stored t →
      ∀ i : Interpretation, i.IsModel t.formula →
        (∀ b, (head, b) ∈ (head, body) :: k.rules → ¬ i.SatisfiesAll b) → i head = false := by
  intro hall
  let s : Solver Pcg := [Move.freshAtom none, .freshAtom none].foldl (fun s m => m.perform s)
    (ofConfig {} (Pcg.ofSeed 0))
  let k : Account := { atoms := [2, 1] }
  let body : Clause := [Literal.pos 2, Literal.neg 2]
  have hs : Noted s k :=
    ((Noted.start {} (Pcg.ofSeed 0)).move (.freshAtom none)).move (.freshAtom none)
  -- the only rule for `1` has a body that never holds, and still there is a model with `1` true
  have hcontradictory : Contradictory body := by decide
  have hmodel : Interpretation.IsModel (fun _ => true) s.formula := by
    refine ⟨rfl, fun c hc => ?_⟩
    rw [show s.formula = [] by decide] at hc
    cases hc
  have hfalse := hall s k 1 body .tautology s hs (by decide) (by decide) (by decide) (by decide)
    rfl (fun _ => true) hmodel fun b hb => ?_
  · cases hfalse
  · rcases List.mem_cons.1 hb with e | hb
    · rw [(Prod.mk.inj e).2]
      exact hcontradictory.not_satisfiesAll
    · cases hb

end Solver

end Storyworld
