import Storyworld.Proofs.Solver.Completion
import Storyworld.Proofs.Solver.Question

namespace Storyworld

/-!
# What the supports of a head mean

In every solver that can be reached the asserted clauses say that a support implies its head, and
the completion clause of a head says that it has no other reason (`Backed.iff_of_isModel`). So
whoever knows the supports of a head knows its truth value. Two relations say how they change: what
is asserted about known atoms adds supports to one head at most (`Supported`), and what is done for
other purposes spares the heads with certain names (`Spares`).
-/

namespace Rules

/-- What is not a head has no supports. -/
theorem supportsOf_eq_nil {r : Rules} {h : Atom} (hh : h ∉ r.supports) : r.supportsOf h = [] := by
  rw [supportsOf, Std.TreeMap.getElem?_eq_none hh]
  rfl

/-- An atom that there is not yet has no supports. -/
theorem Over.supportsOf_eq_nil {r : Rules} {count : Nat} (hr : r.Over count) {h : Atom}
    (hh : count ≤ h) : r.supportsOf h = [] :=
  Rules.supportsOf_eq_nil fun hmem => Nat.not_lt_of_le hh (hr.heads h hmem)

end Rules

namespace Solver

open Action

variable {ρ : Type} {s t u : Solver ρ} {i : Interpretation} {h : Nat} {l : Literal}

/-- A support implies its head, and the body of a recorded rule is a support if it is a single
literal. -/
structure Backed (s : Solver ρ) : Prop where
  wellFormed : s.WellFormed
  implied : ∀ h, ∀ l ∈ s.rules.supportsOf h, ∀ i, s.TrueIn i → i.Satisfies l → i h = true
  recorded : ∀ h l, (h, [l]) ∈ s.rules.recorded → l ∈ s.rules.supportsOf h

/-- **A head is true exactly when one of its supports is.** -/
theorem Backed.iff_of_isModel (hs : s.Backed) (hh : h ∈ s.rules.supports)
    (hi : i.IsModel s.formula) : i h = true ↔ ∃ l ∈ s.rules.supportsOf h, i.Satisfies l := by
  obtain ⟨-, htrue, hheads⟩ := isModel_formula.1 hi
  exact ⟨hheads h hh, fun ⟨l, hl, hsat⟩ => hs.implied h l hl i htrue hsat⟩

/-- In a new solver nothing has supports. -/
theorem supportsOf_ofConfig (config : Config) (source : ρ) (h : Atom) :
    (ofConfig config source).rules.supportsOf h = [] :=
  Rules.supportsOf_eq_nil Std.TreeMap.not_mem_emptyc

theorem backed_ofConfig (config : Config) (source : ρ) : (ofConfig config source).Backed where
  wellFormed := wellFormed_ofConfig config source
  implied h l hl := by
    rw [supportsOf_ofConfig] at hl
    cases hl
  recorded h l hl := by cases hl

/-- More clauses may be asserted, as long as the rules stay. -/
theorem Backed.of_rules (hs : s.Backed) (ht : t.WellFormed)
    (hsupports : t.rules.supports = s.rules.supports)
    (hrecorded : t.rules.recorded = s.rules.recorded)
    (htrue : ∀ i, t.TrueIn i → s.TrueIn i) : t.Backed := by
  have hsame : ∀ h, t.rules.supportsOf h = s.rules.supportsOf h := fun h => by
    rw [Rules.supportsOf, Rules.supportsOf, hsupports]
  refine ⟨ht, fun h l hl i hi => ?_, fun h l hl => ?_⟩
  · exact hs.implied h l (hsame h ▸ hl) i (htrue i hi)
  · rw [hsame]
    exact hs.recorded h l (hrecorded ▸ hl)

/-! ### What is asserted about known atoms -/

/-- The atoms are the same, the heads stay heads, and the supports are those that there were and
`more`. -/
structure Supported (more : Atom → Literal → Prop) (s t : Solver ρ) : Prop where
  backed : t.Backed
  atoms : t.atoms = s.atoms
  heads : ∀ h ∈ s.rules.supports, h ∈ t.rules.supports
  mem_supportsOf : ∀ h l, l ∈ t.rules.supportsOf h ↔ l ∈ s.rules.supportsOf h ∨ more h l

variable {more more' : Atom → Literal → Prop}

/-- Nothing is added where nothing is done. -/
theorem Supported.refl (hs : s.Backed) : Supported (fun _ _ => False) s s :=
  ⟨hs, rfl, fun _ hh => hh, fun _ _ => (or_iff_left id).symm⟩

/-- What is added in two steps is what either of them adds. -/
theorem Supported.trans (hst : Supported more s t) (htu : Supported more' t u) :
    Supported (fun h l => more h l ∨ more' h l) s u where
  backed := htu.backed
  atoms := htu.atoms.trans hst.atoms
  heads h hh := htu.heads h (hst.heads h hh)
  mem_supportsOf h l := by rw [htu.mem_supportsOf, hst.mem_supportsOf, or_assoc]

/-- The supports that are added may be described in another way. -/
theorem Supported.congr (hst : Supported more s t) (hiff : ∀ h l, more h l ↔ more' h l) :
    Supported more' s t where
  backed := hst.backed
  atoms := hst.atoms
  heads := hst.heads
  mem_supportsOf h l := (hst.mem_supportsOf h l).trans (or_congr_right (hiff h l))

/-- A clause that is stored supports nothing. -/
theorem supported_store (hs : s.Backed) {c : Clause} (hc : ∀ l ∈ c, l.atom < s.atoms.count) :
    Supported (fun _ _ => False) s (s.store c).2 := by
  have htrue : ∀ i, (s.store c).2.TrueIn i → s.TrueIn i := fun i hi => ((trueIn_store c).1 hi).1
  have hwf := hs.wellFormed.store hc
  obtain ⟨clauses, status, hframe, -⟩ := store_frame c s
  rw [hframe] at htrue hwf ⊢
  exact ⟨hs.of_rules hwf rfl rfl htrue, rfl, fun _ hh => hh, fun _ _ => (or_iff_left id).symm⟩

/-- A clause about known atoms is not refused. -/
theorem after_addClause_known (hs : s.Backed) {c : Clause} (hc : ∀ l ∈ c, l.atom < s.atoms.count) :
    After (addClause c) s (fun _ t => Supported (fun _ _ => False) s t) fun _ _ => False := by
  refine (after_addClause c s).mono (fun stored t h => ?_) fun e t h => ?_
  · obtain rfl : t = (s.store c).2 := congrArg Prod.snd h.2
    exact supported_store hs hc
  · obtain ⟨l, hl, hge, -⟩ := h.2
    exact Nat.not_le_of_lt (hc l hl) hge

/-- To find a support for a body adds no support to a head. -/
theorem support_keeps (body : Clause) (s : Solver ρ) :
    (s.support body).2.rules.supports = s.rules.supports ∧
      (s.support body).2.rules.recorded = s.rules.recorded ∧
      ∀ i, (s.support body).2.TrueIn i → s.TrueIn i := by
  rcases support_cases body s with ⟨l, -, h⟩ | ⟨a, -, h⟩ | ⟨-, h⟩
  · rw [h]
    exact ⟨rfl, rfl, fun _ hi => hi⟩
  · rw [h]
    exact ⟨rfl, rfl, fun _ hi => hi⟩
  · -- the body is defined by clauses that are added to those there are
    have htrue : ∀ i, (defineBody body s).TrueIn i → s.TrueIn i :=
      fun i hi => ((trueIn_defineBody body).1 hi).1
    obtain ⟨clauses, hframe⟩ := defineBody_frame body s
    rw [h]
    refine ⟨?_, ?_, htrue⟩
    · rw [hframe]
      rfl
    · rw [hframe]
      rfl

/-- A rule is recorded with the support of its body. -/
theorem recordRule_rules (head : Atom) (body : Clause) (s : Solver ρ) :
    (recordRule head body s).rules =
      (s.support body).2.rules.record head body (s.support body).1 := by
  obtain ⟨clauses, hframe⟩ := recordRule_frame head body s
  rw [hframe]

/-- The support of its body is all that a rule adds to its head. -/
theorem mem_supportsOf_recordRule {head : Atom} {body : Clause} :
    l ∈ (recordRule head body s).rules.supportsOf h ↔
      l ∈ s.rules.supportsOf h ∨ head = h ∧ l = (s.support body).1 := by
  rw [recordRule_rules, Rules.mem_supportsOf_record, Rules.supportsOf,
    (support_keeps body s).1]
  rfl

/-- The clause that is stored with a rule says that its support implies the head. -/
theorem Backed.recordRule (hs : s.Backed) {head : Atom} {body : Clause}
    (hhead : head < s.atoms.count) (hbody : ∀ l ∈ body, l.atom < s.atoms.count) :
    (recordRule head body s).Backed where
  wellFormed := (hs.wellFormed.recordRule hhead hbody).1
  implied h l hl i hi := by
    obtain ⟨htrue, hnew⟩ := (trueIn_recordRule head body).1 hi
    rcases mem_supportsOf_recordRule.1 hl with hl | ⟨rfl, rfl⟩
    · exact hs.implied h l hl i ((support_keeps body s).2.2 i htrue)
    · exact hnew
  recorded h l hl := by
    rw [recordRule_rules, Rules.mem_recorded_record, (support_keeps body s).2.1] at hl
    rw [mem_supportsOf_recordRule]
    rcases hl with e | hl
    · -- a single literal is its own support
      obtain ⟨rfl, rfl⟩ := Prod.mk.inj e
      exact Or.inr ⟨rfl, rfl⟩
    · exact Or.inl (hs.recorded h l hl)

/-- A rule for known atoms whose body is one literal is not refused, and the literal is a support of
the head from then on. -/
theorem after_addRule_known (hs : s.Backed) {head : Nat} (hhead : head < s.atoms.count)
    (hl : l.atom < s.atoms.count) :
    After (addRule head [l]) s (fun _ t => Supported (fun h m => h = head ∧ m = l) s t)
      fun _ _ => False := by
  have hcanonical : Clause.canonical [l] = [l] := rfl
  refine (after_addRule head [l] s).mono (fun stored t h => ?_) fun e t h => ?_
  · obtain rfl : t = (s.storeRule head [l]).2 := congrArg Prod.snd h.2.2.2
    rcases storeRule_cases head [l] s with ⟨hclash, -⟩ | ⟨hrecorded, hst⟩ | ⟨-, -, hst⟩
    · -- a single literal does not clash with itself
      obtain ⟨m, hm, hn⟩ := Clause.clashes_canonical_iff.1 hclash
      rw [List.mem_singleton.1 hm] at hn
      exact absurd (List.mem_singleton.1 hn) (Literal.negate_ne l)
    · rw [hst]
      refine ⟨hs, rfl, fun _ hh => hh, fun h m => (or_iff_left_of_imp ?_).symm⟩
      rintro ⟨rfl, rfl⟩
      exact hs.recorded _ _ hrecorded
    · rw [hst, hcanonical]
      have hback := hs.recordRule hhead (List.forall_mem_singleton.2 hl)
      refine ⟨hback, ?_, fun h hh => ?_, fun h m => ?_⟩
      · obtain ⟨clauses, hframe⟩ := recordRule_frame head [l] s
        rw [hframe]
        rfl
      · rw [recordRule_rules]
        exact Rules.mem_supports_record.2 (Or.inr hh)
      · rw [mem_supportsOf_recordRule]
        exact or_congr_right (and_congr_left' eq_comm)
  · obtain ⟨-, hempty | ⟨m, hm, hge, -⟩⟩ := h
    · cases hempty.1
    · rcases List.mem_cons.1 hm with rfl | hm
      · exact Nat.not_le_of_lt hhead hge
      · rw [List.mem_singleton.1 hm] at hge
        exact Nat.not_le_of_lt hl hge

/-! ### What spares heads -/

/-- Names stay with their atoms, heads stay heads, and a head with a name of the kind keeps its
supports. -/
structure Spares (kind : Proposition → Prop) (s t : Solver ρ) : Prop where
  backed : t.Backed
  count : s.atoms.count ≤ t.atoms.count
  name? : ∀ a, a < s.atoms.count → t.atoms.name? a = s.atoms.name? a
  named? : ∀ p a, s.atoms.named? p = some a → t.atoms.named? p = some a
  heads : ∀ h ∈ s.rules.supports, h ∈ t.rules.supports
  supportsOf : ∀ h p, t.atoms.name? h = some p → kind p →
    t.rules.supportsOf h = s.rules.supportsOf h

variable {kind : Proposition → Prop}

/-- Where the atoms and the rules are the same, every head is spared. -/
theorem Spares.of_rules (ht : t.Backed) (hatoms : t.atoms = s.atoms)
    (hrules : t.rules = s.rules) : Spares kind s t := by
  refine ⟨ht, Nat.le_of_eq (by rw [hatoms]), fun _ _ => by rw [hatoms],
    fun _ _ hp => by rwa [hatoms],
    fun _ hh => by rwa [hrules], fun _ _ _ _ => by rw [hrules]⟩

theorem Spares.refl (hs : s.Backed) : Spares kind s s := Spares.of_rules hs rfl rfl

/-- What spares the heads in two steps spares them in one. -/
theorem Spares.trans (hst : Spares kind s t) (htu : Spares kind t u) (hs : s.Backed) :
    Spares kind s u where
  backed := htu.backed
  count := Nat.le_trans hst.count htu.count
  name? a ha := (htu.name? a (Nat.lt_of_lt_of_le ha hst.count)).trans (hst.name? a ha)
  named? p a ha := htu.named? p a (hst.named? p a ha)
  heads h hh := htu.heads h (hst.heads h hh)
  supportsOf h p hp hkind := by
    rw [htu.supportsOf h p hp hkind]
    rcases Nat.lt_or_ge h t.atoms.count with hlt | hge
    · exact hst.supportsOf h p ((htu.name? h hlt).symm.trans hp) hkind
    · -- an atom that was not there has no supports
      rw [hst.backed.wellFormed.rules.supportsOf_eq_nil hge,
        hs.wellFormed.rules.supportsOf_eq_nil (Nat.le_trans hst.count hge)]

/-- A new atom is neither a head nor a support. -/
theorem Backed.makeAtom (hs : s.Backed) (name : Option Proposition) :
    ({ (s.makeAtom name).2 with status := .stale } : Solver ρ).Backed :=
  hs.of_rules (hs.wellFormed.makeAtom name) rfl rfl fun _ hi => hi

/-- An atom is made for a name that leads to no atom yet. -/
theorem spares_makeAtom (hs : s.Backed) {name : Option Proposition}
    (hname : ∀ p, name = some p → s.atoms.named? p = none) :
    Spares kind s { (s.makeAtom name).2 with status := .stale } where
  backed := hs.makeAtom name
  count := by
    show s.atoms.count ≤ (s.atoms.fresh name).2.count
    rw [Atoms.count_fresh]
    exact Nat.le_succ _
  name? a ha := Atoms.name?_fresh_of_lt ha name
  named? p a ha := by
    cases name with
    | none => exact ha
    | some q =>
      -- the name was free, so it is none that had led to an atom
      have hne : q ≠ p := by
        rintro rfl
        rw [hname q rfl] at ha
        cases ha
      exact (Atoms.named?_fresh_some s.atoms q p).trans ((if_neg hne).trans ha)
  heads _ hh := hh
  supportsOf _ _ _ _ := rfl

/-- An atom that is asked for takes no support away. -/
theorem spares_freshAtom (hs : s.Backed) (name : Option Proposition) :
    Spares kind s (s.freshAtom name).2 := by
  cases name with
  | none => exact spares_makeAtom hs nofun
  | some p =>
    unfold freshAtom proposition
    dsimp only
    split
    · exact Spares.refl hs
    · rename_i hnone
      exact spares_makeAtom hs fun q hq => Option.some.inj hq ▸ hnone

/-- What spares heads where it is done once does so anywhere later. -/
theorem preserves_spares {α : Type} {act : EStateM Error (Solver ρ) α} (hs : s.Backed)
    (h : ∀ t, t.Backed → After act t (fun _ u => Spares kind t u) fun _ u => Spares kind t u) :
    Preserves (Spares kind s) act :=
  fun t ht => (h t ht.backed).mono (fun _ _ hu => ht.trans hu hs) fun _ _ hu => ht.trans hu hs

/-- A clause spares every head. -/
theorem preserves_spares_addClause (hs : s.Backed) (c : Clause) :
    Preserves (Spares kind s) (addClause c) := by
  refine preserves_spares hs fun t ht => (after_addClause c t).mono (fun stored u h => ?_)
    fun _ u h => ?_
  · obtain rfl : u = (t.store c).2 := congrArg Prod.snd h.2
    have hstored := supported_store ht h.1
    obtain ⟨clauses, status, hframe, -⟩ := store_frame c t
    exact Spares.of_rules hstored.backed hstored.atoms (by rw [hframe])
  · rw [h.1]
    exact Spares.refl ht

/-- A bound spares every head: its registers are neither heads nor supports. -/
theorem preserves_spares_addAtMost (hs : s.Backed) (bound : Nat) (ls : List Literal) :
    Preserves (Spares kind s) (addAtMost bound ls) :=
  preserves_addAtMost_of (fun _ ht => ht.trans (spares_freshAtom ht.backed none) hs)
    (preserves_spares_addClause hs) bound ls

/-- Questions leave rules and clauses as they are. -/
theorem SameConstraints.spares (hs : s.Backed) (hst : SameConstraints s t) (ht : t.WellFormed) :
    Spares kind s t := by
  have htrue : ∀ i, t.TrueIn i → s.TrueIn i := fun i hi c hc => hi c (hst.asserted ▸ hc)
  refine Spares.of_rules (hs.of_rules ht ?_ ?_ htrue) hst.atoms hst.rules
  · rw [hst.rules]
  · rw [hst.rules]

/-- To declare a head leaves it the supports that it has. -/
theorem spares_addHead (hs : s.Backed) {head : Nat} (hhead : head < s.atoms.count) :
    Spares kind s { s with rules := s.rules.declareHead head, status := .stale } where
  backed := by
    refine ⟨⟨hs.wellFormed.atoms, hs.wellFormed.clauses, hs.wellFormed.rules.declareHead hhead,
      hs.wellFormed.assumptions, Or.inl rfl⟩, fun h l hl => ?_, fun h l hl => ?_⟩
    · exact hs.implied h l (Rules.supportsOf_declareHead s.rules head h ▸ hl)
    · exact (Rules.supportsOf_declareHead s.rules head h).symm ▸ hs.recorded h l hl
  count := Nat.le_refl _
  name? _ _ := rfl
  named? _ _ ha := ha
  heads _ hh := Rules.mem_supports_declareHead.2 (Or.inr hh)
  supportsOf h _ _ _ := Rules.supportsOf_declareHead s.rules head h

/-- A support that is defined gets an atom without a name. -/
theorem spares_support (hs : s.Backed) {body : Clause}
    (hbody : ∀ l ∈ body, l.atom < s.atoms.count) :
    Spares kind s (s.support body).2 := by
  obtain ⟨hsupports, hrecorded, htrue⟩ := support_keeps body s
  have hback := hs.of_rules (hs.wellFormed.support hbody).1 hsupports hrecorded htrue
  rcases support_cases body s with ⟨l, -, h⟩ | ⟨a, -, h⟩ | ⟨-, h⟩
  · rw [h]
    exact Spares.refl hs
  · rw [h]
    exact Spares.refl hs
  · -- the new atom has no name, so it is of no kind that is spared
    have hmade : Spares kind s { (s.makeAtom none).2 with status := .stale } :=
      spares_makeAtom hs nofun
    obtain ⟨clauses, hframe⟩ := defineBody_frame body s
    rw [h] at hback ⊢
    rw [hframe] at hback ⊢
    exact ⟨hback, hmade.count, hmade.name?, hmade.named?, fun _ hh => hh, fun _ _ _ _ => rfl⟩

/-- A rule spares the heads that are not its own. -/
theorem spares_storeRule (hs : s.Backed) {head : Nat} {body : Clause}
    (hhead : head < s.atoms.count) (hbody : ∀ l ∈ body, l.atom < s.atoms.count)
    (hkind : ∀ p, s.atoms.name? head = some p → ¬ kind p) :
    Spares kind s (s.storeRule head body).2 := by
  rcases storeRule_cases head body s with ⟨-, h⟩ | ⟨-, h⟩ | ⟨-, -, h⟩
  · rw [h]
    exact Spares.refl hs
  · rw [h]
    exact Spares.refl hs
  · rw [h]
    have hcanonical : ∀ l ∈ body.canonical, l.atom < s.atoms.count :=
      fun l hl => hbody l (Clause.mem_canonical.1 hl)
    have hsupport : Spares kind s (s.support body.canonical).2 := spares_support hs hcanonical
    obtain ⟨clauses, hframe⟩ := recordRule_frame head body.canonical s
    have hatoms :
        (recordRule head body.canonical s).atoms = (s.support body.canonical).2.atoms := by
      rw [hframe]
    refine ⟨hs.recordRule hhead hcanonical, ?_, ?_, ?_, fun h hh => ?_, fun h p hp hk => ?_⟩
    · rw [hatoms]
      exact hsupport.count
    · rw [hatoms]
      exact hsupport.name?
    · rw [hatoms]
      exact hsupport.named?
    · rw [recordRule_rules]
      exact Rules.mem_supports_record.2 (Or.inr (hsupport.heads h hh))
    · -- the head of the rule has no name of the kind
      rw [hatoms] at hp
      have hne : head ≠ h := by
        rintro rfl
        exact hkind p ((hsupport.name? head hhead).symm.trans hp) hk
      rw [recordRule_rules, Rules.supportsOf_record, if_neg hne, hsupport.supportsOf h p hp hk]

/-- A rule spares the heads that are not its own. -/
theorem after_addRule_spares (hs : s.Backed) {head : Nat} {body : Clause}
    (hkind : ∀ p, s.atoms.name? head = some p → ¬ kind p) :
    After (addRule head body) s (fun _ t => Spares kind s t) fun _ t => Spares kind s t := by
  have hrefl : Spares kind s s := Spares.refl hs
  refine (after_addRule head body s).mono (fun stored t h => ?_) fun _ _ h => h.1 ▸ hrefl
  obtain rfl : t = (s.storeRule head body).2 := congrArg Prod.snd h.2.2.2
  exact spares_storeRule hs h.2.1 h.2.2.1 hkind

/-- To declare a head spares every head, also where it is refused. -/
theorem after_addHead_spares (hs : s.Backed) (head : Nat) :
    After (addHead head) s (fun _ t => Spares kind s t) fun _ t => Spares kind s t := by
  have hrefl : Spares kind s s := Spares.refl hs
  refine (after_addHead head s).mono (fun _ t h => ?_) fun _ _ h => h.1 ▸ hrefl
  obtain ⟨hhead, rfl⟩ := h
  exact spares_addHead hs hhead

/-- Whatever is asserted, names stay with their atoms. -/
theorem preserves_spares_assert (hs : s.Backed) (hkind : ∀ p, ¬ kind p) (c : Constraint) :
    Preserves (Spares kind s) (assert c) := by
  cases c with
  | clause c => exact (preserves_spares_addClause hs c).bind fun _ => preserves_pure _
  | implication body head =>
    exact (preserves_spares_addClause hs _).bind fun _ => preserves_pure _
  | rule head body =>
    exact (preserves_spares hs fun t ht => after_addRule_spares ht fun p _ => hkind p).bind
      fun _ => preserves_pure _

/-- The move asserts no rule whose head has a name of the kind. -/
def Move.Spares (kind : Proposition → Prop) (s : Solver ρ) : Move → Prop
  | .addRule head _ => ∀ p, s.atoms.name? head = some p → ¬ kind p
  | _ => True

/-- A move spares the heads with names of the kind, unless it asserts a rule for one. -/
theorem spares_perform [RandomSource ρ] (hs : s.Backed) {m : Move} (hm : m.Spares kind s) :
    Solver.Spares kind s (m.perform s) := by
  -- moves that assert are looked at, those that ask keep all constraints
  have hrefl : Solver.Spares kind s s := Spares.refl hs
  have hgrown := fun m : Move => (hs.wellFormed.grown.perform m).1
  cases m with
  | freshAtom name => exact spares_freshAtom hs name
  | addClause c => exact (preserves_spares_addClause hs c).stateAfter hrefl
  | addRule head body => exact (after_addRule_spares hs hm).stateAfter
  | addHead head => exact (after_addHead_spares hs head).stateAfter
  | addAtMost bound ls => exact (preserves_spares_addAtMost hs bound ls).stateAfter hrefl
  | force l => exact (sameConstraints_perform rfl s).spares hs (hgrown (.force l))
  | reset => exact (sameConstraints_perform rfl s).spares hs (hgrown .reset)
  | fixedValue a => exact (sameConstraints_perform rfl s).spares hs (hgrown (.fixedValue a))
  | solve optimize => exact (sameConstraints_perform rfl s).spares hs (hgrown (.solve optimize))

end Solver

end Storyworld
