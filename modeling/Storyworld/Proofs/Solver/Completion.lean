import Storyworld.Proofs.Solver.Account
import Storyworld.Random.Pcg

namespace Storyworld

/-!
# Rules have completion semantics

The clauses of a solver, asserted ones and completion clauses, are over the caller's atoms
and those that stand for bodies. Seen from the caller's atoms they say just what the caller
said, a head being true exactly when the body of one of its rules is: an interpretation of
the caller's atoms is part of a model exactly when it meets the account, and the atoms of bodies
then have no choice (`Told.completion`).
-/

namespace Solver

variable {ρ : Type} {s : Solver ρ} {k : Account} {i j : Interpretation}

/-- The interpretations give the known atoms the same values. -/
def Account.Agree (k : Account) (j i : Interpretation) : Prop := ∀ a, k.Knows a → j a = i a

/-! ### Models are what meets the account -/

theorem mem_formula {c : Clause} : c ∈ s.formula ↔
    c ∈ s.clauses.asserted ∨ ∃ h ∈ s.rules.supports, c = Literal.neg h :: s.rules.supportsOf h := by
  rw [formula, List.mem_append, Array.mem_toList_iff, Rules.mem_completion]

/-- A completion clause says that a head is true only if one of its supports is. -/
theorem isTrue_completion {h : Atom} {ls : List Literal} :
    i.IsTrue (Literal.neg h :: ls) ↔ (i h = true → ∃ l ∈ ls, i.Satisfies l) := by
  constructor
  · rintro ⟨l, hl, hsat⟩ hh
    rcases List.mem_cons.1 hl with rfl | hl
    · rw [Interpretation.Satisfies, show (Literal.neg h).atom = h from rfl, hh] at hsat
      cases hsat
    · exact ⟨l, hl, hsat⟩
  · intro hs
    -- a head that is false makes its completion clause true by itself
    cases hh : i h with
    | false => exact ⟨Literal.neg h, List.mem_cons_self, hh⟩
    | true =>
      obtain ⟨l, hl, hsat⟩ := hs hh
      exact ⟨l, List.mem_cons_of_mem _ hl, hsat⟩

/-- A model makes top and the asserted clauses true, and each head that is true has a support that
is. -/
theorem isModel_formula : i.IsModel s.formula ↔ i Atom.top = true ∧ s.TrueIn i ∧
    ∀ h ∈ s.rules.supports, i h = true → ∃ l ∈ s.rules.supportsOf h, i.Satisfies l := by
  refine and_congr_right fun _ => ?_
  constructor
  · intro hall
    refine ⟨fun c hc => hall c (mem_formula.2 (Or.inl hc)), fun h hh => ?_⟩
    exact isTrue_completion.1 (hall _ (mem_formula.2 (Or.inr ⟨h, hh, rfl⟩)))
  · rintro ⟨hasserted, hheads⟩ c hc
    rcases mem_formula.1 hc with hc | ⟨h, hh, rfl⟩
    · exact hasserted c hc
    · exact isTrue_completion.2 (hheads h hh)

/-- A model is an interpretation that meets the account and in which the atoms of bodies are true
exactly when the bodies are. -/
theorem Faithful.isModel_iff (h : Faithful s k) :
    i.IsModel s.formula ↔ i Atom.top = true ∧ s.rules.DefinedIn i ∧ k.IsMetBy i := by
  rw [isModel_formula, h.meant.asserted]
  refine and_congr_right fun _ => ?_
  constructor
  · rintro ⟨⟨hclauses, hdefined, hrules⟩, hheads⟩
    refine ⟨hdefined, hclauses, fun head hhead => ⟨fun htrue => ?_, ?_⟩⟩
    · -- one way is what the completion clause says
      exact (h.meant.supports i hdefined head).1 (hheads head ((h.meant.heads head).2 hhead) htrue)
    · -- and the other is the clause of the rule
      rintro ⟨body, hbody, hsat⟩
      exact hrules _ hbody hsat
  · rintro ⟨hdefined, hclauses, hheads⟩
    refine ⟨⟨hclauses, hdefined, fun r hr hsat => ?_⟩, fun head hhead htrue => ?_⟩
    · exact (hheads r.1 (Or.inr ⟨r.2, hr⟩)).2 ⟨r.2, hr, hsat⟩
    · exact (h.meant.supports i hdefined head).2
        ((hheads head ((h.meant.heads head).1 hhead)).1 htrue)

/-- Whether an account is met depends on the known atoms only. -/
theorem Account.Closed.isMetBy_congr (h : k.Closed) (hagree : k.Agree j i) :
    k.IsMetBy j ↔ k.IsMetBy i := by
  -- all that the account speaks of are atoms that it knows
  have hhead : ∀ head, k.IsHead head → k.Knows head := by
    rintro head (hh | ⟨body, hbody⟩)
    · exact h.heads head hh
    · exact (h.rules _ hbody).1
  have hbody : ∀ head body, (head, body) ∈ k.rules → (j.SatisfiesAll body ↔ i.SatisfiesAll body) :=
    fun head body hr => Interpretation.satisfiesAll_congr fun l hl =>
      hagree _ ((h.rules _ hr).2 l hl)
  refine and_congr (forall_congr' fun c => imp_congr_right fun hc => ?_)
    (forall_congr' fun head => imp_congr_right fun hh => ?_)
  · exact Interpretation.isTrue_congr fun l hl => hagree _ (h.clauses c hc l hl)
  · rw [hagree head (hhead head hh)]
    refine iff_congr Iff.rfl (exists_congr fun body => and_congr_right fun hr => ?_)
    exact hbody head body hr

/-! ### The atoms of bodies -/

/-- The interpretation in which the atoms of bodies are true exactly when the bodies are. -/
def extend (s : Solver ρ) (i : Interpretation) : Interpretation := fun a =>
  match s.rules.definitions.find? fun d => d.2 == a with
  | some d => decide (i.SatisfiesAll d.1)
  | none => i a

theorem Faithful.agree_extend (h : Faithful s k) (i : Interpretation) :
    k.Agree (extend s i) i := by
  intro a ha
  unfold extend
  split
  · rename_i d hd
    -- an atom that is known stands for no body
    have hda : d.2 = a := by simpa using List.find?_some hd
    exact absurd (hda ▸ ha) (h.owned.apart d (List.mem_of_find?_eq_some hd))
  · rfl

theorem Faithful.definedIn_extend (h : Faithful s k) (i : Interpretation) :
    s.rules.DefinedIn (extend s i) := by
  intro d hd
  have hbody : (extend s i).SatisfiesAll d.1 ↔ i.SatisfiesAll d.1 :=
    Interpretation.satisfiesAll_congr fun l hl => h.agree_extend i _ (h.owned.known d hd l hl)
  rw [hbody]
  unfold extend
  split
  · rename_i e he
    -- the entry found first may be another one, but of the same body
    have hed : e.2 = d.2 := by simpa using List.find?_some he
    rw [h.owned.distinct e (List.mem_of_find?_eq_some he) d hd hed, decide_eq_true_iff]
  · rename_i hnone
    have := List.find?_eq_none.1 hnone d hd
    simp at this

/-- The bodies are about known atoms, so their atoms have no choice. -/
theorem Faithful.eq_of_definedIn (h : Faithful s k) {j' : Interpretation} (hagree : k.Agree j i)
    (hj : s.rules.DefinedIn j) (hagree' : k.Agree j' i) (hj' : s.rules.DefinedIn j') {a : Atom}
    (ha : a < s.atoms.count) : j a = j' a := by
  rcases h.owned.covered a ha with hk | ⟨body, hbody⟩
  · rw [hagree a hk, hagree' a hk]
  · have hsame : j.SatisfiesAll body ↔ j'.SatisfiesAll body :=
      Interpretation.satisfiesAll_congr fun l hl => by
        rw [hagree _ (h.owned.known _ hbody l hl), hagree' _ (h.owned.known _ hbody l hl)]
    exact Bool.eq_iff_iff.2 ((hj _ hbody).trans (hsame.trans (hj' _ hbody).symm))

/-- **Rules have completion semantics.** Values of top and of the caller's atoms extend to a model of
the asserted clauses and the completion clauses exactly when they make every clause true that was
asserted, and each head true exactly when a body given for it is. The extension to the other atoms
is unique. -/
theorem Told.completion (h : Told s k) (htop : i Atom.top = true) :
    ((∃ j, k.Agree j i ∧ j.IsModel s.formula) ↔ k.IsMetBy i) ∧
      ∀ j j', k.Agree j i → j.IsModel s.formula → k.Agree j' i → j'.IsModel s.formula →
        ∀ a, a < s.atoms.count → j a = j' a := by
  have hs := h.faithful
  refine ⟨⟨?_, fun hmet => ?_⟩, fun j j' hagree hj hagree' hj' a ha => ?_⟩
  · rintro ⟨j, hagree, hj⟩
    exact (hs.meant.closed.isMetBy_congr hagree).1 (hs.isModel_iff.1 hj).2.2
  · have hagree := hs.agree_extend i
    refine ⟨extend s i, hagree, hs.isModel_iff.2 ⟨?_, hs.definedIn_extend i, ?_⟩⟩
    · rw [hagree Atom.top (Or.inl rfl), htop]
    · exact (hs.meant.closed.isMetBy_congr hagree).2 hmet
  · exact hs.eq_of_definedIn hagree (hs.isModel_iff.1 hj).2.1 hagree' (hs.isModel_iff.1 hj').2.1 ha

/-- A rule with two literals in its body, seen where all atoms are true. -/
theorem completion_conjunction :
    let s : Solver Pcg := [Move.freshAtom none, .freshAtom none, .freshAtom none,
      .addRule 1 [Literal.pos 2, Literal.pos 3]].foldl (fun s m => m.perform s)
        (ofConfig {} (Pcg.ofSeed 0))
    let k : Account := { atoms := [3, 2, 1], rules := [(1, [Literal.pos 2, Literal.pos 3])] }
    let i : Interpretation := fun _ => true
    Told s k ∧ i Atom.top = true ∧
      ((∃ j, k.Agree j i ∧ j.IsModel s.formula) ↔ k.IsMetBy i) ∧
      ∀ j j', k.Agree j i → j.IsModel s.formula → k.Agree j' i → j'.IsModel s.formula →
        ∀ a, a < s.atoms.count → j a = j' a := by
  intro s k i
  have hatoms := (((Told.start {} (Pcg.ofSeed 0)).freshAtom none).freshAtom none).freshAtom none
  have hs : Told s k := hatoms.addRule (by decide) (by decide) (by decide) rfl
  exact ⟨hs, rfl, hs.completion rfl⟩

end Solver

end Storyworld
