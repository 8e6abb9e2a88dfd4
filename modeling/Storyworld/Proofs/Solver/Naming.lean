import Storyworld.Proofs.Solver.Supports

namespace Storyworld

/-!
# Which operations name atoms

An atom is given its name when it is made, and only where somebody asks for the name
(`Solver.proposition`). Whatever else is done makes auxiliary atoms at most, so what is `Padding`
is preserved (`preserves_atoms_assert`, `atoms_perform`). In particular a name leads where it led
before (`SameNames`), and whoever keeps account of the names of a kind has to look at what is asked
for, and at nothing else.
-/

/-- What holds of some atoms goes on to hold when one is made that has no name. -/
def Atoms.Padding (P : Atoms → Prop) : Prop := ∀ s, P s → P (s.fresh none).2

namespace Atoms

variable {kind kind' : Proposition → Prop} {s : Atoms}

/-- The names of the atoms are all of the kind. -/
def Only (kind : Proposition → Prop) (s : Atoms) : Prop := ∀ a x, s.name? a = some x → kind x

/-- A kind may be widened. -/
theorem Only.mono (h : s.Only kind) (hkind : ∀ x, kind x → kind' x) : s.Only kind' :=
  fun a x ha => hkind x (h a x ha)

/-- Names stay of the kind if a new atom has none, or one of the kind. -/
theorem Only.fresh (h : s.Only kind) {name : Option Proposition}
    (hname : ∀ x, name = some x → kind x) : (s.fresh name).2.Only kind := by
  intro a x ha
  rw [name?_fresh] at ha
  split at ha
  · exact hname x ha
  · exact h a x ha

/-- An atom without a name has no name of another kind. -/
theorem padding_only (kind : Proposition → Prop) : Padding (Only kind) := fun _ h => h.fresh nofun

/-- A name leads to the atom that has it, so no two atoms have one name. -/
def Indexed (s : Atoms) : Prop := ∀ a x, s.name? a = some x → s.named? x = some a

/-- Two atoms that have the same name are one. -/
theorem Indexed.eq (h : s.Indexed) {a b : Atom} {x : Proposition} (ha : s.name? a = some x)
    (hb : s.name? b = some x) : a = b :=
  Option.some.inj ((h a x ha).symm.trans (h b x hb))

/-- A name that leads nowhere may be given. -/
theorem Indexed.fresh (h : s.Indexed) {x : Proposition} (hx : s.named? x = none) :
    (s.fresh (some x)).2.Indexed := by
  intro a y ha
  rw [name?_fresh] at ha
  rw [named?_fresh_some]
  split at ha
  · rename_i hnew
    rw [if_pos (Option.some.inj ha), hnew]
  · have hy := h a y ha
    rw [if_neg, hy]
    rintro rfl
    rw [hx] at hy
    cases hy

/-- An atom without a name is no second one with a name. -/
theorem padding_indexed : Padding Indexed := by
  intro s h a x ha
  rw [name?_fresh] at ha
  split at ha
  · cases ha
  · exact h a x ha

end Atoms

namespace Solver

open Action

variable {ρ : Type} {kind : Proposition → Prop} {s t u : Solver ρ} {P Q : Proposition}

/-! ### What auxiliary atoms keep -/

section Padding

variable {R : Atoms → Prop}

/-- A clause makes no atom. -/
theorem preserves_atoms_addClause (R : Atoms → Prop) (c : Clause) :
    Preserves (fun t : Solver ρ => R t.atoms) (addClause c) := by
  intro s hs
  refine (after_addClause c s).mono (fun stored t h => ?_) fun e t h => ?_
  · obtain ⟨clauses, status, hframe, -⟩ := store_frame c s
    have ht : t = (s.store c).2 := congrArg Prod.snd h.2
    rw [ht, hframe]
    exact hs
  · rw [h.1]
    exact hs

/-- The atom that stands for a body has no name. -/
theorem atoms_support (hR : Atoms.Padding R) (body : Clause) (hs : R s.atoms) :
    R (s.support body).2.atoms := by
  rcases support_cases body s with ⟨l, -, h⟩ | ⟨a, -, h⟩ | ⟨-, h⟩
  · rwa [h]
  · rwa [h]
  · obtain ⟨clauses, hframe⟩ := defineBody_frame body s
    rw [h, hframe]
    exact hR s.atoms hs

/-- A rule makes at most an atom without a name, for its body. -/
theorem preserves_atoms_addRule (hR : Atoms.Padding R) (head : Atom) (body : Clause) :
    Preserves (fun t : Solver ρ => R t.atoms) (addRule head body) := by
  intro s hs
  refine (after_addRule head body s).mono (fun stored t h => ?_) fun e t h => ?_
  · have ht : t = (s.storeRule head body).2 := congrArg Prod.snd h.2.2.2
    rw [ht]
    rcases storeRule_cases head body s with ⟨-, h⟩ | ⟨-, h⟩ | ⟨-, -, h⟩
    · rwa [h]
    · rwa [h]
    · -- only a body that gets an atom of its own makes one, and without a name
      obtain ⟨clauses, hframe⟩ := recordRule_frame head body.canonical s
      rw [h, hframe]
      exact atoms_support hR body.canonical hs
  · rw [h.1]
    exact hs

/-- To declare a head makes no atom. -/
theorem preserves_atoms_addHead (R : Atoms → Prop) (head : Atom) :
    Preserves (fun t : Solver ρ => R t.atoms) (addHead head) := by
  intro s hs
  refine (after_addHead head s).mono (fun _ t h => ?_) fun e t h => ?_
  · rw [h.2]
    exact hs
  · rw [h.1]
    exact hs

/-- A bound makes atoms without names only. -/
theorem preserves_atoms_addAtMost (hR : Atoms.Padding R) (bound : Nat) (ls : List Literal) :
    Preserves (fun t : Solver ρ => R t.atoms) (addAtMost bound ls) :=
  preserves_addAtMost_of (fun t ht => hR t.atoms ht) (preserves_atoms_addClause R) bound ls

/-- **Whatever is asserted, no name is given.** -/
theorem preserves_atoms_assert (hR : Atoms.Padding R) (c : Constraint) :
    Preserves (fun t : Solver ρ => R t.atoms) (assert c) := by
  cases c with
  | clause c => exact (preserves_atoms_addClause R c).bind fun _ => preserves_pure _
  | implication body head =>
    exact (preserves_atoms_addClause R _).bind fun _ => preserves_pure _
  | rule head body =>
    exact (preserves_atoms_addRule hR head body).bind fun _ => preserves_pure _

/-- A move gives a name only where it asks for one. -/
theorem atoms_perform [RandomSource ρ] (hR : Atoms.Padding R) {m : Move}
    (hm : ∀ x, m = .freshAtom (some x) → R (s.proposition x).2.atoms) (hs : R s.atoms) :
    R (m.perform s).atoms := by
  have hasks : ∀ m : Move, m.asks = true → R (m.perform s).atoms := by
    intro m hm
    rw [(sameConstraints_perform hm s).atoms]
    exact hs
  cases m with
  | freshAtom name =>
    cases name with
    | none => exact hR s.atoms hs
    -- the one move that names an atom
    | some x => exact hm x rfl
  | addClause c => exact (preserves_atoms_addClause R c).stateAfter (s := s) hs
  | addRule head body => exact (preserves_atoms_addRule hR head body).stateAfter (s := s) hs
  | addHead head => exact (preserves_atoms_addHead R head).stateAfter (s := s) hs
  | addAtMost bound ls => exact (preserves_atoms_addAtMost hR bound ls).stateAfter (s := s) hs
  | force l => exact hasks (.force l) rfl
  | reset => exact hasks .reset rfl
  | fixedValue a => exact hasks (.fixedValue a) rfl
  | solve optimize => exact hasks (.solve optimize) rfl

end Padding

/-- The name that is asked for is added, unless it is there already. -/
theorem only_proposition (h : s.atoms.Only kind) (hP : kind P) :
    (s.proposition P).2.atoms.Only kind := by
  unfold proposition
  split
  · exact h
  · refine h.fresh fun Q hQ => ?_
    rwa [← Option.some.inj hQ]

/-- An atom is made for a proposition only if it has none yet. -/
theorem indexed_proposition (h : s.atoms.Indexed) (x : Proposition) :
    (s.proposition x).2.atoms.Indexed := by
  unfold proposition
  split
  · exact h
  · rename_i hnone
    exact h.fresh hnone

/-- A new solver has no names. -/
theorem name?_ofConfig (config : Config) (source : ρ) (a : Atom) :
    (ofConfig config source).atoms.name? a = none := by
  cases a <;> rfl

/-- In a new solver no atom has a name. -/
theorem only_ofConfig (kind : Proposition → Prop) (config : Config) (source : ρ) :
    (ofConfig config source).atoms.Only kind := by
  intro a x ha
  rw [name?_ofConfig] at ha
  cases ha

/-- **Names and the atoms that have them correspond**, whatever is done with a solver. -/
theorem Reachable.indexed [RandomSource ρ] (hs : s.Reachable) : s.atoms.Indexed := by
  induction hs with
  | start config source =>
    intro a x ha
    rw [name?_ofConfig] at ha
    cases ha
  | move hs m ih => exact atoms_perform Atoms.padding_indexed (fun x _ => indexed_proposition ih x) ih

/-! ### Names that stay -/

/-- A name of the kind leads to the same atom in both, or to none in both. -/
def SameNames (kind : Proposition → Prop) (s t : Solver ρ) : Prop :=
  ∀ P, kind P → t.atoms.named? P = s.atoms.named? P

/-- Where the atoms are the same, names lead to the same atoms. -/
theorem SameNames.of_atoms (h : t.atoms = s.atoms) : SameNames kind s t := fun _ _ => by rw [h]

theorem SameNames.refl (s : Solver ρ) : SameNames kind s s := SameNames.of_atoms rfl

theorem SameNames.trans (h : SameNames kind s t) (h' : SameNames kind t u) : SameNames kind s u :=
  fun P hP => (h' P hP).trans (h P hP)

/-- An atom without a name takes no name from another. -/
theorem padding_sameNames (kind : Proposition → Prop) (s : Solver ρ) :
    Atoms.Padding fun t => ∀ P, kind P → t.named? P = s.atoms.named? P := fun _ h => h

/-- To ask for a name that is not of the kind changes no name that is. -/
theorem sameNames_proposition (hP : ¬ kind P) (s : Solver ρ) :
    SameNames kind s (s.proposition P).2 := by
  intro Q hQ
  unfold proposition
  split
  · rfl
  · have hne : P ≠ Q := fun e => hP (e ▸ hQ)
    exact (Atoms.named?_fresh_some s.atoms P Q).trans (if_neg hne)

/-- To ask for one name changes no other. -/
theorem named?_proposition_of_ne (s : Solver ρ) (h : P ≠ Q) :
    (s.proposition P).2.atoms.named? Q = s.atoms.named? Q := by
  have hsame : SameNames (· = Q) s (s.proposition P).2 := by
    apply sameNames_proposition
    exact h
  exact hsame Q rfl

/-- A name that leads nowhere is given to a new atom. -/
theorem proposition_fst_of_none (h : s.atoms.named? P = none) :
    (s.proposition P).1 = s.atoms.count := by
  unfold proposition
  rw [h]
  rfl

/-- To declare a head changes no name. -/
theorem preserves_sameNames_addHead (head : Atom) :
    Preserves (SameNames kind s) (addHead head) :=
  preserves_atoms_addHead (fun t => ∀ P, kind P → t.named? P = s.atoms.named? P) head

/-- A bound changes no name. -/
theorem preserves_sameNames_addAtMost (bound : Nat) (ls : List Literal) :
    Preserves (SameNames kind s) (addAtMost bound ls) :=
  preserves_atoms_addAtMost (padding_sameNames kind s) bound ls

/-- A constraint changes no name, whatever kind it is. -/
theorem preserves_sameNames_assert (c : Constraint) : Preserves (SameNames kind s) (assert c) :=
  preserves_atoms_assert (padding_sameNames kind s) c

/-- The move asks for no atom with a name of the kind. -/
def Move.Avoids (kind : Proposition → Prop) : Move → Prop
  | .freshAtom (some P) => ¬ kind P
  | _ => True

/-- A move that asks for no name of the kind leaves all of them where they led. -/
theorem sameNames_perform [RandomSource ρ] {m : Move} (hm : m.Avoids kind) (s : Solver ρ) :
    SameNames kind s (m.perform s) := by
  refine atoms_perform (padding_sameNames kind s) (fun P hP => ?_) (SameNames.refl s)
  rw [hP] at hm
  exact sameNames_proposition hm s

end Solver

end Storyworld
