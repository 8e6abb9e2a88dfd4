import Storyworld.Proofs.Solver.Fixed

namespace Storyworld

/-!
# Indices that are checked

The tables of a solver are arrays by atom, by literal and by key. Where an index is past the end,
the definitions go on regardless: `Valuation.assign` changes nothing then, `Clauses.get` gives the
empty clause. Here are the same operations as they are where an index is looked at first: each has
nothing to show (`none`) as soon as one index is out of range, be it of an atom whose value is set
(`Valuation.assign?`) or taken away (`Valuation.release?`), of a key (`Clauses.get?`), of a literal in
the table of keys (`Clauses.reindex?`) or of the place at which the trail is cut
(`Assignment.undo?`).

For each of them there is a lemma that says when it is the operation without the check:

* a clause that is visited, and the literals in it, are in range as the index has keys of clauses
  only (`Indexed.get?_eq`), and as the clauses are over the atoms of the valuation;
* what is undone is in range as the trail and the valuation are in step (`InStep.undo?_eq`).
-/

/-- A fold whose steps may fail, in which none does as long as an invariant holds. -/
theorem foldlM_eq_some {α β : Type} {f : β → α → Option β} {g : β → α → β} {P : β → Prop}
    {xs : List α} {b : β} (hstep : ∀ b, ∀ x ∈ xs, P b → f b x = some (g b x) ∧ P (g b x))
    (hb : P b) : xs.foldlM f b = some (xs.foldl g b) := by
  induction xs generalizing b with
  | nil => rfl
  | cons x xs ih =>
    obtain ⟨hx, hnext⟩ := hstep b x List.mem_cons_self hb
    rw [List.foldlM_cons, hx, List.foldl_cons]
    exact ih (fun b y hy => hstep b y (List.mem_cons_of_mem _ hy)) hnext

/-! ### Values -/

namespace Valuation

/-- Gives the atom of the literal the value that makes it true, if the atom is in the table. -/
def assign? (v : Valuation) (l : Literal) : Option Valuation :=
  if l.atom < v.size then some (v.assign l) else none

/-- Takes the value of an atom away, if the atom is in the table. For top nothing is looked up. -/
def release? (v : Valuation) (a : Atom) : Option Valuation :=
  if a = Atom.top ∨ a < v.size then some (v.release a) else none

theorem assign?_eq {v : Valuation} {l : Literal} (h : l.atom < v.size) :
    v.assign? l = some (v.assign l) := if_pos h

theorem release?_eq {v : Valuation} {a : Atom} (h : a < v.size) :
    v.release? a = some (v.release a) := if_pos (Or.inr h)

end Valuation

/-! ### Clauses -/

namespace Clauses

/-- The clause of a key, if the key names one. -/
def get? (s : Clauses) : ClauseKey → Option Clause
  | .asserted i => s.asserted[i]?
  | .completion i => s.completion[i]?

/-- Adds a key to the keys of each literal of its clause, if the table has room for all of them. -/
def enter? (table : Array (Array ClauseKey)) (entry : ClauseKey × Clause) :
    Option (Array (Array ClauseKey)) :=
  entry.2.foldlM (fun table l =>
    if l.index < table.size then some (table.modify l.index (·.push entry.1)) else none) table

/-- Collects the keys by literal, if the table for that many atoms has room for all literals. -/
def reindex? (s : Clauses) (atomCount : Nat) : Option Clauses := do
  let occurrences ← s.keyed.foldlM enter? (Array.replicate (2 * atomCount) #[])
  some { s with occurrences }

variable {s : Clauses} {count : Nat}

/-- The clauses with their keys are those that their keys name. -/
theorem mem_keyed_iff {key : ClauseKey} {c : Clause} :
    (key, c) ∈ s.keyed ↔ s.get? key = some c := by
  rw [keyed, List.mem_append, List.mem_map, List.mem_map]
  constructor
  · intro h
    rcases h with ⟨⟨d, i⟩, hd, he⟩ | ⟨⟨d, i⟩, hd, he⟩
    · obtain ⟨rfl, rfl⟩ := Prod.mk.inj he
      rwa [List.mem_zipIdx_iff_getElem?, Array.getElem?_toList] at hd
    · obtain ⟨rfl, rfl⟩ := Prod.mk.inj he
      rwa [List.mem_zipIdx_iff_getElem?, Array.getElem?_toList] at hd
  · -- a key is the place of its clause in one of the two arrays
    intro h
    cases key with
    | asserted i =>
      refine Or.inl ⟨(c, i), ?_, rfl⟩
      rwa [List.mem_zipIdx_iff_getElem?, Array.getElem?_toList]
    | completion i =>
      refine Or.inr ⟨(c, i), ?_, rfl⟩
      rwa [List.mem_zipIdx_iff_getElem?, Array.getElem?_toList]

/-- The index has keys of clauses only. -/
theorem Indexed.get?_eq (h : s.Indexed count) {l : Literal} {key : ClauseKey}
    (hkey : key ∈ s.occurrencesOf l) : s.get? key = some (s.get key) := by
  obtain ⟨-, c, hc, -⟩ := (h l key).1 hkey
  rw [mem_keyed_iff.1 hc, get_of_mem_keyed hc]

theorem enter?_eq {table : Array (Array ClauseKey)} {entry : ClauseKey × Clause}
    (h : ∀ l ∈ entry.2, l.index < table.size) : enter? table entry = some (enter table entry) := by
  refine foldlM_eq_some (P := fun t => t.size = table.size) (fun t l hl ht => ?_) rfl
  rw [if_pos (by rw [ht]; exact h l hl), Array.size_modify]
  exact ⟨rfl, ht⟩

/-- There is room in the table for the literals of all clauses. -/
theorem reindex?_eq (h : Clause.Below count s.all) : s.reindex? count = some (s.reindex count) := by
  have hfold : s.keyed.foldlM enter? (Array.replicate (2 * count) #[]) =
      some (s.keyed.foldl enter (Array.replicate (2 * count) #[])) := by
    refine foldlM_eq_some (P := fun t => t.size = 2 * count) (fun t e he ht => ?_)
      Array.size_replicate
    have hsize : (enter t e).size = t.size := size_modify_fold e.1 e.2 t
    refine ⟨enter?_eq fun l hl => ?_, hsize.trans ht⟩
    rw [ht, index_lt_iff]
    exact h e.2 (mem_all_iff.2 ⟨e.1, he⟩) l hl
  rw [reindex?, hfold]
  rfl

end Clauses

/-! ### Moves of a search -/

namespace Assignment

def assign? (a : Assignment) (l : Literal) : Option Assignment := do
  let valuation ← a.valuation.assign? l
  some ⟨valuation, a.trail.push l⟩

/-- Makes a chosen literal true, if its atom is in range. -/
def choose? (a : Assignment) (l : Literal) (flipped : Bool) : Option Assignment := do
  let valuation ← a.valuation.assign? l
  some ⟨valuation, a.trail.pushDecision l flipped⟩

/-- Makes literals true one after the other, if the atoms of those made true are in range. -/
def assume? : List Literal → Assignment → Option (Bool × Assignment)
  | [], a => some (true, a)
  | l :: ls, a =>
    match a.valuation.value? l.atom with
    | none => do
      let a ← a.assign? l
      assume? ls a
    | some b => if b = l.positive then assume? ls a else some (false, a)

/-- Looks at clauses in turn, if all keys up to the end of the visit name clauses. -/
def visit? (clauses : Clauses) : List ClauseKey → Assignment → Option (Option ClauseKey × Assignment)
  | [], a => some (none, a)
  | key :: keys, a => do
    let c ← clauses.get? key
    match c.standing a.valuation with
    | .settled => visit? clauses keys a
    | .forces l =>
      let a ← a.assign? l
      visit? clauses keys a
    | .falsified => some (some key, a)

def propagateWithin? (clauses : Clauses) :
    Nat → Assignment → Option (Option ClauseKey × Assignment)
  | 0, a => some (none, a)
  | n + 1, a =>
    match a.trail.next? with
    | none => some (none, a)
    | some (l, trail) => do
      match ← visit? clauses (clauses.occurrencesOf l.negate) { a with trail } with
      | (some key, a) => some (some key, a)
      | (none, a) => propagateWithin? clauses n a

def propagate? (clauses : Clauses) (a : Assignment) : Option (Option ClauseKey × Assignment) :=
  propagateWithin? clauses a.reach a

/-- Takes back every literal from that position of the trail on, if the trail is as long and the
atoms of those literals are in range. -/
def undo? (a : Assignment) (position : Nat) (decisions : List Decision) : Option Assignment :=
  if position ≤ a.trail.literals.size then do
    let valuation ← (a.trail.literals.toList.drop position).foldlM
      (fun v l => v.release? l.atom) a.valuation
    some { valuation, trail := (a.undo position decisions).trail }
  else none

def backtrackThrough? : List Decision → Assignment → Option (Option Literal × Assignment)
  | [], a => some (none, a)
  | d :: ds, a => do
    let a ← a.undo? d.position ds
    if d.flipped then backtrackThrough? ds a else some (some d.literal.negate, a)

def backtrack? (a : Assignment) : Option (Option Literal × Assignment) :=
  backtrackThrough? a.trail.decisions a

variable {clauses : Clauses} {base : Valuation} {a : Assignment} {l : Literal} {count : Nat}

theorem assign?_eq (h : l.atom < a.valuation.size) : a.assign? l = some (a.assign l) := by
  rw [assign?, Valuation.assign?_eq h]
  rfl

theorem choose?_eq (h : l.atom < a.valuation.size) (flipped : Bool) :
    a.choose? l flipped = some (a.choose l flipped) := by
  rw [choose?, Valuation.assign?_eq h]
  rfl

theorem assume?_eq {ls : List Literal} (h : ∀ l ∈ ls, l.atom < a.valuation.size) :
    assume? ls a = some (assume ls a) := by
  induction ls generalizing a with
  | nil => rfl
  | cons l ls ih =>
    have hrest : ∀ m ∈ ls, m.atom < a.valuation.size := fun m hm => h m (List.mem_cons_of_mem _ hm)
    unfold assume? assume
    cases a.valuation.value? l.atom with
    | none =>
      dsimp only
      rw [assign?_eq (h l List.mem_cons_self)]
      -- to assign a value changes no size, so the rest is still in range
      refine ih (a := a.assign l) fun m hm => ?_
      show m.atom < (a.valuation.assign l).size
      rw [Valuation.size_assign]
      exact hrest m hm
    | some b =>
      dsimp only
      split
      · exact ih hrest
      · rfl

/-- A visit keeps the size of the valuation, so the atom that a clause forces is always in range. -/
theorem visit?_eq {keys : List ClauseKey} (hsize : a.valuation.size = count)
    (hkeys : ∀ key ∈ keys, clauses.get? key = some (clauses.get key))
    (hatoms : ∀ key ∈ keys, ∀ l ∈ clauses.get key, l.atom < count) :
    visit? clauses keys a = some (visit clauses keys a) := by
  induction keys generalizing a with
  | nil => rfl
  | cons key keys ih =>
    have hkeys' : ∀ k ∈ keys, clauses.get? k = some (clauses.get k) :=
      fun k hk => hkeys k (List.mem_cons_of_mem _ hk)
    have hatoms' : ∀ k ∈ keys, ∀ l ∈ clauses.get k, l.atom < count :=
      fun k hk => hatoms k (List.mem_cons_of_mem _ hk)
    unfold visit? visit
    rw [hkeys key List.mem_cons_self, Option.bind_eq_bind, Option.bind_some]
    cases hstanding : (clauses.get key).standing a.valuation with
    | settled => exact ih hsize hkeys' hatoms'
    | falsified => rfl
    | forces l =>
      -- the literal that is forced is one of the clause
      have hlt : l.atom < a.valuation.size := by
        rw [hsize]
        exact hatoms key List.mem_cons_self l (Clause.forces_spec hstanding).1
      have hsize' : (a.assign l).valuation.size = count :=
        (Valuation.size_assign a.valuation l).trans hsize
      dsimp only
      rw [assign?_eq hlt]
      exact ih hsize' hkeys' hatoms'

theorem size_visit (clauses : Clauses) (keys : List ClauseKey) (a : Assignment) :
    (visit clauses keys a).2.valuation.size = a.valuation.size :=
  visit_induction (P := fun b => b.valuation.size = a.valuation.size)
    (fun b _ _ l _ hb => (Valuation.size_assign b.valuation l).trans hb) rfl

theorem propagateWithin?_eq (hindexed : clauses.Indexed count)
    (hbelow : Clause.Below count clauses.all) {n : Nat} (hsize : a.valuation.size = count) :
    propagateWithin? clauses n a = some (propagateWithin clauses n a) := by
  induction n generalizing a with
  | zero => rfl
  | succ n ih =>
    unfold propagateWithin? propagateWithin
    cases a.trail.next? with
    | none => rfl
    | some next =>
      obtain ⟨l, trail⟩ := next
      -- the keys come from the index, which has keys of clauses only
      have hvisit := visit?_eq (a := { a with trail }) hsize
        (fun key hkey => hindexed.get?_eq hkey)
        (fun key hkey => hbelow _ (hindexed.mem_all (l := l.negate) hkey))
      have hsize' := size_visit clauses (clauses.occurrencesOf l.negate) { a with trail }
      dsimp only
      rw [hvisit, Option.bind_eq_bind, Option.bind_some]
      cases hb : visit clauses (clauses.occurrencesOf l.negate) { a with trail } with
      | mk conflict b =>
        rw [hb] at hsize'
        cases conflict with
        | some key => rfl
        | none => exact ih (hsize'.trans hsize)

/-- Propagation never looks past the end of a table. -/
theorem propagate?_eq (hindexed : clauses.Indexed count) (hbelow : Clause.Below count clauses.all)
    (hsize : a.valuation.size = count) : a.propagate? clauses = some (a.propagate clauses) :=
  propagateWithin?_eq hindexed hbelow hsize

/-- The trail is as long as the position of each decision, and its literals are in range. -/
theorem InStep.undo?_eq (h : InStep base a) {d : Decision} (hd : d ∈ a.trail.decisions)
    (ds : List Decision) : a.undo? d.position ds = some (a.undo d.position ds) := by
  have hle : d.position ≤ a.trail.literals.size := by
    rw [← Trail.length_toList]
    exact Nat.le_of_lt (h.position_lt hd)
  have hfold : (a.trail.literals.toList.drop d.position).foldlM
      (fun v (l : Literal) => v.release? l.atom) a.valuation =
        some (a.undo d.position ds).valuation := by
    -- taking values away changes no size either
    refine foldlM_eq_some (P := fun v => v.size = base.size) (fun v l hl hv => ?_) h.size
    have hlt : l.atom < base.size := (h.fits.isOpen l (List.mem_of_mem_drop hl)).lt
    rw [Valuation.size_release]
    exact ⟨Valuation.release?_eq (by rw [hv]; exact hlt), hv⟩
  rw [undo?, if_pos hle, hfold]
  rfl

theorem InStep.backtrackThrough?_eq (h : InStep base a) (htop : ¬ base.Open Atom.top)
    {later ds : List Decision} (hds : a.trail.decisions = later ++ ds) :
    backtrackThrough? ds a = some (backtrackThrough ds a) := by
  induction ds generalizing a later with
  | nil => rfl
  | cons d ds ih =>
    unfold backtrackThrough? backtrackThrough
    rw [h.undo?_eq (by simp [hds]) ds, Option.bind_eq_bind, Option.bind_some]
    have hrest : (a.undo d.position ds).trail.decisions = [] ++ ds := rfl
    dsimp only
    split
    · exact ih (h.undo htop hds) hrest
    · rfl

/-- Nor does the way back. -/
theorem InStep.backtrack?_eq (h : InStep base a) (htop : ¬ base.Open Atom.top) :
    a.backtrack? = some a.backtrack :=
  have hds : a.trail.decisions = [] ++ a.trail.decisions := rfl
  h.backtrackThrough?_eq htop hds

/-- The atom of the literal that the search goes back to is open again, so it is in range. -/
theorem InStep.open_of_backtrack (h : InStep base a) (htop : ¬ base.Open Atom.top) {b : Assignment}
    (hb : a.backtrack = (some l, b)) : b.valuation.Open l.atom := by
  obtain ⟨between, d, earlier, hds, -, -, rfl, rfl⟩ := backtrack_eq_some h htop hb
  exact open_undo h htop (by simp [hds]) earlier

end Assignment

end Storyworld
