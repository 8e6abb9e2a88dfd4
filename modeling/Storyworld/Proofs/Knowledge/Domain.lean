import Mathlib.Data.List.Forall2
import Storyworld.Proofs.Knowledge.Base

namespace Storyworld

/-!
# Domains as plain lists

A domain finds arguments through an index of their positions, which has to be mended whenever
arguments are taken out. A plain list of arguments with their atoms (`Entries`) has no index, and is
searched from the front. From outside the two cannot be told apart.

* `Domain.positions_eq`: to look into the index is to search the list, as no arguments stand there
  twice (`Entries.place?_eq_some_iff`).
* Hence each operation of a domain is the one of its list, in `contains_eq`, `get?_eq`, `insert_eq`
  and `remove_eq`, which `serve_toList` puts together.
* `Domain.Mirrors` is what holds of a domain and a list that were asked the same. One request keeps it
  (`Mirrors.serve`), so all do (`Mirrors.forall₂_trace`).
-/

/-! ### Requests -/

namespace Domain

/-- What can be asked of a domain. -/
inductive Request where
  | insert (args : Arguments) (atom : Atom)
  | remove (args : Arguments)
  | get (args : Arguments)
  | contains (args : Arguments)
  deriving DecidableEq, Repr

inductive Answer where
  | told (yes : Bool)
  | found (atom : Option Atom)
  deriving DecidableEq, Repr

/-- The answers to requests that are made one after the other, each with what it leads to. -/
def trace {σ : Type} (serve : σ → Request → Answer × σ) : σ → List Request → List (Answer × σ)
  | _, [] => []
  | s, r :: rs => serve s r :: trace serve (serve s r).2 rs

end Domain

/-! ### The plain list -/

/-- Arguments with their atoms, in the order they were added. -/
abbrev Entries := List (Arguments × Atom)

namespace Entries

/-- The entry is that of the arguments. -/
def isOf (a : Arguments) (e : Arguments × Atom) : Bool := e.1 == a

def has (l : Entries) (a : Arguments) : Bool := l.any (isOf a)

def atom? (l : Entries) (a : Arguments) : Option Atom := (l.find? (isOf a)).map Prod.snd

/-- The place of the arguments in the list. -/
def place? (l : Entries) (a : Arguments) : Option Nat := l.findIdx? (isOf a)

/-- Adds an entry as the last one, unless its arguments have one. -/
def add (l : Entries) (a : Arguments) (x : Atom) : Bool × Entries :=
  if l.has a then (false, l) else (true, l ++ [(a, x)])

/-- Deletes the entry of the arguments and gives its atom. The others keep their order. -/
def delete (l : Entries) (a : Arguments) : Option Atom × Entries := (l.atom? a, l.eraseP (isOf a))

/-- What a plain list answers, and what it is afterwards. -/
def serve (l : Entries) : Domain.Request → Domain.Answer × Entries
  | .insert a x => (.told (l.add a x).1, (l.add a x).2)
  | .remove a => (.found (l.delete a).1, (l.delete a).2)
  | .get a => (.found (l.atom? a), l)
  | .contains a => (.told (l.has a), l)

variable {l : Entries} {a : Arguments} {i : Nat}

theorem isOf_iff {e : Arguments × Atom} : isOf a e = true ↔ e.1 = a := beq_iff_eq

/-- Where no arguments stand twice, they have but one place. -/
theorem place?_eq_some_iff (hnodup : (l.map Prod.fst).Nodup) :
    l.place? a = some i ↔ ∃ x, l[i]? = some (a, x) := by
  rw [place?, List.findIdx?_eq_some_iff_getElem]
  constructor
  · rintro ⟨hi, hof, -⟩
    obtain rfl := isOf_iff.1 hof
    exact ⟨l[i].2, List.getElem?_eq_getElem hi⟩
  · rintro ⟨x, hx⟩
    obtain ⟨hi, he⟩ := List.getElem?_eq_some_iff.1 hx
    refine ⟨hi, isOf_iff.2 (by rw [he]), fun j hj hof => ?_⟩
    -- an earlier place would be a second one
    have hapart := List.pairwise_iff_getElem.1 (List.pairwise_map.1 hnodup)
    exact hapart j i (Nat.lt_trans hj hi) hi hj ((isOf_iff.1 hof).trans (by rw [he]))

end Entries

namespace Domain

variable {d : Domain} {l : Entries}

/-! ### Operations of a domain and of its list -/

/-- To look into the index is to search the list. -/
theorem positions_eq (d : Domain) (a : Arguments) : d.positions[a]? = Entries.place? d.toList a :=
  Option.ext fun _ => positions_eq_some_iff.trans (Entries.place?_eq_some_iff d.nodup_toList).symm

theorem contains_eq (d : Domain) (a : Arguments) : d.contains a = Entries.has d.toList a := by
  rw [contains, Std.TreeMap.contains_eq_isSome_getElem?, positions_eq]
  exact List.findIdx?_isSome

theorem get?_eq (d : Domain) (a : Arguments) : d.get? a = Entries.atom? d.toList a := by
  rw [get?, positions_eq, Entries.atom?, List.find?_eq_bind_findIdx?_getElem?, Option.map_bind]
  simp only [getElem?_order]
  rfl

theorem insert_eq (d : Domain) (a : Arguments) (x : Atom) :
    ((d.insert a x).1, (d.insert a x).2.toList) = Entries.add d.toList a x := by
  rw [Entries.add, ← contains_eq, contains, Std.TreeMap.contains_eq_isSome_getElem?]
  cases hpos : d.positions[a]? with
  | none =>
    rw [toList_insert (get?_eq_none_iff.2 hpos), insert, dif_pos hpos]
    rfl
  | some i =>
    have hold : ¬ d.positions[a]? = none := by simp [hpos]
    rw [insert, dif_neg hold]
    rfl

theorem remove_eq (d : Domain) (a : Arguments) :
    ((d.remove a).1, (d.remove a).2.toList) = Entries.delete d.toList a := by
  have hplace : d.positions[a]? = d.toList.findIdx? (Entries.isOf a) := d.positions_eq a
  rw [Entries.delete, ← get?_eq, List.eraseP_eq_eraseIdx, ← hplace, remove_fst]
  cases hpos : d.positions[a]? with
  | none => rw [remove_of_get? (get?_eq_none_iff.2 hpos)]
  | some i => rw [toList_remove hpos]

/-! ### One request after the other -/

/-- What a domain answers, and what it is afterwards. -/
def serve (d : Domain) : Request → Answer × Domain
  | .insert a x => (.told (d.insert a x).1, (d.insert a x).2)
  | .remove a => (.found (d.remove a).1, (d.remove a).2)
  | .get a => (.found (d.get? a), d)
  | .contains a => (.told (d.contains a), d)

/-- The list of a domain answers for it. -/
theorem serve_toList (d : Domain) (r : Request) :
    Entries.serve d.toList r = ((d.serve r).1, (d.serve r).2.toList) := by
  cases r with
  | insert a x =>
    rw [Entries.serve, ← insert_eq]
    rfl
  | remove a =>
    rw [Entries.serve, ← remove_eq]
    rfl
  | get a =>
    rw [Entries.serve, ← get?_eq]
    rfl
  | contains a =>
    rw [Entries.serve, ← contains_eq]
    rfl

/-- The domain has the entries of the list in their order. No arguments stand there twice, and the
index has the place of each of them and of no others. -/
structure Mirrors (d : Domain) (l : Entries) : Prop where
  toList : d.toList = l
  nodup : (l.map Prod.fst).Nodup
  positions : ∀ a, d.positions[a]? = l.place? a

theorem mirrors_toList (d : Domain) : d.Mirrors d.toList := ⟨rfl, d.nodup_toList, d.positions_eq⟩

/-- A request is answered alike, and leads to what is alike. -/
theorem Mirrors.serve (h : d.Mirrors l) (r : Request) :
    (d.serve r).1 = (l.serve r).1 ∧ (d.serve r).2.Mirrors (l.serve r).2 := by
  obtain rfl := h.toList
  rw [serve_toList]
  exact ⟨rfl, mirrors_toList _⟩

theorem Mirrors.forall₂_trace (h : d.Mirrors l) (rs : List Request) :
    List.Forall₂ (fun own plain => own.1 = plain.1 ∧ own.2.Mirrors plain.2)
      (trace Domain.serve d rs) (trace Entries.serve l rs) := by
  induction rs generalizing d l with
  | nil => exact .nil
  | cons r rs ih =>
    have hstep := h.serve r
    exact .cons hstep (ih hstep.2)

/-- **A domain is a map that keeps the order of insertion.** Whatever is asked of a domain that is
empty at first, and in whatever order, each answer is that of a plain list which is empty at first;
and after each request the domain has the entries of the list in their order, where no arguments
stand twice, and its index has the place in the list of each of the arguments, and of no others. -/
theorem refines_entries (rs : List Request) :
    List.Forall₂ (fun own plain => own.1 = plain.1 ∧ own.2.Mirrors plain.2)
      (trace Domain.serve {} rs) (trace Entries.serve [] rs) :=
  Mirrors.forall₂_trace (mirrors_toList {}) rs

/-- What stood after arguments that are gone is found where it stands now. -/
example :
    let b := Arguments.one "b"
    let c := Arguments.one "c"
    (trace Domain.serve {} [.insert b 2, .insert (.one "a") 1, .insert b 3, .insert c 4, .remove b,
      .remove b, .get c, .insert b 5, .remove c, .get b]).map Prod.fst =
      [.told true, .told true, .told false, .told true, .found (some 2), .found none,
        .found (some 4), .told true, .found (some 4), .found (some 5)] := by
  decide +kernel

end Domain

end Storyworld
