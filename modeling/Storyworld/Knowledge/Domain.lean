import Std.Data.TreeMap
import Storyworld.Knowledge.Taxonomy
import Storyworld.Proposition

namespace Storyworld

/-!
# Arguments and domains

The arguments of a call are one entity or two. The domain of a predicate holds the
arguments it has been called on, each with the atom of the call, in the order of the
calls. Arguments are found through an index of their positions.
-/

inductive Arguments where
  | one (entity : String)
  | two (left right : String)
  deriving DecidableEq, Repr, Inhabited

namespace Arguments

/-- The arguments that a list of entities makes, if it has one or two. -/
def ofList? : List String → Option Arguments
  | [e] => some (.one e)
  | [l, r] => some (.two l r)
  | _ => none

def arity : Arguments → Nat
  | .one _ => 1
  | .two _ _ => 2

def subject : Arguments → String
  | .one e | .two e _ => e

def entities : Arguments → List String
  | .one e => [e]
  | .two l r => [l, r]

def terms (a : Arguments) : List Term := a.entities.map .entity

def text (a : Arguments) : String := String.intercalate ", " a.entities

theorem entities_injective {a b : Arguments} (h : a.entities = b.entities) : a = b := by
  cases a <;> cases b <;> simp_all [entities]

@[simp] theorem ofList?_entities (a : Arguments) : ofList? a.entities = some a := by
  cases a <;> rfl

/-- Arguments compare as the lists of their entities. -/
instance : Ord Arguments := ⟨compareOn entities⟩

instance : Std.TransOrd Arguments := inferInstanceAs <| Std.TransCmp (compareOn entities)

instance : Std.LawfulEqOrd Arguments where
  eq_of_compare h := entities_injective (Std.LawfulEqOrd.eq_of_compare (α := List String) h)

end Arguments

/-- The sorts that a predicate requires of its arguments. -/
inductive Signature where
  | unary (sort : Nat)
  | binary (left right : Nat)
  deriving DecidableEq, Repr, Inhabited

namespace Signature

def arity : Signature → Nat
  | .unary _ => 1
  | .binary _ _ => 2

def sorts : Signature → List SortId
  | .unary s => [s]
  | .binary l r => [l, r]

end Signature

theorem getElem?_emptyc_iff (a : Arguments) (i : Nat) :
    (∅ : Std.TreeMap Arguments Nat)[a]? = some i ↔
      (#[] : Array (Arguments × Nat))[i]?.map Prod.fst = some a := by
  simp

/-- Arguments with their atoms, in the order they were inserted, and the position of each. -/
structure Domain where
  order : Array (Arguments × Nat) := #[]
  positions : Std.TreeMap Arguments Nat := {}
  positions_iff : ∀ (a : Arguments) (i : Nat),
    positions[a]? = some i ↔ order[i]?.map Prod.fst = some a := by exact getElem?_emptyc_iff

namespace Domain

instance : Inhabited Domain := ⟨{}⟩

/-- The atom of the arguments, if they belong to the domain. -/
def get? (d : Domain) (a : Arguments) : Option Atom :=
  d.positions[a]?.bind fun i => d.order[i]?.map Prod.snd

def contains (d : Domain) (a : Arguments) : Bool := d.positions.contains a

def size (d : Domain) : Nat := d.order.size

def toList (d : Domain) : List (Arguments × Atom) := d.order.toList

theorem positions_lt {d : Domain} {a : Arguments} {i : Nat} (h : d.positions[a]? = some i) :
    i < d.order.size := by
  have := (d.positions_iff a i).1 h
  by_cases hi : i < d.order.size
  · exact hi
  · simp [Array.getElem?_eq_none (Nat.le_of_not_lt hi)] at this

/-- Inserts arguments as the last ones, unless they belong to the domain already. -/
def insert (d : Domain) (a : Arguments) (atom : Atom) : Bool × Domain :=
  if h : d.positions[a]? = none then
    (true,
      { order := d.order.push (a, atom)
        positions := d.positions.insert a d.order.size
        positions_iff := fun b i => by
          rw [Std.TreeMap.getElem?_insert, Array.getElem?_push]
          by_cases hab : a = b
          · subst hab
            simp only [Std.ReflCmp.compare_self, if_true, Option.some.injEq]
            constructor
            · rintro rfl; simp
            · intro hi
              split at hi
              · rename_i e; exact e.symm
              · rw [(d.positions_iff a i).2 hi] at h; cases h
          · rw [if_neg (fun e => hab (Std.LawfulEqOrd.eq_of_compare e))]
            split
            · rename_i e
              subst e
              constructor
              · intro hi; exact absurd (positions_lt hi) (Nat.lt_irrefl _)
              · intro hi; simp at hi; exact absurd hi hab
            · exact d.positions_iff b i })
  else (false, d)

/-- The position of an argument once the one at `removed` is gone. -/
def shift (removed i : Nat) : Nat := if removed < i then i - 1 else i

/-- Takes arguments out and gives their atom. The others keep their order. -/
def remove (d : Domain) (a : Arguments) : Option Atom × Domain :=
  match h : d.positions[a]? with
  | none => (none, d)
  | some i =>
    (d.get? a,
      { order := d.order.eraseIdx i (positions_lt h)
        positions := (d.positions.erase a).map fun _ j => shift i j
        positions_iff := fun b j => by
          rw [Std.TreeMap.getElem?_map, Std.TreeMap.getElem?_erase, Array.getElem?_eraseIdx]
          have ha := (d.positions_iff a i).1 h
          by_cases hab : a = b
          · subst hab
            simp only [Std.ReflCmp.compare_self, if_true, Option.map_none]
            constructor
            · intro e; cases e
            · intro e
              split at e
              · have := (d.positions_iff a j).2 e
                rw [h] at this; injection this; omega
              · have := (d.positions_iff a (j + 1)).2 e
                rw [h] at this; injection this; omega
          · rw [if_neg (fun e => hab (Std.LawfulEqOrd.eq_of_compare e))]
            constructor
            · intro e
              obtain ⟨k, hk, rfl⟩ := Option.map_eq_some_iff.1 e
              have hk' := (d.positions_iff b k).1 hk
              have hne : k ≠ i := by
                rintro rfl; rw [ha] at hk'; injection hk'; contradiction
              unfold shift
              split
              · rw [if_neg (by omega), show k - 1 + 1 = k by omega]; exact hk'
              · rw [if_pos (by omega)]; exact hk'
            · intro e
              split at e
              · rename_i hj
                refine Option.map_eq_some_iff.2 ⟨j, (d.positions_iff b j).2 e, ?_⟩
                unfold shift; rw [if_neg (by omega)]
              · rename_i hj
                refine Option.map_eq_some_iff.2 ⟨j + 1, (d.positions_iff b (j + 1)).2 e, ?_⟩
                unfold shift; rw [if_pos (by omega)]; omega })

end Domain

end Storyworld
