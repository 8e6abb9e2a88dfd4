import Storyworld.Text.Json

namespace Storyworld

/-!
# Propositions

A proposition is a bare word or a predicate called on terms. A term is an entity or
a sort; a sort as an argument is read as "some member of the sort", and its text has
a section sign in front, so that it differs from an entity of the same spelling.

Propositions are ordered: words before calls, calls by predicate and then by their
arguments from the left, entities before sorts, and names by code point.
-/

/-- An argument of a call. -/
inductive Term where
  | entity (name : String)
  | sort (name : String)
  deriving DecidableEq, Repr, Inhabited

namespace Term

def name : Term → String
  | .entity n | .sort n => n

def isSort : Term → Bool
  | .entity _ => false
  | .sort _ => true

/-- The name, after a section sign for a sort. -/
def text : Term → String
  | .entity n => n
  | .sort n => "§" ++ n

def toJson (t : Term) : Json :=
  .obj [("kind", .str (if t.isSort then "sort" else "entity")), ("name", .str t.name)]

/-- What terms are compared by. -/
def key : Term → Nat × String
  | .entity n => (0, n)
  | .sort n => (1, n)

theorem key_injective {s t : Term} (h : s.key = t.key) : s = t := by
  cases s <;> cases t <;> simp [key] at h <;> simp [h]

end Term

/-- A predicate, by name, together with the terms it is called on. -/
structure Call where
  predicate : String
  args : List Term
  deriving DecidableEq, Repr, Inhabited

namespace Call

def subject? (c : Call) : Option Term := c.args.head?

/-- The predicate and its arguments between parentheses. -/
def text (c : Call) : String :=
  c.predicate ++ "(" ++ String.intercalate ", " (c.args.map Term.text) ++ ")"

end Call

/-- The name of an atom that stands for something said about the world. -/
inductive Proposition where
  | word (w : String)
  | call (c : Call)
  deriving DecidableEq, Repr, Inhabited

namespace Proposition

def ofEntities (predicate : String) (entities : List String) : Proposition :=
  .call ⟨predicate, entities.map .entity⟩

def ofSort (predicate : String) (sort : String) : Proposition := .call ⟨predicate, [.sort sort]⟩

def text : Proposition → String
  | .word w => w
  | .call c => c.text

/-- The word as a string, or the call as an object with its predicate and arguments. -/
def toJson : Proposition → Json
  | .word w => .str w
  | .call c => .obj [("predicate", .str c.predicate), ("args", .arr (c.args.map Term.toJson))]

/-- What propositions are compared by. -/
def key : Proposition → List (Nat × String)
  | .word w => [(0, w)]
  | .call c => (1, c.predicate) :: c.args.map Term.key

theorem key_injective {p q : Proposition} (h : p.key = q.key) : p = q := by
  cases p with
  | word w => cases q <;> simp [key] at h; simp [h]
  | call c =>
    cases q with
    | word w => simp [key] at h
    | call d =>
      simp only [key, List.cons.injEq, Prod.mk.injEq, true_and] at h
      have hargs : c.args = d.args := List.map_inj_right (fun _ _ => Term.key_injective) |>.1 h.2
      cases c; cases d; simp_all

/-- Keys compare entry by entry, an entry by its number and then by its name. -/
def compareKeys : List (Nat × String) → List (Nat × String) → Ordering :=
  List.compareLex (compareLex (compareOn Prod.fst) (compareOn Prod.snd))

instance : Std.TransCmp compareKeys := by unfold compareKeys; infer_instance

theorem eq_of_compareKeys {k l : List (Nat × String)} (h : compareKeys k l = .eq) : k = l := by
  induction k generalizing l with
  | nil => exact (List.compareLex_nil_left_eq_eq.1 h).symm
  | cons x k ih =>
    cases l with
    | nil => exact List.compareLex_nil_right_eq_eq.1 h
    | cons y l =>
      simp only [compareKeys, List.compareLex_cons_cons, Ordering.then_eq_eq, compareLex_eq_eq,
        compareOn, Std.LawfulEqOrd.compare_eq_iff_eq] at h
      rw [Prod.ext h.1.1 h.1.2, ih h.2]

instance : Ord Proposition := ⟨fun p q => compareKeys p.key q.key⟩

instance : Std.TransOrd Proposition where
  eq_swap {p q} :=
    show compareKeys p.key q.key = (compareKeys q.key p.key).swap from Std.OrientedCmp.eq_swap
  isLE_trans {p q r} :=
    show (compareKeys p.key q.key).isLE → (compareKeys q.key r.key).isLE →
      (compareKeys p.key r.key).isLE from Std.TransCmp.isLE_trans

instance : Std.LawfulEqOrd Proposition where
  compare_self {p} := show compareKeys p.key p.key = .eq from Std.ReflCmp.compare_self
  eq_of_compare h := key_injective (eq_of_compareKeys h)

end Proposition

end Storyworld
