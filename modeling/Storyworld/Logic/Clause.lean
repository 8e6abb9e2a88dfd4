import Storyworld.Logic.Valuation

namespace Storyworld

/-!
# Clauses

A clause is a list of literals, read as their disjunction. `Clause.canonical` puts
the literals in increasing order without repeats, so that two clauses with the same
literals are equal; `Clause.standing` is what a valuation makes of a clause.
-/

/-- A disjunction of literals. The empty clause is false. -/
abbrev Clause := List Literal

namespace Clause

def text (c : Clause) : String := String.intercalate " " (c.map Literal.text)

/-- Puts a literal into an ordered clause at its place, unless it is there already. -/
def insert (l : Literal) : Clause → Clause
  | [] => [l]
  | m :: c =>
    if l.index < m.index then l :: m :: c
    else if l = m then m :: c
    else m :: insert l c

/-- The same literals in increasing order, each once. -/
def canonical (c : Clause) : Clause := c.foldr insert []

/-- Whether two literals next to each other have the same atom. In a canonical clause
these are a literal and its negation, and the clause is a tautology. -/
def clashes : Clause → Bool
  | l :: m :: c => l.atom == m.atom || clashes (m :: c)
  | _ => false

/-- What a valuation makes of a clause. -/
inductive Standing where
  /-- Some literal is true, or two or more have no value. -/
  | settled
  /-- One literal has no value and the others are false, so that literal has to be true. -/
  | forces (l : Literal)
  /-- Every literal is false. -/
  | falsified
  deriving DecidableEq, Repr

/-- The standing of a clause whose literals so far were false, but for `candidate`. -/
def standingFrom (v : Valuation) (candidate : Option Literal) : Clause → Standing
  | [] =>
    match candidate with
    | none => .falsified
    | some l => .forces l
  | l :: c =>
    match v.value? l.atom, candidate with
    | some b, _ => if b = l.positive then .settled else standingFrom v candidate c
    | none, none => standingFrom v (some l) c
    | none, some _ => .settled

def standing (v : Valuation) (c : Clause) : Standing := standingFrom v none c

/-- The literal that has to be true, if the valuation leaves one such literal. -/
def asserts (v : Valuation) (c : Clause) : Option Literal :=
  match c.standing v with
  | .forces l => some l
  | _ => none

/-! ### Canonical clauses -/

theorem mem_insert {l m : Literal} {c : Clause} : m ∈ insert l c ↔ m = l ∨ m ∈ c := by
  induction c with
  | nil => simp [insert]
  | cons x c ih =>
    unfold insert
    split
    · simp
    · split
      · rename_i h; subst h; simp
      · simp only [List.mem_cons, ih]; grind

@[simp] theorem mem_canonical {l : Literal} {c : Clause} : l ∈ c.canonical ↔ l ∈ c := by
  induction c with
  | nil => simp [canonical]
  | cons x c ih =>
    have h : canonical (x :: c) = insert x (canonical c) := rfl
    rw [h, mem_insert, ih, List.mem_cons]

/-- The literals of a clause stand in increasing order, each once. -/
def Increasing (c : Clause) : Prop := c.Pairwise fun l m => l.index < m.index

theorem increasing_insert {l : Literal} {c : Clause} (h : c.Increasing) :
    Increasing (insert l c) := by
  induction c with
  | nil => simp [insert, Increasing]
  | cons x c ih =>
    have hx : ∀ m ∈ c, x.index < m.index := (List.pairwise_cons.1 h).1
    have hc : Increasing c := (List.pairwise_cons.1 h).2
    unfold insert
    split
    · rename_i hlt
      refine List.pairwise_cons.2 ⟨fun m hm => ?_, h⟩
      rcases List.mem_cons.1 hm with rfl | hm
      · exact hlt
      · exact Nat.lt_trans hlt (hx m hm)
    · split
      · exact h
      · rename_i hnlt hne
        refine List.pairwise_cons.2 ⟨fun m hm => ?_, ih hc⟩
        rcases mem_insert.1 hm with rfl | hm
        · have : x.index ≠ m.index := fun e => hne (Literal.index_injective e).symm
          omega
        · exact hx m hm

theorem increasing_canonical (c : Clause) : Increasing c.canonical := by
  induction c with
  | nil => simp [canonical, Increasing]
  | cons x c ih => exact increasing_insert ih

end Clause

end Storyworld
