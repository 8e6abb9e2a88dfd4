import Storyworld.Solver.Assert

namespace Storyworld

/-!
# Bounds on the number of true literals

At most none: the negation of each literal. At most one: for each two literals, not
both. For a larger bound `k` a counter runs along the literals: after each literal but
the last, `k` auxiliary atoms are the registers of the count so far, the `j`-th being
true if at least `j` literals are. A literal raises the count, registers keep it, and
a literal after which the count would pass `k` is false.
-/

namespace Solver

variable {ρ : Type}

/-- Asserts clauses one after the other, up to one that is refused. -/
def addClauses (cs : List Clause) : EStateM Error (Solver ρ) Unit :=
  cs.forM fun c => do let _ ← addClause c

/-- New atoms without names, as positive literals. -/
def registers : Nat → EStateM Error (Solver ρ) (List Literal)
  | 0 => pure []
  | n + 1 => do
    let a ← modifyGet auxiliary
    let rest ← registers n
    return Literal.pos a :: rest

/-- For each two literals of the list, the clause that not both are true. -/
def pairwise : List Literal → List Clause
  | [] => []
  | l :: ls => ls.map (fun m => [l.negate, m.negate]) ++ pairwise ls

/-- The clauses of the counter at its first literal: it raises the first register, and no
other register is true. -/
def firstCount (x : Literal) (now : List Literal) : List Clause :=
  (now.take 1).map (fun r => [x.negate, r]) ++ (now.drop 1).map fun r => [r.negate]

/-- The clauses that keep each register, and raise the one after it at a true literal. The
register before is given with the pairs of registers that are left. -/
def carry (x : Literal) (before : Literal) : List (Literal × Literal) → List Clause
  | [] => []
  | (p, r) :: rest => [p.negate, r] :: [x.negate, before.negate, r] :: carry x p rest

/-- The clauses of the counter at a literal after the first: the registers before and after
it, and the refusal of the literal when the last register before it is true. -/
def nextCount (x : Literal) (before now : List Literal) : List Clause :=
  match before.zip now with
  | [] => []
  | (p, r) :: rest =>
    [x.negate, r] :: [p.negate, r] :: carry x p rest ++
      (before.drop (before.length - 1)).map fun full => [x.negate, full.negate]

/-- Runs the counter along literals, from the registers before the first of them; `none`
stands for the start. The last literal needs no registers of its own. -/
def countAlong (bound : Nat) : Option (List Literal) → List Literal → EStateM Error (Solver ρ) Unit
  | _, [] => pure ()
  | before, [x] =>
    addClauses <| ((before.getD []).drop ((before.getD []).length - 1)).map
      fun full => [x.negate, full.negate]
  | before, x :: xs => do
    let now ← registers bound
    addClauses <| match before with
      | none => firstCount x now
      | some before => nextCount x before now
    countAlong bound (some now) xs

/-- Asserts that at most `bound` of the literals are true, equal ones counted once. -/
def addAtMost (bound : Nat) (ls : List Literal) : EStateM Error (Solver ρ) Unit :=
  let ls := Clause.canonical ls
  if ls.length ≤ bound then pure ()
  else
    match bound with
    | 0 => addClauses (ls.map fun l => [l.negate])
    | 1 => addClauses (pairwise ls)
    | bound => countAlong bound none ls

/-- Asserts that exactly one of the literals is true, equal ones counted once. -/
def unique (ls : List Literal) : EStateM Error (Solver ρ) Unit := do
  assert (.clause ls)
  addAtMost 1 ls

end Solver

end Storyworld
