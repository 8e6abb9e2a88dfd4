namespace Storyworld

/-!
# Random draws

A source of random words is a state with a step. Everything random is drawn from such
a source, so the same source gives the same decisions:

* `coin p` is true with probability `p`, from one 64-bit word; a sure thing draws nothing.
* `below n` is a number below `n`, from 32-bit words. A word is refused when it would
  make some numbers more likely than others, and the next one is tried.
* `pick` keeps the item at position `k`, counted from 1, with probability `1 / k`, so in
  the end every item is equally likely.
-/

/-- A state that gives out 32-bit words. -/
class RandomSource (ρ : Type) where
  next : ρ → UInt32 × ρ

namespace RandomSource

variable {ρ : Type} [RandomSource ρ]

/-- A 64-bit word from two words, the first being the lower half. -/
def next64 (r : ρ) : UInt64 × ρ :=
  let (low, r) := next r
  let (high, r) := next r
  (high.toUInt64 <<< 32 ||| low.toUInt64, r)

/-- The first `count` bytes of a word, lowest first. -/
def leadingBytes (word : UInt64) (count : Nat) : List UInt8 :=
  (List.range count).map fun i => (word >>> (8 * i).toUInt64).toUInt8

/-- That many random bytes: eight from each 64-bit word, and the last four or fewer from
one 32-bit word. -/
def bytes : Nat → ρ → List UInt8 × ρ
  | 0, r => ([], r)
  | n + 1, r =>
    if n + 1 ≤ 4 then
      let (word, r) := next r
      (leadingBytes word.toUInt64 (n + 1), r)
    else
      let (word, r) := next64 r
      let (rest, r) := bytes (n + 1 - 8) r
      (leadingBytes word (min (n + 1) 8) ++ rest, r)
termination_by n => n
decreasing_by exact Nat.sub_lt (Nat.succ_pos _) (Nat.succ_pos _)

/-- Two to the 64th. -/
def wordSpan : Float := 18446744073709551616

/-- True with the probability given. -/
def coin (p : Float) (r : ρ) : Bool × ρ :=
  if p == 1 then (true, r)
  else
    let (word, r) := next64 r
    (decide (word < (p * wordSpan).toUInt64), r)

/-- The greatest low half of a product with `n` for which a word is taken. -/
def zone (n : Nat) : Nat := n * Nat.pow 2 (32 - (n.log2 + 1)) - 1

/-- The number below `n` that a word stands for, unless the word is refused. -/
def accept? (n : Nat) (word : UInt32) : Option Nat :=
  let product := word.toNat * n
  if product % Nat.pow 2 32 ≤ zone n then some (product / Nat.pow 2 32) else none

/-- A number below `n`, if one of the next `tries` words is taken. -/
def belowWithin? (n : Nat) : Nat → ρ → Option Nat × ρ
  | 0, r => (none, r)
  | tries + 1, r =>
    let (word, r) := next r
    match accept? n word with
    | some k => (some k, r)
    | none => belowWithin? n tries r

/-- The number of words after which a draw gives up. A generator with 64 bits of state
has shown all of them by then. -/
def patience : Nat := Nat.pow 2 64

/-- A number below `n`. -/
def below (n : Nat) (r : ρ) : Nat × ρ :=
  let (k, r) := belowWithin? n patience r
  (k.getD 0, r)

/-- Goes on picking from a list when `count` items have been seen and `kept` is kept. -/
def pickFrom {α : Type} (count : Nat) (kept : Option α) : List α → ρ → Option α × ρ
  | [], r => (kept, r)
  | x :: xs, r =>
    let (k, r) := below (count + 1) r
    pickFrom (count + 1) (if k = 0 then some x else kept) xs r

/-- An item of a list, every one being equally likely. -/
def pick {α : Type} (xs : List α) (r : ρ) : Option α × ρ := pickFrom 0 none xs r

end RandomSource

end Storyworld
