/-! # Exact decimal numbers

A `Decimal` is an integer of any size together with a scale; its value is
`digits * 10 ^ (-scale)`.  Different pairs may have the same value, so there are two notions
of sameness: `=` on the pairs, and `compare`, which orders by value.  `normalized` picks one
pair for each value. -/

namespace PackedTree

/-- The number `digits * 10 ^ (-scale)`. -/
structure Decimal where
  digits : Int
  scale : Int64
deriving DecidableEq, Repr

namespace Decimal

/-- An integer as a decimal of scale zero. -/
def ofInt (n : Int) : Decimal := ⟨n, 0⟩

/-- The largest scale, positive or negative, that a container can store. -/
def maxScale : Int := 16383

/-- Whether the scale is small enough to be stored. -/
def storable (d : Decimal) : Bool := -maxScale ≤ d.scale.toInt && d.scale.toInt ≤ maxScale

/-! ### Order by value -/

/-- The number of decimal digits of a natural; zero has one. -/
def digitCount (n : Nat) : Nat := (Nat.toDigits 10 n).length

/-- Orders `m * 10 ^ (-s)` and `n * 10 ^ (-t)` for positive `m` and `n`.  The position of the
leading digit decides; where it is the same, the scales are no further apart than the
lengths, and the digits are compared at the larger scale. -/
def compareMagnitude (m : Nat) (s : Int) (n : Nat) (t : Int) : Ordering :=
  (Ord.compare (digitCount m - s) (digitCount n - t)).then
    (Ord.compare (m * Nat.pow 10 (t - s).toNat) (n * Nat.pow 10 (s - t).toNat))

/-- Orders two decimals by value. -/
def compare (a b : Decimal) : Ordering :=
  if a.digits.sign = b.digits.sign then
    match a.digits with
    | .ofNat 0 => .eq
    | .ofNat m => compareMagnitude m a.scale.toInt b.digits.natAbs b.scale.toInt
    | .negSucc m => compareMagnitude b.digits.natAbs b.scale.toInt (m + 1) a.scale.toInt
  else Ord.compare a.digits.sign b.digits.sign

/-! ### One pair for each value -/

/-- Drops decimal zeros from the end of `digits`, as far as the scale reaches down. -/
def dropZeros (digits : Int) (scale : Int64) : Decimal :=
  if digits ≠ 0 ∧ digits % 10 = 0 ∧ scale ≠ Int64.minValue then
    dropZeros (digits / 10) (scale - 1)
  else ⟨digits, scale⟩
termination_by digits.natAbs
decreasing_by omega

/-- The decimal of the same value with no zero at the end of its digits. -/
def normalized (d : Decimal) : Decimal :=
  if d.digits = 0 then ⟨0, 0⟩ else dropZeros d.digits d.scale

end Decimal

end PackedTree
