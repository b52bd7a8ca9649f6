import PackedTree.Decimal.Basic

/-! # Reading decimal text

The text of a decimal is a base, which may hold one point, optionally followed by `e` or `E`
and an exponent.  `Decimal.read` finds the faults of a text in a fixed order: the exponent is
read first; then the base must not be empty; then the scale that point and exponent give must
fit 64 bits; then the digits of the base, taken without the point, must form an integer; and
last the scale must be one that a container can store.  Underscores between digits are
ignored. -/

namespace PackedTree.Decimal

/-- Why a text is no integer. -/
inductive IntegerFault where
  | empty
  | invalidDigit
  | tooLarge
  | tooSmall
deriving DecidableEq, Repr

def IntegerFault.message : IntegerFault → String
  | .empty => "cannot parse integer from empty string"
  | .invalidDigit => "invalid digit found in string"
  | .tooLarge => "number too large to fit in target type"
  | .tooSmall => "number too small to fit in target type"

/-- Why a text is no decimal. -/
inductive ReadFault where
  | empty
  | exponent (cause : IntegerFault)
  | digits (cause : IntegerFault)
  | scaleOverflow (text : String)
  | scaleOutOfRange (text : String)
deriving DecidableEq, Repr

def ReadFault.message : ReadFault → String
  | .empty => "Failed to parse empty string"
  | .exponent cause => cause.message
  | .digits cause => cause.message
  | .scaleOverflow text => s!"Exponent overflow when parsing '{text}'"
  | .scaleOutOfRange text => "scale of \"" ++ text ++ "\" out of range"

/-! ### Integers -/

/-- The value of a decimal digit. -/
def digit? (c : Char) : Option Nat :=
  if '0' ≤ c ∧ c ≤ '9' then some (c.toNat - '0'.toNat) else none

/-- Reads digits onto `acc`, failing with `fault` as soon as the value exceeds `bound`. -/
def readBounded (bound : Nat) (fault : IntegerFault) : Nat → List Char → Except IntegerFault Nat
  | acc, [] => .ok acc
  | acc, c :: cs =>
      match digit? c with
      | none => .error .invalidDigit
      | some d =>
          if 10 * acc + d ≤ bound then readBounded bound fault (10 * acc + d) cs
          else .error fault

/-- Reads an exponent: an optional sign and digits, within 128 signed bits. -/
def readExponent : List Char → Except IntegerFault Int
  | [] => .error .empty
  | ['+'] => .error .invalidDigit
  | ['-'] => .error .invalidDigit
  | '+' :: cs => (readBounded ((1 <<< 127) - 1) .tooLarge 0 cs).map Int.ofNat
  | '-' :: cs => (readBounded (1 <<< 127) .tooSmall 0 cs).map fun n => -Int.ofNat n
  | cs => (readBounded ((1 <<< 127) - 1) .tooLarge 0 cs).map Int.ofNat

/-- Reads digits onto `acc`, skipping underscores. -/
def readSpaced : Nat → List Char → Except IntegerFault Nat
  | acc, [] => .ok acc
  | acc, c :: cs =>
      if c = '_' then readSpaced acc cs
      else
        match digit? c with
        | none => .error .invalidDigit
        | some d => readSpaced (10 * acc + d) cs

/-- Removes a sign, unless a plus follows it. -/
def dropSign (sign : Char) (cs : List Char) : List Char :=
  match cs with
  | [] => []
  | c :: rest => if c = sign ∧ rest.head? ≠ some '+' then rest else c :: rest

/-- Reads digits of any number, which must not begin with an underscore. -/
def readNatural (cs : List Char) : Except IntegerFault Nat :=
  match dropSign '+' cs with
  | [] => .error .empty
  | '_' :: _ => .error .invalidDigit
  | cs => readSpaced 0 cs

/-- Reads an integer of any size. -/
def readInteger (cs : List Char) : Except IntegerFault Int :=
  match cs with
  | '-' :: _ => (readNatural (dropSign '-' cs)).map fun n => -Int.ofNat n
  | cs => (readNatural cs).map Int.ofNat

/-! ### Decimals -/

/-- Whether a character opens the exponent. -/
def opensExponent (c : Char) : Bool := c == 'e' || c == 'E'

/-- The base and the exponent of a text; without `e` the exponent is zero. -/
def splitExponent (cs : List Char) : Except ReadFault (List Char × Int) :=
  match cs.dropWhile (!opensExponent ·) with
  | [] => .ok (cs, 0)
  | _ :: exponent =>
      match readExponent exponent with
      | .ok e => .ok (cs.takeWhile (!opensExponent ·), e)
      | .error f => .error (.exponent f)

/-- The digits of a base without its first point, and the number of them after the point. -/
def splitPoint (base : List Char) : List Char × Nat :=
  match base.dropWhile (· != '.') with
  | [] => (base, 0)
  | _ :: trail => (base.takeWhile (· != '.') ++ trail, (trail.filter (· != '_')).length)

/-- An integer as a signed 64-bit scale. -/
def scale? (s : Int) : Option Int64 :=
  if Int64.minValue.toInt ≤ s ∧ s ≤ Int64.maxValue.toInt then some (Int64.ofInt s) else none

def read (text : String) : Except ReadFault Decimal := do
  let (base, exponent) ← splitExponent text.toList
  if base.isEmpty then .error .empty
  let (digits, places) := splitPoint base
  match scale? (places - exponent) with
  | none => .error (.scaleOverflow text)
  | some scale =>
      match readInteger digits with
      | .error f => .error (.digits f)
      | .ok n =>
          if storable ⟨n, scale⟩ then .ok ⟨n, scale⟩ else .error (.scaleOutOfRange text)

end PackedTree.Decimal
