/-! # Numbers in documents

A numeral keeps a number as a JSON text spells it: a sign, a whole part without leading zeros,
the digits after the point, and an exponent.  Only the case of the exponent's letter and a
missing plus sign are not kept; they are always written `e` and `+`.

`Numeral.read?` takes the longest numeral from the front of a text.  What cannot be continued
to a numeral is refused, and so is a leading zero before another digit. -/

namespace PackedTree

/-- An exponent: its sign and its digits, of which there is at least one. -/
structure Exponent where
  negative : Bool
  first : Fin 10
  others : List (Fin 10)
deriving DecidableEq, Repr

/-- A number as it is spelled. -/
structure Numeral where
  negative : Bool
  whole : Nat
  /-- The digits after the point; none if there is no point. -/
  fraction : List (Fin 10)
  exponent : Option Exponent
deriving DecidableEq, Repr

namespace Numeral

/-! ### Writing -/

/-- The characters of digits. -/
def digitChars (ds : List (Fin 10)) : List Char := ds.map fun d => Nat.digitChar d.val

def exponentChars (e : Exponent) : List Char :=
  'e' :: (if e.negative then '-' else '+') :: digitChars (e.first :: e.others)

def chars (n : Numeral) : List Char :=
  (if n.negative then ['-'] else []) ++
    (Nat.toDigits 10 n.whole ++
      ((if n.fraction.isEmpty then [] else '.' :: digitChars n.fraction) ++
        match n.exponent with
        | none => []
        | some e => exponentChars e))

def text (n : Numeral) : String := String.ofList n.chars

/-! ### Reading -/

def isDigit (c : Char) : Bool := '0' ≤ c && c ≤ '9'

/-- The digit that a character stands for. -/
def digit (c : Char) : Fin 10 := Fin.ofNat 10 (c.toNat - '0'.toNat)

/-- The digits at the front of a text, and the rest. -/
def readDigits (cs : List Char) : List (Fin 10) × List Char :=
  ((cs.takeWhile isDigit).map digit, cs.dropWhile isDigit)

/-- The number that digits spell. -/
def ofDigits (ds : List (Fin 10)) : Nat := ds.foldl (fun n d => 10 * n + d.val) 0

/-- The part before the point. -/
def readWhole (cs : List Char) : Option (Nat × List Char) :=
  match readDigits cs with
  | ([], _) => none
  | (d :: ds, rest) => if d = 0 ∧ ds ≠ [] then none else some (ofDigits (d :: ds), rest)

/-- The point and the digits after it, if there is a point. -/
def readFraction (cs : List Char) : Option (List (Fin 10) × List Char) :=
  match cs with
  | '.' :: cs =>
      match readDigits cs with
      | ([], _) => none
      | r => some r
  | cs => some ([], cs)

/-- An optional sign: whether it is a minus, and the rest. -/
def readSign (cs : List Char) : Bool × List Char :=
  match cs with
  | '-' :: cs => (true, cs)
  | '+' :: cs => (false, cs)
  | cs => (false, cs)

/-- The exponent, if there is one. -/
def readExponent (cs : List Char) : Option (Option Exponent × List Char) :=
  match cs with
  | [] => some (none, [])
  | c :: rest =>
      if c = 'e' ∨ c = 'E' then
        let (negative, rest) := readSign rest
        match readDigits rest with
        | ([], _) => none
        | (d :: ds, rest) => some (some ⟨negative, d, ds⟩, rest)
      else some (none, c :: rest)

/-- The longest numeral at the front of a text, and the rest. -/
def read? (cs : List Char) : Option (Numeral × List Char) :=
  let (negative, cs) :=
    match cs with
    | '-' :: cs => (true, cs)
    | cs => (false, cs)
  do
    let (whole, cs) ← readWhole cs
    let (fraction, cs) ← readFraction cs
    let (exponent, cs) ← readExponent cs
    some (⟨negative, whole, fraction, exponent⟩, cs)

/-- The numeral that a whole text spells. -/
def ofChars? (cs : List Char) : Option Numeral :=
  match read? cs with
  | some (n, []) => some n
  | _ => none

end Numeral

end PackedTree
