import PackedTree.Decimal.Basic

/-! # Decimal text

`Decimal.text` writes a decimal with exactly its digits.  A scale that would put more than
five zeros between the point and the first digit gives scientific notation with one digit
before the point; more than fifteen zeros to append gives the digits and an exponent; all
other decimals are written positionally. -/

namespace PackedTree.Decimal

/-- The most zeros written between the point and the first digit. -/
def maxLeadingZeros : Int := 5

/-- The most zeros written after the last digit. -/
def maxTrailingZeros : Int := 15

/-- An exponent with its sign. -/
def exponentChars (x : Int) : List Char :=
  (if x < 0 then '-' else '+') :: Nat.toDigits 10 x.natAbs

/-- One digit, a point and the other digits; no point if there are no others. -/
def pointAfterFirst : List Char → List Char
  | [] => []
  | [c] => [c]
  | c :: cs => c :: '.' :: cs

/-- The text of digits with no sign at a scale. -/
def unsignedChars (digits : List Char) (scale : Int) : List Char :=
  let len : Int := digits.length
  if maxLeadingZeros < scale - len then
    pointAfterFirst digits ++ 'E' :: exponentChars (len - scale - 1)
  else if maxTrailingZeros < -scale then digits ++ 'e' :: exponentChars (-scale)
  else if scale ≤ 0 then digits ++ List.replicate (-scale).toNat '0'
  else if scale < len then
    digits.take (len - scale).toNat ++ '.' :: digits.drop (len - scale).toNat
  else '0' :: '.' :: (List.replicate (scale - len).toNat '0' ++ digits)

def chars (d : Decimal) : List Char :=
  let body := unsignedChars (Nat.toDigits 10 d.digits.natAbs)
    (if d.digits = 0 then 0 else d.scale.toInt)
  if d.digits < 0 then '-' :: body else body

def text (d : Decimal) : String := String.ofList d.chars

end PackedTree.Decimal
