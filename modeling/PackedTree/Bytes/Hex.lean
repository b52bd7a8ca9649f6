import PackedTree.Bytes.Basic

/-! # Hexadecimal text

Two digits a byte, high half first.  Writing uses lower-case digits; reading accepts both
cases and refuses an odd number of digits. -/

namespace PackedTree.Hex

/-- The digits of a byte string. -/
def encode (b : Bytes) : List Char :=
  b.flatMap fun x => [Nat.digitChar (x.toNat / 16), Nat.digitChar (x.toNat % 16)]

/-- The value of a hexadecimal digit. -/
def digit? (c : Char) : Option Nat :=
  if '0' ≤ c ∧ c ≤ '9' then some (c.toNat - '0'.toNat)
  else if 'a' ≤ c ∧ c ≤ 'f' then some (c.toNat - 'a'.toNat + 10)
  else if 'A' ≤ c ∧ c ≤ 'F' then some (c.toNat - 'A'.toNat + 10)
  else none

/-- The bytes that a sequence of digits stands for. -/
def decode? : List Char → Option Bytes
  | [] => some []
  | [_] => none
  | hi :: lo :: rest =>
      match digit? hi, digit? lo, decode? rest with
      | some h, some l, some b => some (UInt8.ofNat (16 * h + l) :: b)
      | _, _, _ => none

def text (b : Bytes) : String := String.ofList (encode b)

theorem digit?_digitChar : ∀ n < 16, digit? (Nat.digitChar n) = some n := by decide

theorem decode?_encode (b : Bytes) : decode? (encode b) = some b := by
  induction b with
  | nil => rfl
  | cons x xs ih =>
      have hx : x.toNat < 256 := x.toNat_lt
      have hs : encode (x :: xs) =
          Nat.digitChar (x.toNat / 16) :: Nat.digitChar (x.toNat % 16) :: encode xs := rfl
      have hd : 16 * (x.toNat / 16) + x.toNat % 16 = x.toNat := by omega
      rw [hs, decode?, digit?_digitChar _ (by omega), digit?_digitChar _ (by omega), ih]
      simp [hd]

end PackedTree.Hex
