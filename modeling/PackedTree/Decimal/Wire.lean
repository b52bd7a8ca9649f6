import PackedTree.Bytes.Reader
import PackedTree.Decimal.Basic

/-! # Decimals as bytes

A decimal is written as its scale in eight bytes followed by its digits as the shortest signed
integer.  Reading demands at least one byte of digits and a scale that can be stored, and it
accepts digits that were written with more bytes than needed. -/

namespace PackedTree.Decimal

def bytes (d : Decimal) : Bytes := Bytes.ofInt64 d.scale ++ Bytes.ofInt d.digits

/-- The bytes of the normalized decimal, the same for all decimals of one value. -/
def normalizedBytes (d : Decimal) : Bytes := d.normalized.bytes

/-- The decimal that bytes stand for. -/
def ofBytes? (b : Bytes) : Option Decimal :=
  if b.length ≤ 8 then none
  else
    let d : Decimal := ⟨Bytes.toInt (b.drop 8), Bytes.toInt64 (b.take 8)⟩
    if d.storable then some d else none

theorem ofBytes?_bytes {d : Decimal} (h : d.storable = true) : ofBytes? d.bytes = some d := by
  have hl : ¬ d.bytes.length ≤ 8 := by
    have := List.length_pos_iff.mpr (Bytes.ofInt_ne_nil d.digits)
    simp only [bytes, List.length_append, Bytes.length_ofInt64]
    omega
  have ht : d.bytes.take 8 = Bytes.ofInt64 d.scale := by
    simp [bytes, List.take_left']
  have hd : d.bytes.drop 8 = Bytes.ofInt d.digits := by
    simp [bytes, List.drop_left']
  simp [ofBytes?, hl, ht, hd, Bytes.toInt_ofInt, h]

end PackedTree.Decimal
