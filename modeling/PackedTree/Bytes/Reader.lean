import PackedTree.Bytes.LittleEndian

/-! # Reading out of a byte string

Bounds-checked random access.  Each operation names the range it wants; a range that runs
past the end is refused with an `Overrun`, which records the request and the size at hand.
`slice?_eq_ok_iff` says that a slice is returned exactly when its range lies inside. -/

namespace PackedTree

/-- A read of `len` bytes at `offset` that a byte string of `size` bytes cannot serve. -/
structure Overrun where
  offset : Nat
  len : Nat
  size : Nat
deriving DecidableEq, Repr

def Overrun.message (o : Overrun) : String :=
  s!"read of {o.len} bytes at offset {o.offset} runs past end of buffer ({o.size} bytes)"

namespace Bytes

/-- The `len` bytes at `offset`. -/
def slice? (b : Bytes) (offset len : Nat) : Except Overrun Bytes :=
  if offset + len ≤ b.length then .ok ((b.drop offset).take len)
  else .error ⟨offset, len, b.length⟩

/-- Everything from `offset` on. -/
def suffix? (b : Bytes) (offset : Nat) : Except Overrun Bytes :=
  if offset ≤ b.length then .ok (b.drop offset) else .error ⟨offset, 0, b.length⟩

/-- The 32-bit word at `offset`. -/
def word? (b : Bytes) (offset : Nat) : Except Overrun UInt32 :=
  (slice? b offset 4).map toWord

def int64? (b : Bytes) (offset : Nat) : Except Overrun Int64 :=
  (slice? b offset 8).map toInt64

theorem slice?_eq_ok_iff {b s : Bytes} {offset len : Nat} :
    slice? b offset len = .ok s ↔ offset + len ≤ b.length ∧ s = (b.drop offset).take len := by
  by_cases h : offset + len ≤ b.length <;> simp [slice?, h, eq_comm]

end Bytes

end PackedTree
