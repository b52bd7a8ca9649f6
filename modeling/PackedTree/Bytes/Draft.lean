import PackedTree.Bytes.LittleEndian

/-! # Byte strings under construction

A `Draft` grows at its end.  Besides plain appends it can set aside a run of zero bytes whose
content is not known yet (`reserve`, `padTo`) and later fill in one word of it (`patch?`).
Only `patch?` touches bytes that are already there, and it keeps the size
(`size_of_patch?`). -/

namespace PackedTree

/-- A byte string that is still being written. -/
structure Draft where
  bytes : Bytes
deriving DecidableEq, Repr

namespace Draft

def empty : Draft := ⟨[]⟩

def size (d : Draft) : Nat := d.bytes.length

def append (d : Draft) (b : Bytes) : Draft := ⟨d.bytes ++ b⟩

def word (d : Draft) (w : UInt32) : Draft := d.append (Bytes.ofWord w)

def int64 (d : Draft) (i : Int64) : Draft := d.append (Bytes.ofInt64 i)

/-- Writes `len` zero bytes and tells where they begin. -/
def reserve (d : Draft) (len : Nat) : Nat × Draft :=
  (d.size, d.append (List.replicate len 0))

/-- Writes zero bytes up to a multiple of `align` and tells how many. -/
def padTo (d : Draft) (align : Nat) : Nat × Draft :=
  (Bytes.padding d.size align, d.append (List.replicate (Bytes.padding d.size align) 0))

/-- Overwrites the word at `offset`, which must already be there. -/
def patch? (d : Draft) (offset : Nat) (w : UInt32) : Option Draft :=
  if offset + 4 ≤ d.size then
    some ⟨d.bytes.take offset ++ Bytes.ofWord w ++ d.bytes.drop (offset + 4)⟩
  else none

@[simp] theorem size_append (d : Draft) (b : Bytes) : (d.append b).size = d.size + b.length := by
  simp [size, append]

theorem size_of_patch? {d e : Draft} {offset : Nat} {w : UInt32} (h : d.patch? offset w = some e) :
    e.size = d.size := by
  simp only [patch?] at h
  split at h
  · next hl =>
      cases h
      simp only [size] at hl ⊢
      simp
      omega
  · cases h

end Draft

end PackedTree
