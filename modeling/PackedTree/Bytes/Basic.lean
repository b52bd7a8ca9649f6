/-! # Byte strings

Every text, key, number and container of this library is in the end a list of bytes.  This
file fixes the type, the passage between bytes and text, and the alignment arithmetic that
the payload of a container obeys: `alignUp n a` is the least multiple of `a` that is at least
`n` (`dvd_alignUp`, `le_alignUp`, `alignUp_lt`). -/

namespace PackedTree

/-- A byte string. -/
abbrev Bytes := List UInt8

namespace Bytes

/-! ### Text -/

/-- The UTF-8 bytes of a text. -/
def ofText (s : String) : Bytes := s.toUTF8.data.toList

/-- The text whose UTF-8 bytes are given, if there is one. -/
def toText? (b : Bytes) : Option String := String.fromUTF8? ⟨b.toArray⟩

theorem toText?_ofText (s : String) : toText? (ofText s) = some s := by
  have h : (⟨s.toUTF8.data.toList.toArray⟩ : ByteArray) = s.toUTF8 := by simp
  simp only [toText?, ofText, h, String.fromUTF8?]
  split
  · rfl
  · exact absurd s.isValidUTF8 (by assumption)

/-! ### Alignment -/

/-- The least multiple of `align` that is at least `n`. -/
def alignUp (n align : Nat) : Nat := (n + align - 1) / align * align

/-- The number of bytes between `n` and the next multiple of `align`. -/
def padding (n align : Nat) : Nat := alignUp n align - n

theorem dvd_alignUp (n align : Nat) : align ∣ alignUp n align :=
  ⟨(n + align - 1) / align, Nat.mul_comm _ _⟩

theorem le_alignUp (n : Nat) {align : Nat} (h : 0 < align) : n ≤ alignUp n align := by
  have h₁ := Nat.div_add_mod (n + align - 1) align
  have h₂ := Nat.mod_lt (n + align - 1) h
  rw [Nat.mul_comm] at h₁
  simp only [alignUp]
  omega

theorem alignUp_lt (n : Nat) {align : Nat} (h : 0 < align) : alignUp n align < n + align := by
  have h₁ := Nat.div_mul_le_self (n + align - 1) align
  simp only [alignUp]
  omega

@[simp] theorem alignUp_one (n : Nat) : alignUp n 1 = n := by simp [alignUp]

end Bytes

end PackedTree
