import PackedTree.Fault
import PackedTree.Limits

/-! # Headers

The first word of a container holds its shape in the four high bits and the number of its
children in the others.  A raw container is the one-element array around a bare scalar.

`ofWord_toWord` and `toWord_ofWord` say that the accepted words and the headers are the same
thing. -/

namespace PackedTree

/-- The three shapes of containers. -/
inductive Shape where
  | raw
  | array
  | object
deriving DecidableEq, Repr

/-- The high bits of a header. -/
def Shape.code : Shape → Nat
  | .raw => 5
  | .array => 4
  | .object => 2

/-- The fault of a container that becomes too large in bytes. -/
def Shape.tooLarge : Shape → Fault
  | .raw | .array => .arrayTooLarge maxField
  | .object => .objectTooLarge maxField

/-- The shape and the number of children of a container; for an object, of its pairs. -/
structure Header where
  shape : Shape
  len : Nat
  len_le : len ≤ maxChildren
  len_raw : shape = .raw → len = 1
deriving DecidableEq, Repr

namespace Header

/-- The number of descriptors: two for each pair of an object. -/
def entryCount (h : Header) : Nat := if h.shape = .object then 2 * h.len else h.len

/-- The packed form. -/
def toWord (h : Header) : UInt32 := UInt32.ofNat (fieldSpan * h.shape.code + h.len)

theorem mod_le_maxChildren (w : UInt32) : w.toNat % fieldSpan ≤ maxChildren :=
  Nat.le_pred_of_lt (Nat.mod_lt _ (by decide))

/-- The header packed into a word. -/
def ofWord (w : UInt32) : Except Fault Header :=
  have hl := mod_le_maxChildren w
  match w.toNat / fieldSpan with
  | 2 => .ok ⟨.object, w.toNat % fieldSpan, hl, by simp⟩
  | 4 => .ok ⟨.array, w.toNat % fieldSpan, hl, by simp⟩
  | 5 =>
      if h : w.toNat % fieldSpan = 1 then .ok ⟨.raw, w.toNat % fieldSpan, hl, fun _ => h⟩
      else .error (.invalidHeader w)
  | _ => .error (.invalidHeader w)

theorem toNat_toWord (h : Header) : h.toWord.toNat = fieldSpan * h.shape.code + h.len := by
  have hl := h.len_le
  have hc : h.shape.code < 8 := by cases h.shape <;> decide
  rw [maxChildren, fieldSpan_eq] at hl
  simp only [toWord, fieldSpan_eq, UInt32.toNat_ofNat']
  omega

@[simp] theorem ofWord_toWord (h : Header) : ofWord h.toWord = .ok h := by
  obtain ⟨shape, len, hl, hr⟩ := h
  rw [maxChildren, fieldSpan_eq] at hl
  have hw := toNat_toWord ⟨shape, len, hl, hr⟩
  generalize (⟨shape, len, hl, hr⟩ : Header).toWord = w at hw
  rw [fieldSpan_eq] at hw
  have hm : w.toNat % 268435456 = len := by cases shape <;> simp [Shape.code] at hw <;> omega
  have hd : w.toNat / 268435456 = shape.code := by
    cases shape <;> simp [Shape.code] at hw ⊢ <;> omega
  simp only [ofWord, fieldSpan_eq, hm, hd]
  cases shape with
  | raw => simp [Shape.code, hr rfl]
  | array => rfl
  | object => rfl

theorem toWord_ofWord {w : UInt32} {h : Header} (hw : ofWord w = .ok h) : h.toWord = w := by
  have hn := Nat.div_add_mod w.toNat fieldSpan
  apply UInt32.toNat_inj.mp
  rw [toNat_toWord]
  simp only [ofWord] at hw
  split at hw
  · next hd => cases hw; rw [hd] at hn; exact hn
  · next hd => cases hw; rw [hd] at hn; exact hn
  · next hd =>
      split at hw
      · cases hw; rw [hd] at hn; exact hn
      · cases hw
  · cases hw

end Header

end PackedTree
