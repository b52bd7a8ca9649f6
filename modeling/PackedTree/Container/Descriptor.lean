import PackedTree.Fault
import PackedTree.Limits

/-! # Descriptors

Every child of a container has a descriptor, packed into one 32-bit word: three bits of tag,
28 bits of field and one bit that tells what the field means.  A relative descriptor holds the
length of the child's bytes; an absolute one holds the position where they end.  In both cases
`Descriptor.stop` computes the end from the start.

`ofWord_toWord` and `toWord_ofWord` say that words with a known tag and descriptors are the
same thing. -/

namespace PackedTree

/-- What a child is. -/
inductive Tag where
  | string
  | number
  | no
  | yes
  | null
  | container
deriving DecidableEq, Repr

namespace Tag

/-- The tag as a number below eight. -/
def code : Tag → Nat
  | string => 0
  | number => 1
  | no => 2
  | yes => 3
  | null => 4
  | container => 5

/-- The tag with the given code. -/
def ofCode? : Nat → Option Tag
  | 0 => some string
  | 1 => some number
  | 2 => some no
  | 3 => some yes
  | 4 => some null
  | 5 => some container
  | _ => none

/-- Where the content of a child may begin: at multiples of this position. -/
def align : Tag → Nat
  | number | container => 4
  | string | no | yes | null => 1

@[simp] theorem ofCode?_code (t : Tag) : ofCode? t.code = some t := by cases t <;> rfl

theorem code_of_ofCode? {n : Nat} {t : Tag} (h : ofCode? n = some t) : t.code = n := by
  unfold ofCode? at h
  split at h <;> simp at h <;> subst h <;> rfl

theorem code_lt (t : Tag) : t.code < 8 := by cases t <;> decide

theorem align_pos (t : Tag) : 0 < t.align := by cases t <;> decide

end Tag

/-- The descriptor of one child. -/
structure Descriptor where
  tag : Tag
  absolute : Bool
  field : Nat
  field_le : field ≤ maxField
deriving DecidableEq, Repr

namespace Descriptor

/-- A descriptor with the given parts, if the field fits. -/
def make (tag : Tag) (field : Nat) (absolute : Bool) : Except Fault Descriptor :=
  if h : field ≤ maxField then .ok ⟨tag, absolute, field, h⟩
  else .error (.fieldOverflow field fieldBits)

/-- The packed form. -/
def toWord (d : Descriptor) : UInt32 :=
  UInt32.ofNat (8 * fieldSpan * d.absolute.toNat + fieldSpan * d.tag.code + d.field)

/-- The descriptor packed into a word. -/
def ofWord (w : UInt32) : Except Fault Descriptor :=
  match Tag.ofCode? (w.toNat / fieldSpan % 8) with
  | none => .error (.invalidTag (w.toNat / fieldSpan % 8))
  | some tag =>
      .ok ⟨tag, decide (8 * fieldSpan ≤ w.toNat), w.toNat % fieldSpan,
        Nat.le_pred_of_lt (Nat.mod_lt _ (by decide))⟩

/-- Where a child ends that begins at `start`. -/
def stop (d : Descriptor) (start : Nat) : Nat :=
  if d.absolute then d.field else start + d.field

/-- The same tag with the position where the child ends. -/
def withStop (d : Descriptor) (stop : Nat) : Except Fault Descriptor := make d.tag stop true

theorem toNat_toWord (d : Descriptor) :
    d.toWord.toNat = 8 * fieldSpan * d.absolute.toNat + fieldSpan * d.tag.code + d.field := by
  have hc := d.tag.code_lt
  have hf := d.field_le
  have ha : d.absolute.toNat ≤ 1 := Bool.toNat_le _
  rw [maxField, fieldSpan_eq] at hf
  simp only [toWord, fieldSpan_eq, UInt32.toNat_ofNat']
  omega

@[simp] theorem ofWord_toWord (d : Descriptor) : ofWord d.toWord = .ok d := by
  have hc := d.tag.code_lt
  have hf := d.field_le
  have hw := toNat_toWord d
  have ha : d.absolute.toNat ≤ 1 := Bool.toNat_le _
  have ht : d.toWord.toNat / fieldSpan % 8 = d.tag.code := by
    simp only [maxField, fieldSpan_eq] at hf hw ⊢
    omega
  have hm : d.toWord.toNat % fieldSpan = d.field := by
    simp only [maxField, fieldSpan_eq] at hf hw ⊢
    omega
  have hd : decide (8 * fieldSpan ≤ d.toWord.toNat) = d.absolute := by
    simp only [maxField, fieldSpan_eq] at hf hw
    cases h : d.absolute
    · rw [h, Bool.toNat_false] at hw
      exact decide_eq_false (by rw [fieldSpan_eq]; omega)
    · rw [h, Bool.toNat_true] at hw
      exact decide_eq_true (by rw [fieldSpan_eq]; omega)
  simp only [ofWord, ht, hm, hd, Tag.ofCode?_code]

theorem toWord_ofWord {w : UInt32} {d : Descriptor} (h : ofWord w = .ok d) : d.toWord = w := by
  have hw : w.toNat < 4294967296 := w.toNat_lt
  simp only [ofWord] at h
  split at h
  · cases h
  · next tag ht =>
      cases h
      have hc := Tag.code_of_ofCode? ht
      apply UInt32.toNat_inj.mp
      rw [toNat_toWord]
      by_cases hb : 8 * fieldSpan ≤ w.toNat
      · rw [decide_eq_true hb, Bool.toNat_true]
        simp only [fieldSpan_eq] at hb hc ⊢
        omega
      · rw [decide_eq_false hb, Bool.toNat_false]
        simp only [fieldSpan_eq] at hb hc ⊢
        omega

end Descriptor

end PackedTree
