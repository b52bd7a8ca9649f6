import PackedTree.Bytes.Basic

/-! # The order of keys and strings

Byte strings are ordered by length first and then byte by byte.  It is a linear order: equal
only on equal strings (`keyCompare_eq_iff`), and an instance of `Std.TransCmp`. -/

namespace PackedTree.Bytes

/-- Shorter strings first; strings of one length in lexicographic order. -/
def keyCompare : Bytes → Bytes → Ordering :=
  compareLex (compareOn List.length) compare

instance : Std.TransCmp keyCompare :=
  inferInstanceAs (Std.TransCmp (compareLex (compareOn List.length) compare))

theorem keyCompare_eq_iff {a b : Bytes} : keyCompare a b = .eq ↔ a = b := by
  constructor
  · intro h
    simp only [keyCompare, compareLex, Ordering.then_eq_eq] at h
    exact Std.LawfulEqCmp.eq_of_compare h.2
  · rintro rfl
    exact Std.ReflCmp.compare_self

theorem eq_of_keyCompare {a b : Bytes} (h : keyCompare a b = .eq) : a = b :=
  keyCompare_eq_iff.mp h

end PackedTree.Bytes
