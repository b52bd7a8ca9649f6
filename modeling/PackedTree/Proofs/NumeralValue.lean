import PackedTree.Json.Numeral
import Mathlib.Algebra.Order.Field.Power
import Mathlib.Algebra.Order.Field.Rat
import Mathlib.Tactic.FieldSimp
import Mathlib.Tactic.Linarith
import Mathlib.Tactic.Ring

/-! # The value of a numeral

A numeral stands for a rational number: its whole part and its fraction, times the power of ten that
the exponent tells, with its sign (`Numeral.value`).  Put together without the point, whole part
and fraction are one natural (`Numeral.significand`), and then the fraction only shifts the power
(`Numeral.value_eq`).  The value of digits is computed from the front, so digits behind others
multiply those by powers of ten (`Numeral.ofDigits_append`). -/

namespace PackedTree

/-- The power of ten that an exponent tells. -/
def Exponent.value (e : Exponent) : Int :=
  (if e.negative then -1 else 1) * Numeral.ofDigits (e.first :: e.others)

namespace Numeral

/-- The power of ten that a numeral tells; one that has no exponent tells none. -/
def power (n : Numeral) : Int :=
  match n.exponent with
  | none => 0
  | some e => e.value

def value (n : Numeral) : ℚ :=
  (if n.negative then -1 else 1) *
    (n.whole + ofDigits n.fraction / 10 ^ n.fraction.length) * 10 ^ n.power

/-- The digits of a numeral without the point, as one number. -/
def significand (n : Numeral) : Nat := n.whole * 10 ^ n.fraction.length + ofDigits n.fraction

theorem value_eq (n : Numeral) :
    n.value = (if n.negative then -1 else 1) * n.significand *
      10 ^ (n.power - n.fraction.length) := by
  have h10 : (10 : ℚ) ≠ 0 := by norm_num
  have hpow : (10 : ℚ) ^ n.fraction.length ≠ 0 := pow_ne_zero _ h10
  rw [value, significand, zpow_sub₀ h10, zpow_natCast]
  push_cast
  field_simp

/-! ### Digits one after the other -/

theorem foldl_digits (ds : List (Fin 10)) (acc : Nat) :
    ds.foldl (fun n d => 10 * n + d.val) acc = acc * 10 ^ ds.length + ofDigits ds := by
  induction ds generalizing acc with
  | nil => simp [ofDigits]
  | cons d ds ih =>
      rw [ofDigits, List.foldl_cons, List.foldl_cons, ih, ih (10 * 0 + d.val), List.length_cons]
      ring

theorem ofDigits_append (ds es : List (Fin 10)) :
    ofDigits (ds ++ es) = ofDigits ds * 10 ^ es.length + ofDigits es := by
  rw [ofDigits, List.foldl_append, foldl_digits es, ← ofDigits]

theorem ofDigits_cons (d : Fin 10) (ds : List (Fin 10)) :
    ofDigits (d :: ds) = d.val * 10 ^ ds.length + ofDigits ds := by
  rw [ofDigits, List.foldl_cons, foldl_digits]
  simp

theorem ofDigits_singleton (d : Fin 10) : ofDigits [d] = d.val := by
  rw [ofDigits_cons]
  simp [ofDigits]

theorem ofDigits_zeros (n : Nat) : ofDigits (List.replicate n 0) = 0 := by
  induction n with
  | zero => rfl
  | succ n ih => rw [List.replicate_succ, ofDigits_cons, ih]; simp

/-! ### Characters of digits -/

theorem digit_digitChar (d : Fin 10) : digit (Nat.digitChar d.val) = d := by
  revert d
  decide

theorem ofDigits_toDigits (n : Nat) : ofDigits ((Nat.toDigits 10 n).map digit) = n := by
  induction n using Nat.strongRecOn with
  | ind n ih =>
      by_cases hn : n < 10
      · have hd : digit (Nat.digitChar n) = ⟨n, hn⟩ := digit_digitChar ⟨n, hn⟩
        rw [Nat.toDigits_of_lt_base hn, List.map_singleton, hd, ofDigits_singleton]
      · have hb : 10 ≤ n := Nat.le_of_not_lt hn
        have hlt : n % 10 < 10 := Nat.mod_lt n (by decide)
        have hd : digit (Nat.digitChar (n % 10)) = ⟨n % 10, hlt⟩ := digit_digitChar ⟨n % 10, hlt⟩
        rw [Nat.toDigits_of_base_le (by decide) hb, List.map_append, List.map_singleton, hd,
          ofDigits_append, ih (n / 10) (by omega), ofDigits_singleton, List.length_singleton]
        show n / 10 * 10 ^ 1 + n % 10 = n
        omega

end Numeral

end PackedTree
