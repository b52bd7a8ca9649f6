import PackedTree.Decimal.Basic
import Mathlib.Algebra.Order.Field.Rat
import Mathlib.Algebra.Order.Field.Power
import Mathlib.Order.Compare
import Mathlib.Tactic.Ring
import Mathlib.Tactic.Linarith

/-! # Decimals and the rationals they stand for

`Decimal.value` is the rational `digits * 10 ^ (-scale)`.  The order of decimals, which looks at
the position of the leading digit first, is the order of these rationals (`compare_eq_value`), so
it is a total preorder.  Dropping decimal zeros keeps the value and ends in a form that the value
determines (`normalized_eq_iff`). -/

namespace PackedTree.Decimal

/-- The rational number that a decimal stands for. -/
def value (d : Decimal) : ℚ := d.digits * 10 ^ (-d.scale.toInt)

/-! ### The position of the leading digit -/

theorem lt_pow_digitCount (n : Nat) : n < 10 ^ digitCount n :=
  (Nat.length_toDigits_le_iff (by omega) Nat.length_toDigits_pos).mp le_rfl

theorem pow_digitCount_le {n : Nat} (h : 0 < n) : 10 ^ (digitCount n - 1) ≤ n := by
  have hp : 0 < digitCount n := Nat.length_toDigits_pos
  by_contra hn
  rcases Nat.eq_zero_or_pos (digitCount n - 1) with h0 | h0
  · rw [h0] at hn
    omega
  · have hle : digitCount n ≤ digitCount n - 1 :=
      (Nat.length_toDigits_le_iff (by omega) h0).mpr (by omega)
    omega

/-- The leading digit bounds a number from both sides. -/
theorem magnitude_bounds {n : Nat} (h : 0 < n) (s : Int) :
    (10 : ℚ) ^ ((digitCount n : Int) - s - 1) ≤ n * 10 ^ (-s) ∧
      (n : ℚ) * 10 ^ (-s) < 10 ^ ((digitCount n : Int) - s) := by
  have hp : 0 < digitCount n := Nat.length_toDigits_pos
  have pos : (0 : ℚ) < 10 ^ (-s) := by positivity
  have lower : ((10 ^ (digitCount n - 1) : Nat) : ℚ) ≤ n := by exact_mod_cast pow_digitCount_le h
  have upper : (n : ℚ) < ((10 ^ digitCount n : Nat) : ℚ) := by exact_mod_cast lt_pow_digitCount n
  constructor
  · have e : (digitCount n : Int) - s - 1 = ((digitCount n - 1 : Nat) : Int) + -s := by omega
    rw [e, zpow_add₀ (by norm_num), zpow_natCast]
    push_cast at lower
    exact mul_le_mul_of_nonneg_right lower pos.le
  · rw [sub_eq_add_neg, zpow_add₀ (by norm_num), zpow_natCast]
    push_cast at upper
    exact mul_lt_mul_of_pos_right upper pos

theorem magnitude_lt {m n : Nat} (hm : 0 < m) (hn : 0 < n) {s t : Int}
    (h : (digitCount m : Int) - s < digitCount n - t) :
    (m : ℚ) * 10 ^ (-s) < n * 10 ^ (-t) := by
  calc (m : ℚ) * 10 ^ (-s) < 10 ^ ((digitCount m : Int) - s) := (magnitude_bounds hm s).2
    _ ≤ 10 ^ ((digitCount n : Int) - t - 1) := zpow_le_zpow_right₀ (by norm_num) (by omega)
    _ ≤ n * 10 ^ (-t) := (magnitude_bounds hn t).1

theorem magnitude_rescale (m : Nat) (s t : Int) :
    (m : ℚ) * 10 ^ (-s) = ((m * 10 ^ (t - s).toNat : Nat) : ℚ) * 10 ^ (-max s t) := by
  have e : -s = ((t - s).toNat : Int) + -max s t := by omega
  rw [e, zpow_add₀ (by norm_num), zpow_natCast]
  push_cast
  ring

theorem compareMagnitude_compares {m n : Nat} (hm : 0 < m) (hn : 0 < n) (s t : Int) :
    (compareMagnitude m s n t).Compares ((m : ℚ) * 10 ^ (-s)) ((n : ℚ) * 10 ^ (-t)) := by
  unfold compareMagnitude
  rcases lt_trichotomy ((digitCount m : Int) - s) (digitCount n - t) with h | h | h
  · rw [compare_lt_iff_lt.mpr h]
    exact magnitude_lt hm hn h
  · rw [compare_eq_iff_eq.mpr h, Ordering.eq_then, magnitude_rescale m s t,
      magnitude_rescale n t s, max_comm t s]
    have pos : (0 : ℚ) < 10 ^ (-max s t) := by positivity
    show (Ord.compare (m * 10 ^ (t - s).toNat) (n * 10 ^ (s - t).toNat)).Compares _ _
    rcases lt_trichotomy (m * 10 ^ (t - s).toNat) (n * 10 ^ (s - t).toNat) with h | h | h
    · rw [compare_lt_iff_lt.mpr h]
      exact mul_lt_mul_of_pos_right (by exact_mod_cast h) pos
    · rw [compare_eq_iff_eq.mpr h]
      show _ = _
      rw [h]
    · rw [compare_gt_iff_gt.mpr h]
      exact mul_lt_mul_of_pos_right (by exact_mod_cast h) pos
  · rw [compare_gt_iff_gt.mpr h]
    exact magnitude_lt hn hm h

/-! ### Order by value -/

theorem value_pos {d : Decimal} : 0 < d.value ↔ 0 < d.digits := by
  have pos : (0 : ℚ) < 10 ^ (-d.scale.toInt) := by positivity
  unfold value
  rw [mul_pos_iff_of_pos_right pos]
  exact Int.cast_pos

theorem value_neg {d : Decimal} : d.value < 0 ↔ d.digits < 0 := by
  have pos : (0 : ℚ) < 10 ^ (-d.scale.toInt) := by positivity
  unfold value
  rw [← neg_pos, ← neg_mul, mul_pos_iff_of_pos_right pos, neg_pos]
  exact Int.cast_lt_zero

theorem value_eq_zero {d : Decimal} : d.value = 0 ↔ d.digits = 0 := by
  have pos : (10 : ℚ) ^ (-d.scale.toInt) ≠ 0 := by positivity
  unfold value
  rw [mul_eq_zero_iff_right pos]
  exact Int.cast_eq_zero

theorem value_of_pos {d : Decimal} (h : 0 < d.digits) :
    d.value = (d.digits.natAbs : ℚ) * 10 ^ (-d.scale.toInt) := by
  have e : d.digits = (d.digits.natAbs : Int) := by omega
  unfold value
  rw [e]
  simp

theorem value_of_neg {d : Decimal} (h : d.digits < 0) :
    d.value = -((d.digits.natAbs : ℚ) * 10 ^ (-d.scale.toInt)) := by
  have e : d.digits = -(d.digits.natAbs : Int) := by omega
  unfold value
  rw [e]
  simp

theorem compare_sign {a b : Decimal} (h : a.digits.sign ≠ b.digits.sign) :
    (Ord.compare a.digits.sign b.digits.sign).Compares a.value b.value := by
  rcases lt_trichotomy a.digits 0 with ha | ha | ha <;>
    rcases lt_trichotomy b.digits 0 with hb | hb | hb
  · exact absurd ((Int.sign_eq_neg_one_of_neg ha).trans (Int.sign_eq_neg_one_of_neg hb).symm) h
  · rw [Int.sign_eq_neg_one_of_neg ha, hb]
    exact (value_neg.mpr ha).trans_eq (value_eq_zero.mpr hb).symm
  · rw [Int.sign_eq_neg_one_of_neg ha, Int.sign_eq_one_of_pos hb]
    exact (value_neg.mpr ha).trans (value_pos.mpr hb)
  · rw [Int.sign_eq_neg_one_of_neg hb, ha]
    exact (value_neg.mpr hb).trans_eq (value_eq_zero.mpr ha).symm
  · exact absurd (by rw [ha, hb]) h
  · rw [Int.sign_eq_one_of_pos hb, ha]
    exact (value_eq_zero.mpr ha).trans_lt (value_pos.mpr hb)
  · rw [Int.sign_eq_one_of_pos ha, Int.sign_eq_neg_one_of_neg hb]
    exact (value_neg.mpr hb).trans (value_pos.mpr ha)
  · rw [Int.sign_eq_one_of_pos ha, hb]
    exact (value_eq_zero.mpr hb).trans_lt (value_pos.mpr ha)
  · exact absurd ((Int.sign_eq_one_of_pos ha).trans (Int.sign_eq_one_of_pos hb).symm) h

theorem compares_neg {o : Ordering} {x y : ℚ} (h : o.Compares y x) : o.Compares (-x) (-y) := by
  cases o with
  | lt => exact neg_lt_neg h
  | eq => exact congrArg Neg.neg (Eq.symm h)
  | gt => exact neg_lt_neg h

theorem compare_compares (a b : Decimal) : (a.compare b).Compares a.value b.value := by
  unfold compare
  split
  · next h =>
      split
      · next h0 =>
          have ha : a.digits = 0 := h0
          have hb : b.digits = 0 := by
            rw [ha] at h
            exact Int.sign_eq_zero_iff_zero.mp h.symm
          show _ = _
          rw [value_eq_zero.mpr ha, value_eq_zero.mpr hb]
      · next m hne hm =>
          have ha : 0 < a.digits := by
            rw [hm]
            exact Int.natCast_pos.mpr (Nat.pos_of_ne_zero fun h0 => hne (by rw [h0]))
          have hb : 0 < b.digits := by
            rw [Int.sign_eq_one_of_pos ha] at h
            exact Int.sign_eq_one_iff_pos.mp h.symm
          have e : m = a.digits.natAbs := by rw [hm]; rfl
          rw [value_of_pos ha, value_of_pos hb, e]
          exact compareMagnitude_compares (by omega) (by omega) _ _
      · next m hm =>
          have ha : a.digits < 0 := by rw [hm]; exact Int.negSucc_lt_zero m
          have hb : b.digits < 0 := by
            rw [Int.sign_eq_neg_one_of_neg ha] at h
            exact Int.sign_eq_neg_one_iff_neg.mp h.symm
          have e : m + 1 = a.digits.natAbs := by rw [hm]; rfl
          rw [value_of_neg ha, value_of_neg hb, e]
          exact compares_neg (compareMagnitude_compares (by omega) (by omega) _ _)
  · next h => exact compare_sign h

/-- Decimals are ordered as the rationals that they stand for. -/
theorem compare_eq_value (a b : Decimal) : a.compare b = Ord.compare a.value b.value :=
  ((compare_iff _ _).mpr (compare_compares a b)).symm

instance : Std.TransCmp compare := by
  have e : compare = fun a b => Ord.compare a.value b.value := by
    funext a b
    exact compare_eq_value a b
  rw [e]
  exact inferInstanceAs (Std.TransCmp (compareOn value))

theorem compare_eq_eq_iff {a b : Decimal} : a.compare b = .eq ↔ a.value = b.value := by
  rw [compare_eq_value]
  exact compare_eq_iff_eq

/-! ### One form for each value -/

theorem toInt_sub_one {s : Int64} (h : s ≠ Int64.minValue) : (s - 1).toInt = s.toInt - 1 := by
  have hm : s.toInt ≠ Int64.minValue.toInt := fun he => h (Int64.toInt_inj.mp he)
  have hl := Int64.le_toInt s
  have hu := Int64.toInt_lt s
  have e : Int64.minValue.toInt = -2 ^ 63 := by decide
  rw [Int64.toInt_sub]
  have e1 : (1 : Int64).toInt = 1 := by decide
  rw [e1]
  rw [e] at hm
  exact Int.bmod_eq_of_le (by omega) (by omega)

theorem value_dropZeros (digits : Int) (scale : Int64) :
    (dropZeros digits scale).value = value ⟨digits, scale⟩ := by
  fun_induction dropZeros digits scale with
  | case1 digits scale h ih =>
      obtain ⟨_, hd, hs⟩ := h
      have e : (digits : ℚ) = (digits / 10 : Int) * 10 := by
        exact_mod_cast (Int.ediv_mul_cancel (Int.dvd_of_emod_eq_zero hd)).symm
      rw [ih]
      simp only [value]
      rw [toInt_sub_one hs, e, show -(scale.toInt - 1) = 1 + -scale.toInt by omega,
        zpow_add₀ (by norm_num), zpow_one]
      ring
  | case2 digits scale h => rfl

/-- Nothing is left to drop: the digits do not end in a zero, or the scale cannot go lower. -/
def IsReduced (d : Decimal) : Prop :=
  d.digits ≠ 0 ∧ (d.digits % 10 ≠ 0 ∨ d.scale = Int64.minValue)

theorem isReduced_dropZeros {digits : Int} (scale : Int64) (h : digits ≠ 0) :
    (dropZeros digits scale).IsReduced := by
  fun_induction dropZeros digits scale with
  | case1 digits scale hc ih => exact ih (by omega)
  | case2 digits scale hc =>
      refine ⟨h, ?_⟩
      by_contra hn
      obtain ⟨hd, hs⟩ := not_or.mp hn
      exact hc ⟨h, not_not.mp hd, hs⟩

theorem digits_eq_of_value_eq {a b : Decimal} (h : a.value = b.value)
    (hs : a.scale.toInt ≤ b.scale.toInt) :
    b.digits = a.digits * 10 ^ (b.scale.toInt - a.scale.toInt).toNat := by
  unfold value at h
  have e : -a.scale.toInt =
      ((b.scale.toInt - a.scale.toInt).toNat : Int) + -b.scale.toInt := by omega
  rw [e, zpow_add₀ (by norm_num), zpow_natCast, ← mul_assoc] at h
  exact_mod_cast (mul_right_cancel₀ (by positivity) h).symm

/-- Of two reduced decimals with one value, the one with the smaller scale is the other one. -/
theorem eq_of_isReduced {a b : Decimal} (hb : b.IsReduced) (h : a.value = b.value)
    (hs : a.scale.toInt ≤ b.scale.toInt) : a = b := by
  have hd := digits_eq_of_value_eq h hs
  rcases hs.lt_or_eq with hlt | heq
  · -- a difference in scale would put a zero at the end of the digits of `b`
    have hz : b.digits % 10 = 0 := by
      obtain ⟨k, hk⟩ : ∃ k, (b.scale.toInt - a.scale.toInt).toNat = k + 1 :=
        ⟨(b.scale.toInt - a.scale.toInt).toNat - 1, by omega⟩
      rw [hd, hk, pow_succ, ← mul_assoc]
      exact Int.mul_emod_left _ _
    have hmin := hb.2.resolve_left (not_not.mpr hz)
    have hl := Int64.le_toInt a.scale
    have e : Int64.minValue.toInt = -2 ^ 63 := by decide
    rw [hmin, e] at hlt
    omega
  · rw [heq, sub_self, Int.toNat_zero, pow_zero, mul_one] at hd
    obtain ⟨da, sa⟩ := a
    obtain ⟨db, sb⟩ := b
    exact (Decimal.mk.injEq ..).mpr ⟨hd.symm, Int64.toInt_inj.mp heq⟩

theorem value_normalized (d : Decimal) : d.normalized.value = d.value := by
  unfold normalized
  split
  · next h => rw [value_eq_zero.mpr h, value_eq_zero.mpr rfl]
  · exact value_dropZeros _ _

theorem normalized_eq_zero {d : Decimal} (h : d.value = 0) : d.normalized = ⟨0, 0⟩ := by
  unfold normalized
  rw [if_pos (value_eq_zero.mp h)]

theorem isReduced_normalized {d : Decimal} (h : d.value ≠ 0) : d.normalized.IsReduced := by
  have hd : d.digits ≠ 0 := fun h0 => h (value_eq_zero.mpr h0)
  unfold normalized
  rw [if_neg hd]
  exact isReduced_dropZeros _ hd

theorem normalized_eq_iff {a b : Decimal} : a.normalized = b.normalized ↔ a.value = b.value := by
  constructor
  · intro h
    rw [← value_normalized a, h, value_normalized]
  · intro h
    by_cases ha : a.value = 0
    · rw [normalized_eq_zero ha, normalized_eq_zero (h ▸ ha)]
    · have hb : b.value ≠ 0 := h ▸ ha
      have hv : a.normalized.value = b.normalized.value := by
        rw [value_normalized, value_normalized, h]
      rcases le_total a.normalized.scale.toInt b.normalized.scale.toInt with hs | hs
      · exact eq_of_isReduced (isReduced_normalized hb) hv hs
      · exact (eq_of_isReduced (isReduced_normalized ha) hv.symm hs).symm

end PackedTree.Decimal
