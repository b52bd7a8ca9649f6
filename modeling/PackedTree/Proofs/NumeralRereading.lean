import PackedTree.Json.Packing
import PackedTree.Proofs.DecimalReading
import PackedTree.Proofs.NumeralText

/-! # Numbers are read again from their text

A decimal that can be stored is written as a legible numeral (`legible_of_shows`), so what was
stored can be read back.  What is read is what the text spells (`read_of_chars`), and that need not
be the same pair: where the text has zeros in place of a negative scale, the zeros become digits.
But it has the same value, at most seven more bytes, and the same text again
(`value_spelledOut`, `length_bytes_spelledOut_le`, `chars_spelledOut`), so the text of a number
settles at once.  `Json.number_survives` puts this together for a number in a document. -/

namespace PackedTree

namespace Decimal

open Numeral

variable {n : Numeral} {d : Decimal} {zeros : Nat}

/-! ### The numeral of a decimal -/

/-- The digits of the numeral are those of the decimal and the zeros behind them. -/
theorem Shows.coefficient (h : Shows n d zeros) : n.coefficient = d.digits * 10 ^ zeros := by
  rw [Numeral.coefficient, h.negative, h.significand]
  push_cast
  by_cases hd : d.digits < 0
  · rw [decide_eq_true hd, if_pos rfl, abs_of_neg hd, neg_mul, neg_neg]
  · rw [decide_eq_false hd, if_neg Bool.false_ne_true, abs_of_nonneg (Int.not_lt.mp hd)]

theorem Shows.scale (h : Shows n d zeros) : n.scale = d.shownScale + zeros := by
  have hplace := h.place
  unfold Numeral.scale
  omega

theorem shownScale_bounds (hd : d.storable = true) :
    -maxScale ≤ d.shownScale ∧ d.shownScale ≤ maxScale := by
  have hmax : maxScale = 16383 := rfl
  unfold shownScale
  split
  · omega
  · simpa [storable] using hd

theorem legible_of_shows (h : Shows n d zeros) (hd : d.storable = true) : n.Legible := by
  have hmax : maxScale = 16383 := rfl
  have hscale := h.scale
  have hbounds := shownScale_bounds hd
  have hzeros : d.shownScale + zeros = 0 ∨ zeros = 0 := by
    by_cases h0 : zeros = 0
    · exact .inr h0
    · exact .inl (h.zeros h0).2.1
  have hpower : n.power ≤ 0 ∨ (n.fraction.length : Int) = 0 :=
    h.power.imp_right fun hf => by rw [hf]; rfl
  have hplace := h.place
  constructor <;> omega

/-! ### Its text -/

theorem toDigits_mul_ten {m : Nat} (h : 0 < m) :
    Nat.toDigits 10 (m * 10) = Nat.toDigits 10 m ++ ['0'] := by
  rw [Nat.toDigits_of_base_le (by decide) (show 10 ≤ m * 10 by omega),
    Nat.mul_div_cancel _ (by decide), Nat.mul_mod_left]
  rfl

theorem toDigits_mul_pow {m : Nat} (h : 0 < m) (k : Nat) :
    Nat.toDigits 10 (m * 10 ^ k) = Nat.toDigits 10 m ++ List.replicate k '0' := by
  induction k with
  | zero => simp
  | succ k ih =>
      rw [Nat.pow_succ, ← Nat.mul_assoc, toDigits_mul_ten (Nat.mul_pos h (by positivity)), ih,
        List.append_assoc, List.replicate_succ']

theorem unsignedChars_neg (ds : List Char) {zeros : Nat} (h : zeros ≤ 15) :
    unsignedChars ds (-zeros) = ds ++ List.replicate zeros '0' := by
  have hlead : ¬ maxLeadingZeros < -zeros - (ds.length : Int) := by unfold maxLeadingZeros; omega
  have htrail : ¬ maxTrailingZeros < - -(zeros : Int) := by unfold maxTrailingZeros; omega
  unfold unsignedChars
  rw [if_neg hlead, if_neg htrail, if_pos (by omega), neg_neg, Int.toNat_natCast]

theorem unsignedChars_zero (ds : List Char) : unsignedChars ds 0 = ds := by
  have h := unsignedChars_neg ds (Nat.zero_le 15)
  rwa [Int.natCast_zero, neg_zero, List.replicate_zero, List.append_nil] at h

/-! ### What the text spells -/

/-- The decimal that the text of `d` spells.  Zeros that stand in place of a negative scale are
digits of it, and where `d` is a zero, its scale is not shown. -/
def spelledOut (d : Decimal) : Decimal :=
  if d.digits = 0 then ⟨0, 0⟩
  else if -maxTrailingZeros ≤ d.scale.toInt ∧ d.scale.toInt < 0 then
    ⟨d.digits * 10 ^ (-d.scale.toInt).toNat, 0⟩
  else d

theorem spelledOut_cases (d : Decimal) :
    d.digits = 0 ∧ d.spelledOut = ⟨0, 0⟩ ∨
    (∃ zeros : Nat, d.digits ≠ 0 ∧ zeros ≤ 15 ∧ d.scale.toInt = -zeros ∧
      d.spelledOut = ⟨d.digits * 10 ^ zeros, 0⟩) ∨
    d.digits ≠ 0 ∧ (0 ≤ d.scale.toInt ∨ d.scale.toInt < -maxTrailingZeros) ∧
      d.spelledOut = d := by
  have hmax : maxTrailingZeros = 15 := rfl
  unfold spelledOut
  split_ifs with h0 hs
  · exact .inl ⟨h0, rfl⟩
  · exact .inr (.inl ⟨(-d.scale.toInt).toNat, h0, by omega, by omega, rfl⟩)
  · exact .inr (.inr ⟨h0, by omega, rfl⟩)

theorem spelledOut_of_nonneg (h0 : d.digits ≠ 0) (hs : 0 ≤ d.scale.toInt) : d.spelledOut = d := by
  unfold spelledOut
  rw [if_neg h0, if_neg (by omega)]

theorem value_spelledOut (d : Decimal) : d.spelledOut.value = d.value := by
  rcases d.spelledOut_cases with ⟨h0, heq⟩ | ⟨zeros, -, -, hs, heq⟩ | ⟨-, -, heq⟩
  · rw [heq, value_eq_zero.mpr h0, value_eq_zero.mpr rfl]
  · have hzero : (0 : Int64).toInt = 0 := rfl
    rw [heq, value, value, hs, hzero, neg_neg, neg_zero, zpow_natCast, zpow_zero, mul_one]
    push_cast
    rfl
  · rw [heq]

theorem chars_spelledOut (d : Decimal) : d.spelledOut.chars = d.chars := by
  rcases d.spelledOut_cases with ⟨h0, heq⟩ | ⟨zeros, h0, hle, hs, heq⟩ | ⟨-, -, heq⟩
  · rw [heq, chars_eq, chars_eq, shownChars, shownChars, shownScale, shownScale]
    simp [h0]
  · have hpow : (0 : Int) < 10 ^ zeros := by positivity
    have habs : (d.digits * 10 ^ zeros).natAbs = d.digits.natAbs * 10 ^ zeros := by
      rw [Int.natAbs_mul, Int.natAbs_pow]
      rfl
    have hspelled : shownChars ⟨d.digits * 10 ^ zeros, 0⟩ =
        Nat.toDigits 10 d.digits.natAbs ++ List.replicate zeros '0' := by
      have hscale : shownScale ⟨d.digits * 10 ^ zeros, 0⟩ = 0 := by
        unfold shownScale
        split <;> rfl
      rw [shownChars, hscale, unsignedChars_zero, habs, toDigits_mul_pow (Int.natAbs_pos.mpr h0)]
    have hshown : d.shownChars =
        Nat.toDigits 10 d.digits.natAbs ++ List.replicate zeros '0' := by
      rw [shownChars, shownScale, if_neg h0, hs, unsignedChars_neg _ hle]
    rw [heq, chars_eq, chars_eq, hspelled, hshown]
    simp only [mul_neg_iff, hpow, hpow.not_gt, and_true, and_false, false_or]
  · rw [heq]

theorem storable_spelledOut (hd : d.storable = true) : d.spelledOut.storable = true := by
  rcases d.spelledOut_cases with ⟨-, heq⟩ | ⟨zeros, -, -, -, heq⟩ | ⟨-, -, heq⟩
  · rw [heq]
    rfl
  · rw [heq]
    rfl
  · rwa [heq]

/-- What is spelled out shows its scale, and no zeros behind its digits. -/
theorem eq_of_shows (h : Shows n d.spelledOut zeros) :
    d.spelledOut = ⟨n.coefficient, Int64.ofInt n.scale⟩ := by
  have hmax : maxTrailingZeros = 15 := rfl
  have hscale : d.spelledOut.shownScale = d.spelledOut.scale.toInt ∧
      (0 ≤ d.spelledOut.scale.toInt ∨ d.spelledOut.scale.toInt < -maxTrailingZeros) := by
    have hzero : (0 : Int64).toInt = 0 := rfl
    unfold shownScale
    rcases d.spelledOut_cases with ⟨h0, heq⟩ | ⟨zeros, h0, -, -, heq⟩ | ⟨h0, hs, heq⟩
    · rw [heq, if_pos rfl]
      exact ⟨rfl, .inl le_rfl⟩
    · rw [heq]
      dsimp only
      rw [hzero, ite_self]
      exact ⟨rfl, .inl le_rfl⟩
    · rw [heq, if_neg h0]
      exact ⟨rfl, hs⟩
  obtain rfl : zeros = 0 := by
    by_contra hne
    obtain ⟨hle, hsum, -⟩ := h.zeros hne
    omega
  rw [h.coefficient, h.scale, hscale.1, pow_zero, mul_one, Int.natCast_zero, add_zero,
    Int64.ofInt_toInt]

/-- The numeral of a decimal that can be stored is read as what it spells. -/
theorem read_of_chars (hd : d.storable = true) (hn : ofChars? d.chars = some n) :
    read n.text = .ok d.spelledOut := by
  obtain ⟨m, zeros, hm, hshows⟩ := d.spelledOut.exists_shows
  rw [chars_spelledOut] at hm
  obtain rfl := Option.some.inj (hm.symm.trans hn)
  exact read_eq_ok_iff.mpr ⟨legible_of_shows hshows (storable_spelledOut hd), eq_of_shows hshows⟩

/-! ### Its bytes -/

/-- An integer has as many bytes as its size in two's complement asks for. -/
theorem length_ofInt_le_iff (n : Int) (k : Nat) :
    (Bytes.ofInt n).length ≤ k + 1 ↔ -(128 * 256 ^ k) ≤ n ∧ n < 128 * 256 ^ k := by
  induction k generalizing n with
  | zero =>
      rw [Bytes.ofInt]
      split
      · next h => simpa using h
      · next h =>
          have hpos := List.length_pos_iff.mpr (Bytes.ofInt_ne_nil (n / 256))
          rw [List.length_cons, pow_zero, mul_one]
          omega
  | succ k ih =>
      have hpow : (1 : Int) ≤ 256 ^ k := one_le_pow₀ (by norm_num)
      rw [Bytes.ofInt, pow_succ]
      split
      · next h =>
          rw [List.length_singleton]
          omega
      · rw [List.length_cons, Nat.add_le_add_iff_right, ih]
        omega

/-- Fifteen more decimal digits take at most seven more bytes. -/
theorem length_ofInt_mul_le (n : Int) {zeros : Nat} (h : zeros ≤ 15) :
    (Bytes.ofInt (n * 10 ^ zeros)).length ≤ (Bytes.ofInt n).length + 7 := by
  have hpos := List.length_pos_iff.mpr (Bytes.ofInt_ne_nil n)
  obtain ⟨k, hk⟩ : ∃ k, (Bytes.ofInt n).length = k + 1 := ⟨(Bytes.ofInt n).length - 1, by omega⟩
  obtain ⟨hlow, hhigh⟩ := (length_ofInt_le_iff n k).mp hk.le
  have hten : (10 : Int) ^ zeros ≤ 256 ^ 7 :=
    (pow_le_pow_right₀ (by norm_num) h).trans (by norm_num)
  have hone : (1 : Int) ≤ 10 ^ zeros := one_le_pow₀ (by norm_num)
  have hpow : (1 : Int) ≤ 256 ^ k := one_le_pow₀ (by norm_num)
  have hbound : (256 : Int) ^ k * 10 ^ zeros ≤ 256 ^ (k + 7) := by
    rw [pow_add]
    exact mul_le_mul_of_nonneg_left hten (by positivity)
  rw [hk, Nat.add_right_comm, length_ofInt_le_iff]
  constructor
  · have hmul := mul_le_mul_of_nonneg_right hlow (show (0 : Int) ≤ 10 ^ zeros by positivity)
    nlinarith
  · have hmul := mul_lt_mul_of_pos_right hhigh (show (0 : Int) < 10 ^ zeros by positivity)
    nlinarith

theorem length_bytes (d : Decimal) : d.bytes.length = 8 + (Bytes.ofInt d.digits).length := by
  rw [bytes, List.length_append, Bytes.length_ofInt64]

theorem length_bytes_spelledOut_le (d : Decimal) :
    d.spelledOut.bytes.length ≤ d.bytes.length + 7 := by
  rw [length_bytes, length_bytes]
  rcases d.spelledOut_cases with ⟨h0, heq⟩ | ⟨zeros, -, hle, -, heq⟩ | ⟨-, -, heq⟩
  · rw [heq, h0]
    exact Nat.le_add_right _ 7
  · have hlen := length_ofInt_mul_le d.digits hle
    rw [heq]
    dsimp only
    omega
  · rw [heq]
    exact Nat.le_add_right _ 7

end Decimal

/-! ### Numbers in documents -/

namespace Json

theorem trace_number {n : Numeral} {d : Decimal} (h : Decimal.read n.text = .ok d) (slot : Slot) :
    (Json.number n).trace slot = .next (slot.event (.number d)) .finished := by
  rw [trace, h]

/-- The text of a decimal that can be stored is a numeral, and it stands for the decimal in a
document.  The numeral is always read, as the decimal that is spelled out there: it has the same
value and the same text, it is the same pair of digits and scale unless it is a zero or its scale is
negative, and it is given back to a document as the same numeral. -/
theorem number_survives {d : Decimal} (hd : d.storable = true) :
    ∃ n, Numeral.ofChars? d.chars = some n ∧ ofScalar (.number d) = .ok (.number n) ∧
      Decimal.read n.text = .ok d.spelledOut ∧
      (∀ slot, (Json.number n).trace slot =
        .next (slot.event (.number d.spelledOut)) .finished) ∧
      d.spelledOut.compare d = .eq ∧
      (d.digits ≠ 0 → 0 ≤ d.scale.toInt → d.spelledOut = d) ∧
      d.spelledOut.text = d.text ∧
      ofScalar (.number d.spelledOut) = .ok (.number n) := by
  obtain ⟨n, hn, -⟩ := d.exists_numeral
  have hread := Decimal.read_of_chars hd hn
  have hchars := d.chars_spelledOut
  refine ⟨n, hn, ?_, hread, trace_number hread, ?_, Decimal.spelledOut_of_nonneg, ?_, ?_⟩
  · simp only [ofScalar, hn]
  · exact Decimal.compare_eq_eq_iff.mpr d.value_spelledOut
  · rw [Decimal.text, hchars, Decimal.text]
  · simp only [ofScalar, hchars, hn]

/-- Minus five thousand with a negative scale comes back with its zeros as digits; digits at the
largest scale are written with an exponent and come back as the same pair. -/
theorem number_survives_largest_scale :
    (Decimal.storable ⟨-5, -3⟩ = true ∧
      ∃ n, ofScalar (.number ⟨-5, -3⟩) = .ok (.number n) ∧ n = ⟨true, 5000, [], none⟩ ∧
        Decimal.read n.text = .ok ⟨-5000, 0⟩ ∧ Decimal.compare ⟨-5000, 0⟩ ⟨-5, -3⟩ = .eq) ∧
    Decimal.storable ⟨12345, 16383⟩ = true ∧
      ∃ n, ofScalar (.number ⟨12345, 16383⟩) = .ok (.number n) ∧
        n = ⟨false, 1, [2, 3, 4, 5], some ⟨true, 1, [6, 3, 7, 9]⟩⟩ ∧
        Decimal.read n.text = .ok ⟨12345, 16383⟩ := by
  have hfew : Decimal.storable ⟨-5, -3⟩ = true := by decide
  have hmost : Decimal.storable ⟨12345, 16383⟩ = true := by decide
  have hplain : Numeral.ofChars? (Decimal.chars ⟨-5, -3⟩) = some ⟨true, 5000, [], none⟩ := by
    rfl
  have hmarked : Numeral.ofChars? (Decimal.chars ⟨12345, 16383⟩) =
      some ⟨false, 1, [2, 3, 4, 5], some ⟨true, 1, [6, 3, 7, 9]⟩⟩ := by
    rfl
  obtain ⟨n, hn, hout, hread, -, hsame, -⟩ := number_survives hfew
  obtain ⟨m, hm, hout', hread', -, -, hpair, -⟩ := number_survives hmost
  rw [hpair (by decide) (by decide)] at hread'
  exact ⟨⟨hfew, n, hout, Option.some.inj (hn.symm.trans hplain), hread, hsame⟩,
    hmost, m, hout', Option.some.inj (hm.symm.trans hmarked), hread'⟩

end Json

end PackedTree
