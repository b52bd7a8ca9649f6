import PackedTree.Container.Child
import PackedTree.Hash
import PackedTree.Proofs.DecimalOrder

/-! # The bytes of decimals

A signed integer may be followed by any number of bytes that repeat its sign; it is still read as
the same integer, and no other bytes are (`Bytes.toInt_eq_iff`).  So a decimal is read from the
bytes that it is written with, maybe with sign bytes behind them, and from nothing else
(`Decimal.ofBytes?_eq_some_iff`).  `Decimal.bytes_read_back` says what comes back when a decimal is
written and read, and what is written for a decimal that was read.

The bytes determine the decimal, and its normal form is determined by its value; so two decimals
have the same normalized bytes exactly if they have the same value, and then they hash the same
(`Decimal.normalizedBytes_complete`). -/

namespace PackedTree

namespace Bytes

variable {b : Bytes} {n : Int}

/-! ### Sign bytes -/

/-- The byte that repeats the sign of an integer. -/
def signByte (n : Int) : UInt8 := if n < 0 then 255 else 0

theorem signByte_of_neg (h : n < 0) : signByte n = 255 := if_pos h

theorem signByte_of_nonneg (h : 0 ≤ n) : signByte n = 0 := if_neg (Int.not_lt.mpr h)

theorem signByte_cons (x : UInt8) (h : b ≠ []) :
    signByte (toInt (x :: b)) = signByte (toInt b) := by
  have hx : x.toNat < 256 := x.toNat_lt
  rw [toInt_cons h]
  rcases lt_or_ge (toInt b) 0 with hneg | hpos
  · rw [signByte_of_neg hneg, signByte_of_neg (by omega)]
  · rw [signByte_of_nonneg hpos, signByte_of_nonneg (by omega)]

theorem toInt_singleton (x : UInt8) :
    toInt [x] = if x.toNat < 128 then (x.toNat : Int) else x.toNat - 256 := rfl

theorem toInt_concat_signByte (h : b ≠ []) : toInt (b ++ [signByte (toInt b)]) = toInt b := by
  induction b with
  | nil => exact absurd rfl h
  | cons x bs ih =>
      cases bs with
      | nil =>
          have hx : x.toNat < 256 := x.toNat_lt
          show (x.toNat : Int) + 256 * toInt [signByte (toInt [x])] = toInt [x]
          rw [toInt_singleton x]
          split
          · rw [signByte_of_nonneg (by omega)]
            exact Int.add_zero _
          · rw [signByte_of_neg (by omega)]
            rfl
      | cons y bs =>
          have hne : y :: bs ≠ [] := List.cons_ne_nil y bs
          have hlonger := List.append_ne_nil_of_left_ne_nil hne [signByte (toInt (y :: bs))]
          rw [signByte_cons x hne, List.cons_append, toInt_cons hlonger, ih hne, toInt_cons hne]

theorem toInt_append_signBytes (h : b ≠ []) (k : Nat) :
    toInt (b ++ List.replicate k (signByte (toInt b))) = toInt b := by
  induction k with
  | zero => rw [List.replicate_zero, List.append_nil]
  | succ k ih =>
      have hstep := toInt_concat_signByte
        (List.append_ne_nil_of_left_ne_nil h (List.replicate k (signByte (toInt b))))
      rwa [ih, List.append_assoc, ← List.replicate_succ'] at hstep

theorem ofInt_add_mul (x : UInt8) (m : Int) : UInt8.ofInt (x.toNat + 256 * m) = x := by
  have hx : x.toNat < 256 := x.toNat_lt
  have hmod := toNat_ofInt (x.toNat + 256 * m)
  apply UInt8.toNat_inj.mp
  omega

theorem ofInt_singleton (x : UInt8) : ofInt (toInt [x]) = [x] := by
  have hx : x.toNat < 256 := x.toNat_lt
  rw [toInt_singleton, ofInt]
  split
  · have hbyte := ofInt_add_mul x 0
    rw [Int.mul_zero, Int.add_zero] at hbyte
    rw [if_pos (by omega), hbyte]
  · rw [if_pos (by omega), show (x.toNat : Int) - 256 = x.toNat + 256 * -1 by omega,
      ofInt_add_mul]

/-- Bytes begin with the fewest bytes of the integer that they spell; all others repeat its sign. -/
theorem exists_eq_ofInt_append (h : b ≠ []) :
    ∃ k, b = ofInt (toInt b) ++ List.replicate k (signByte (toInt b)) := by
  induction b with
  | nil => exact absurd rfl h
  | cons x bs ih =>
      by_cases hbs : bs = []
      · subst hbs
        exact ⟨0, by rw [ofInt_singleton, List.replicate_zero, List.append_nil]⟩
      · have hx : x.toNat < 256 := x.toNat_lt
        obtain ⟨k, hk⟩ := ih hbs
        rw [signByte_cons x hbs, toInt_cons hbs, ofInt]
        split
        · -- all that stands above the lowest byte is sign
          next hsmall =>
            refine ⟨k + 1, ?_⟩
            have hhigh : toInt bs = 0 ∨ toInt bs = -1 := by omega
            have hsign : ofInt (toInt bs) = [signByte (toInt bs)] := by
              rcases hhigh with h0 | h1
              · rw [h0, ofInt]
                rfl
              · rw [h1, ofInt]
                rfl
            rw [hsign] at hk
            rw [ofInt_add_mul, List.replicate_succ, List.singleton_append]
            exact congrArg (x :: ·) hk
        · refine ⟨k, ?_⟩
          rw [ofInt_add_mul, show (x.toNat + 256 * toInt bs) / 256 = toInt bs by omega,
            List.cons_append]
          exact congrArg (x :: ·) hk

/-- An integer is read from its fewest bytes with any number of sign bytes behind them, and from no
other bytes. -/
theorem toInt_eq_iff (h : b ≠ []) :
    toInt b = n ↔ ∃ k, b = ofInt n ++ List.replicate k (signByte n) := by
  constructor
  · rintro rfl
    exact exists_eq_ofInt_append h
  · rintro ⟨k, rfl⟩
    have happend := toInt_append_signBytes (ofInt_ne_nil n) k
    rwa [toInt_ofInt] at happend

theorem ofInt_injective : Function.Injective ofInt := Function.LeftInverse.injective toInt_ofInt

/-! ### Signed words -/

theorem ofInt64_toInt64 (h : b.length = 8) : ofInt64 (toInt64 b) = b := by
  have hb := toNat_lt b
  rw [h] at hb
  rw [ofInt64, toInt64, UInt64.toUInt64_toInt64, UInt64.toNat_ofNat_of_lt' hb, ← h, ofNat_toNat]

theorem ofInt64_injective : Function.Injective ofInt64 :=
  Function.LeftInverse.injective toInt64_ofInt64

end Bytes

namespace Decimal

open Bytes (signByte)

variable {a b d : Decimal} {c : Bytes}

/-! ### Reading what was written -/

/-- A decimal as it is written, with sign bytes behind it, is read if its scale can be stored. -/
theorem ofBytes?_append_signBytes (d : Decimal) (k : Nat) :
    ofBytes? (d.bytes ++ List.replicate k (signByte d.digits)) =
      if d.storable then some d else none := by
  have hpos := List.length_pos_iff.mpr (Bytes.ofInt_ne_nil d.digits)
  have hlen : ¬ (d.bytes ++ List.replicate k (signByte d.digits)).length ≤ 8 := by
    simp only [bytes, List.length_append, Bytes.length_ofInt64]
    omega
  have hscale : (d.bytes ++ List.replicate k (signByte d.digits)).take 8 =
      Bytes.ofInt64 d.scale := by
    rw [bytes, List.append_assoc, List.take_left' (Bytes.length_ofInt64 d.scale)]
  have hdigits : (d.bytes ++ List.replicate k (signByte d.digits)).drop 8 =
      Bytes.ofInt d.digits ++ List.replicate k (signByte d.digits) := by
    rw [bytes, List.append_assoc, List.drop_left' (Bytes.length_ofInt64 d.scale)]
  have hread : Bytes.toInt (Bytes.ofInt d.digits ++ List.replicate k (signByte d.digits)) =
      d.digits :=
    (Bytes.toInt_eq_iff (List.append_ne_nil_of_left_ne_nil (Bytes.ofInt_ne_nil d.digits) _)).mpr
      ⟨k, rfl⟩
  rw [ofBytes?, if_neg hlen, hscale, hdigits, hread, Bytes.toInt64_ofInt64]

/-- What is read is a decimal that can be stored, and the bytes are those it is written with and
sign bytes behind them. -/
theorem eq_append_of_ofBytes? (h : ofBytes? c = some d) :
    d.storable = true ∧ ∃ k, c = d.bytes ++ List.replicate k (signByte d.digits) := by
  unfold ofBytes? at h
  split at h
  · cases h
  · next hlen =>
      have hscale : (c.take 8).length = 8 := by
        rw [List.length_take]
        omega
      have hdigits : c.drop 8 ≠ [] := by
        rw [Ne, ← List.length_eq_zero_iff, List.length_drop]
        omega
      dsimp only at h
      split at h
      · next hstore =>
          cases h
          obtain ⟨k, hk⟩ := Bytes.exists_eq_ofInt_append hdigits
          refine ⟨hstore, k, ?_⟩
          rw [bytes, Bytes.ofInt64_toInt64 hscale, List.append_assoc, ← hk, List.take_append_drop]
      · cases h

/-- A decimal is read from the bytes that it is written with, maybe with sign bytes behind them, if
its scale can be stored; no other bytes are read as it. -/
theorem ofBytes?_eq_some_iff :
    ofBytes? c = some d ↔
      d.storable = true ∧ ∃ k, c = d.bytes ++ List.replicate k (signByte d.digits) := by
  refine ⟨eq_append_of_ofBytes?, ?_⟩
  rintro ⟨hstore, k, rfl⟩
  rw [ofBytes?_append_signBytes, if_pos hstore]

theorem ofBytes?_bytes_eq (d : Decimal) :
    ofBytes? d.bytes = if d.storable then some d else none := by
  have h := ofBytes?_append_signBytes d 0
  rwa [List.replicate_zero, List.append_nil] at h

theorem decode_number (c : Bytes) :
    Container.decode .number c =
      match ofBytes? c with
      | some d => .ok (.number d)
      | none => .error .invalidNumber := rfl

/-- Written and read again, a decimal is the same pair of digits and scale if the scale can be
stored, and otherwise it is refused as an invalid number.  Bytes from which a decimal is read hold
the eight bytes of its scale, its digits in as few bytes as possible, and then only bytes that
repeat the sign; so to write it again takes no more bytes, the first eight are the same, and it is
read from them as the same pair. -/
theorem bytes_read_back :
    (∀ d : Decimal,
      ofBytes? d.bytes = (if d.storable then some d else none) ∧
      Container.decode .number d.bytes =
        if d.storable then .ok (.number d) else .error .invalidNumber) ∧
    (∀ (c : Bytes) (d : Decimal), ofBytes? c = some d ↔
      d.storable = true ∧ ∃ k, c = d.bytes ++ List.replicate k (signByte d.digits)) ∧
    ∀ (c : Bytes) (d : Decimal), ofBytes? c = some d →
      d.bytes.length ≤ c.length ∧ d.bytes.take 8 = c.take 8 ∧ ofBytes? d.bytes = some d := by
  refine ⟨fun d => ⟨ofBytes?_bytes_eq d, ?_⟩, fun c d => ofBytes?_eq_some_iff, fun c d h => ?_⟩
  · rw [decode_number, ofBytes?_bytes_eq]
    cases d.storable with
    | true => rfl
    | false => rfl
  · obtain ⟨hstore, k, rfl⟩ := eq_append_of_ofBytes? h
    refine ⟨?_, ?_, ofBytes?_bytes hstore⟩
    · rw [List.length_append]
      exact Nat.le_add_right _ _
    · rw [bytes, List.append_assoc, List.take_left' (Bytes.length_ofInt64 d.scale),
        List.take_left' (Bytes.length_ofInt64 d.scale)]

/-- The digits of -1.28 need one byte; with two more that repeat the sign they are read as well. -/
theorem bytes_read_back_extended :
    ofBytes? [2, 0, 0, 0, 0, 0, 0, 0, 128, 255, 255] = some ⟨-128, 2⟩ ∧
      bytes ⟨-128, 2⟩ = [2, 0, 0, 0, 0, 0, 0, 0, 128] ∧
      (bytes ⟨-128, 2⟩).length ≤ 11 ∧ ofBytes? (bytes ⟨-128, 2⟩) = some ⟨-128, 2⟩ := by
  have hread : ofBytes? [2, 0, 0, 0, 0, 0, 0, 0, 128, 255, 255] = some ⟨-128, 2⟩ := rfl
  have hbytes : bytes ⟨-128, 2⟩ = [2, 0, 0, 0, 0, 0, 0, 0, 128] := by
    rw [bytes, Bytes.ofInt]
    rfl
  obtain ⟨hlen, -, hback⟩ := bytes_read_back.2.2 _ _ hread
  exact ⟨hread, hbytes, hlen, hback⟩

/-! ### The bytes of a value -/

theorem bytes_injective : Function.Injective bytes := by
  intro a b h
  obtain ⟨hscale, hdigits⟩ := List.append_inj h
    ((Bytes.length_ofInt64 a.scale).trans (Bytes.length_ofInt64 b.scale).symm)
  obtain ⟨da, sa⟩ := a
  obtain ⟨db, sb⟩ := b
  obtain rfl : da = db := Bytes.ofInt_injective hdigits
  obtain rfl : sa = sb := Bytes.ofInt64_injective hscale
  rfl

theorem normalizedBytes_eq_iff : a.normalizedBytes = b.normalizedBytes ↔ a.value = b.value :=
  bytes_injective.eq_iff.trans normalized_eq_iff

/-- Decimals are equal, as numbers, exactly if their normalized bytes are the same; then they
add the same to any hash. -/
theorem normalizedBytes_complete (a b : Decimal) :
    (a.compare b = .eq ↔ a.value = b.value) ∧
      (a.compare b = .eq ↔ a.normalizedBytes = b.normalizedBytes) ∧
      (a.compare b = .eq → ∀ acc, (Value.number a).hash acc = (Value.number b).hash acc) := by
  have hbytes : a.compare b = .eq ↔ a.normalizedBytes = b.normalizedBytes :=
    compare_eq_eq_iff.trans normalizedBytes_eq_iff.symm
  refine ⟨compare_eq_eq_iff, hbytes, fun h acc => ?_⟩
  rw [Value.hash, Value.hash, Value.digest?, Value.digest?, hbytes.mp h]

/-- Minus five thousand, once with its zeros in the digits and once with them in the scale. -/
theorem normalizedBytes_complete_thousands :
    compare ⟨-5000, 0⟩ ⟨-5, -3⟩ = .eq ∧ normalizedBytes ⟨-5000, 0⟩ = normalizedBytes ⟨-5, -3⟩ ∧
      ∀ acc, (Value.number ⟨-5000, 0⟩).hash acc = (Value.number ⟨-5, -3⟩).hash acc := by
  have hsame : compare ⟨-5000, 0⟩ ⟨-5, -3⟩ = .eq := by decide
  obtain ⟨-, hbytes, hhash⟩ := normalizedBytes_complete ⟨-5000, 0⟩ ⟨-5, -3⟩
  exact ⟨hsame, hbytes.mp hsame, hhash hsame⟩

end Decimal

end PackedTree
