import PackedTree.Decimal.Reading
import PackedTree.Proofs.DecimalOrder
import PackedTree.Proofs.NumeralValue
import Mathlib.Tactic.IntervalCases

/-! # Numerals are read as decimals

The text of a numeral is read in two halves.  From its base the digits are taken as one integer, the
coefficient, and the places behind the point are counted; the exponent is subtracted from them, and
what comes out is the scale.  So a numeral is legible if its exponent fits 128 bits and its scale
can be stored (`Numeral.Legible`); then, and only then, its text is read, and as a decimal of the
value of the numeral (`Decimal.exists_read_iff`, `Decimal.value_of_read`). -/

namespace PackedTree

namespace Numeral

/-- All digits of a numeral as one integer, with its sign. -/
def coefficient (n : Numeral) : Int := if n.negative then -n.significand else n.significand

/-- The scale that point and exponent give. -/
def scale (n : Numeral) : Int := n.fraction.length - n.power

theorem value_eq_coefficient (n : Numeral) : n.value = n.coefficient * 10 ^ (-n.scale) := by
  have hscale : n.power - n.fraction.length = -n.scale := by
    unfold scale
    omega
  rw [value_eq, hscale, coefficient]
  cases n.negative <;> simp

/-- The exponent is one that can be read, and the scale one that can be stored. -/
structure Legible (n : Numeral) : Prop where
  power_ge : -2 ^ 127 ≤ n.power
  power_lt : n.power < 2 ^ 127
  scale_ge : -Decimal.maxScale ≤ n.scale
  scale_le : n.scale ≤ Decimal.maxScale

/-! ### Digits in a text -/

theorem digitChar_digit {c : Char} (h : isDigit c = true) : Nat.digitChar (digit c).val = c := by
  simp only [isDigit, Bool.and_eq_true, decide_eq_true_eq, Char.le_def,
    UInt32.le_iff_toNat_le] at h
  have hc : c.toNat = c.val.toNat := rfl
  have h48 : ('0' : Char).val.toNat = 48 := rfl
  have h57 : ('9' : Char).val.toNat = 57 := rfl
  obtain ⟨k, hk, hlt⟩ : ∃ k, c.toNat = 48 + k ∧ k < 10 := ⟨c.toNat - 48, by omega, by omega⟩
  obtain rfl : c = Char.ofNat (48 + k) := by rw [← hk, Char.ofNat_toNat]
  interval_cases k <;> rfl

theorem digitChars_map_digit {cs : List Char} (h : ∀ c ∈ cs, isDigit c = true) :
    digitChars (cs.map digit) = cs := by
  rw [digitChars, List.map_map]
  exact (List.map_congr_left fun c hc => digitChar_digit (h c hc)).trans (List.map_id cs)

/-- A natural is written with the characters of digits that spell it, of which there is at least
one. -/
theorem exists_toDigits (n : Nat) :
    ∃ d ds, Nat.toDigits 10 n = digitChars (d :: ds) ∧ ofDigits (d :: ds) = n := by
  have hdigits : ∀ c ∈ Nat.toDigits 10 n, isDigit c = true := by
    intro c hc
    have h : c.isDigit = true := Nat.isDigit_of_mem_toDigits (by decide) (by decide) hc
    exact h
  have hchars := digitChars_map_digit hdigits
  have hvalue := ofDigits_toDigits n
  cases hds : (Nat.toDigits 10 n).map digit with
  | nil => exact absurd (List.map_eq_nil_iff.mp hds) Nat.toDigits_ne_nil
  | cons d ds =>
      rw [hds] at hchars hvalue
      exact ⟨d, ds, hchars.symm, hvalue⟩

theorem digitChar_ne (d : Fin 10) {m : Char} (hm : m ∈ ['-', '+', '_', '.', 'e', 'E']) :
    Nat.digitChar d.val ≠ m := by
  have h : Nat.digitChar d.val ∉ ['-', '+', '_', '.', 'e', 'E'] := by
    revert d
    decide
  rintro rfl
  exact h hm

theorem ne_of_mem_digitChars {ds : List (Fin 10)} {c m : Char} (hc : c ∈ digitChars ds)
    (hm : m ∈ ['-', '+', '_', '.', 'e', 'E']) : c ≠ m := by
  obtain ⟨d, -, rfl⟩ := List.mem_map.mp hc
  exact digitChar_ne d hm

theorem digitChars_append (ds es : List (Fin 10)) :
    digitChars (ds ++ es) = digitChars ds ++ digitChars es := List.map_append

end Numeral

namespace Decimal

open Numeral (digitChars ofDigits digitChar_ne ne_of_mem_digitChars)

variable {ds : List (Fin 10)}

theorem digit?_digitChar (d : Fin 10) : digit? (Nat.digitChar d.val) = some d.val := by
  revert d
  decide

/-! ### Integers -/

theorem readBounded_digitChars (bound : Nat) (fault : IntegerFault) (ds : List (Fin 10)) {acc : Nat}
    (h : acc ≤ bound) :
    readBounded bound fault acc (digitChars ds) =
      if acc * 10 ^ ds.length + ofDigits ds ≤ bound
      then .ok (acc * 10 ^ ds.length + ofDigits ds) else .error fault := by
  induction ds generalizing acc with
  | nil =>
      have hacc : acc * 10 ^ ([] : List (Fin 10)).length + ofDigits [] = acc := by
        simp [ofDigits]
      rw [hacc, if_pos h]
      rfl
  | cons d ds ih =>
      have hsum : acc * 10 ^ (d :: ds).length + ofDigits (d :: ds) =
          (10 * acc + d.val) * 10 ^ ds.length + ofDigits ds := by
        rw [Numeral.ofDigits_cons, List.length_cons]
        ring
      have hread : readBounded bound fault acc (digitChars (d :: ds)) =
          if 10 * acc + d.val ≤ bound
          then readBounded bound fault (10 * acc + d.val) (digitChars ds) else .error fault := by
        show readBounded bound fault acc (Nat.digitChar d.val :: digitChars ds) = _
        rw [readBounded, digit?_digitChar]
      rw [hsum, hread]
      by_cases hd : 10 * acc + d.val ≤ bound
      · rw [if_pos hd, ih hd]
      · have hpow := Nat.le_mul_of_pos_right (10 * acc + d.val) (Nat.pow_pos (n := ds.length)
          (show 0 < 10 by decide))
        rw [if_neg hd, if_neg (by omega)]

theorem readSpaced_digitChars (ds : List (Fin 10)) (acc : Nat) :
    readSpaced acc (digitChars ds) = .ok (acc * 10 ^ ds.length + ofDigits ds) := by
  induction ds generalizing acc with
  | nil => simp [digitChars, readSpaced, ofDigits]
  | cons d ds ih =>
      have hd : Nat.digitChar d.val ≠ '_' := digitChar_ne d (by decide)
      show readSpaced acc (Nat.digitChar d.val :: digitChars ds) = _
      rw [readSpaced, if_neg hd, digit?_digitChar]
      show readSpaced (10 * acc + d.val) (digitChars ds) = _
      rw [ih, Numeral.ofDigits_cons, List.length_cons]
      congr 1
      ring

theorem readNatural_digitChars (h : ds ≠ []) : readNatural (digitChars ds) = .ok (ofDigits ds) := by
  cases ds with
  | nil => exact absurd rfl h
  | cons d ds =>
      have hplus : Nat.digitChar d.val ≠ '+' := digitChar_ne d (by decide)
      have hspace : Nat.digitChar d.val ≠ '_' := digitChar_ne d (by decide)
      have hdrop : dropSign '+' (digitChars (d :: ds)) = Nat.digitChar d.val :: digitChars ds := by
        show dropSign '+' (Nat.digitChar d.val :: digitChars ds) = _
        rw [dropSign, if_neg fun h => hplus h.1]
      have hspaced := readSpaced_digitChars (d :: ds) 0
      rw [Nat.zero_mul, Nat.zero_add] at hspaced
      unfold readNatural
      rw [hdrop]
      split
      · next heq => cases heq
      · next heq => exact absurd (List.cons.inj heq).1 hspace
      · exact hspaced

theorem readInteger_digitChars (negative : Bool) (h : ds ≠ []) :
    readInteger ((if negative then ['-'] else []) ++ digitChars ds) =
      .ok (if negative then -ofDigits ds else ofDigits ds) := by
  have hnatural := readNatural_digitChars h
  cases ds with
  | nil => exact absurd rfl h
  | cons d ds =>
      have hplus : Nat.digitChar d.val ≠ '+' := digitChar_ne d (by decide)
      have hminus : Nat.digitChar d.val ≠ '-' := digitChar_ne d (by decide)
      cases negative with
      | true =>
          have hdrop : dropSign '-' ('-' :: digitChars (d :: ds)) = digitChars (d :: ds) := by
            refine if_pos ⟨rfl, ?_⟩
            show some (Nat.digitChar d.val) ≠ some '+'
            exact fun h => hplus (Option.some.inj h)
          show (readNatural (dropSign '-' ('-' :: digitChars (d :: ds)))).map _ = _
          rw [hdrop, hnatural]
          rfl
      | false =>
          unfold readInteger
          split
          · next heq => exact absurd (List.cons.inj heq).1 hminus
          · show (readNatural (digitChars (d :: ds))).map Int.ofNat = _
            rw [hnatural]
            rfl

/-! ### The halves of a numeral -/

theorem readExponent_eq_ok_iff {e : Exponent} {x : Int} :
    readExponent ((if e.negative then '-' else '+') :: digitChars (e.first :: e.others)) = .ok x ↔
      x = e.value ∧ -2 ^ 127 ≤ x ∧ x < 2 ^ 127 := by
  obtain ⟨negative, d, ds⟩ := e
  have hbound : (1 <<< 127 : Nat) = 2 ^ 127 := by decide
  have hread := fun bound fault => readBounded_digitChars bound fault (d :: ds) (Nat.zero_le bound)
  simp only [Nat.zero_mul, Nat.zero_add] at hread
  cases negative with
  | true =>
      show (readBounded _ _ 0 (digitChars (d :: ds))).map _ = _ ↔
        x = (-1) * (ofDigits (d :: ds) : Int) ∧ _
      rw [hread, hbound]
      split_ifs with h
      · simp only [Except.map, Except.ok.injEq, Int.ofNat_eq_natCast]
        omega
      · simp only [Except.map, reduceCtorEq, false_iff]
        omega
  | false =>
      show (readBounded _ _ 0 (digitChars (d :: ds))).map _ = _ ↔
        x = 1 * (ofDigits (d :: ds) : Int) ∧ _
      rw [hread, hbound]
      split_ifs with h
      · simp only [Except.map, Except.ok.injEq, Int.ofNat_eq_natCast]
        omega
      · simp only [Except.map, reduceCtorEq, false_iff]
        omega

/-- The sign of a numeral and its whole part. -/
def front (negative : Bool) (ds : List (Fin 10)) : List Char :=
  (if negative then ['-'] else []) ++ digitChars ds

/-- The point of a numeral and its fraction. -/
def back (ds : List (Fin 10)) : List Char := if ds.isEmpty then [] else '.' :: digitChars ds

/-- The exponent of a numeral. -/
def mark : Option Exponent → List Char
  | none => []
  | some e => Numeral.exponentChars e

theorem ne_of_mem_front {negative : Bool} {c m : Char} (hc : c ∈ front negative ds)
    (hm : m ∈ ['.', 'e', 'E']) : c ≠ m := by
  rcases List.mem_append.mp hc with hc | hc
  · rintro rfl
    cases negative with
    | true => obtain rfl := List.mem_singleton.mp hc; exact absurd hm (by decide)
    | false => cases hc
  · exact ne_of_mem_digitChars hc (List.mem_append_right ['-', '+', '_'] hm)

theorem splitPoint_front (negative : Bool) (whole fraction : List (Fin 10)) :
    splitPoint (front negative whole ++ back fraction) =
      (front negative (whole ++ fraction), fraction.length) := by
  have hfront : ∀ c ∈ front negative whole, (c != '.') = true := fun c hc =>
    bne_iff_ne.mpr (ne_of_mem_front hc (by decide))
  unfold splitPoint
  rw [List.dropWhile_append_of_pos hfront, List.takeWhile_append_of_pos hfront]
  cases fraction with
  | nil => simp [back]
  | cons d ds =>
      have hspaces : (digitChars (d :: ds)).filter (· != '_') = digitChars (d :: ds) :=
        List.filter_eq_self.mpr fun c hc => bne_iff_ne.mpr (ne_of_mem_digitChars hc (by decide))
      show (_ ++ [] ++ digitChars (d :: ds), ((digitChars (d :: ds)).filter (· != '_')).length) = _
      rw [hspaces, List.append_nil, front, front, List.append_assoc, Numeral.digitChars_append]
      simp [digitChars]

theorem not_opensExponent_of_mem {negative : Bool} {whole fraction : List (Fin 10)} {c : Char}
    (hc : c ∈ front negative whole ++ back fraction) : (!opensExponent c) = true := by
  have h : c ≠ 'e' ∧ c ≠ 'E' := by
    rcases List.mem_append.mp hc with hc | hc
    · exact ⟨ne_of_mem_front hc (by decide), ne_of_mem_front hc (by decide)⟩
    · unfold back at hc
      split at hc
      · cases hc
      · rcases List.mem_cons.mp hc with rfl | hc
        · decide
        · exact ⟨ne_of_mem_digitChars hc (by decide), ne_of_mem_digitChars hc (by decide)⟩
  simpa [opensExponent] using h

theorem exists_chars (n : Numeral) :
    ∃ whole, whole ≠ [] ∧
      n.chars = front n.negative whole ++ back n.fraction ++ mark n.exponent ∧
      ofDigits (whole ++ n.fraction) = n.significand := by
  obtain ⟨d, ds, hchars, hvalue⟩ := Numeral.exists_toDigits n.whole
  refine ⟨d :: ds, List.cons_ne_nil d ds, ?_, ?_⟩
  · rw [Numeral.chars, hchars, front, back, List.append_assoc, List.append_assoc]
    cases n.exponent <;> rfl
  · rw [Numeral.ofDigits_append, hvalue, Numeral.significand]

theorem splitExponent_eq_ok_iff {base : List Char} {n : Numeral}
    (hbase : ∀ c ∈ base, (!opensExponent c) = true) {r : List Char × Int} :
    splitExponent (base ++ mark n.exponent) = .ok r ↔
      r = (base, n.power) ∧ -2 ^ 127 ≤ n.power ∧ n.power < 2 ^ 127 := by
  unfold splitExponent
  rw [List.dropWhile_append_of_pos hbase, List.takeWhile_append_of_pos hbase, Numeral.power]
  cases n.exponent with
  | none =>
      show Except.ok (base ++ [], 0) = Except.ok r ↔ r = (base, 0) ∧ _
      rw [List.append_nil]
      constructor
      · rintro ⟨⟩
        exact ⟨rfl, by decide⟩
      · rintro ⟨rfl, -⟩
        rfl
  | some e =>
      have htake : (mark (some e)).takeWhile (!opensExponent ·) = [] := rfl
      have hdrop : (mark (some e)).dropWhile (!opensExponent ·) = mark (some e) := rfl
      rw [htake, hdrop, List.append_nil, mark, Numeral.exponentChars]
      cases hread : readExponent ((if e.negative then '-' else '+') ::
          digitChars (e.first :: e.others)) with
      | ok v =>
          obtain ⟨rfl, hv⟩ := readExponent_eq_ok_iff.mp hread
          simp only [hread]
          constructor
          · rintro ⟨⟩
            exact ⟨rfl, hv⟩
          · rintro ⟨rfl, -⟩
            rfl
      | error f =>
          simp only [hread]
          constructor
          · rintro ⟨⟩
          · rintro ⟨rfl, hv⟩
            cases hread.symm.trans (readExponent_eq_ok_iff.mpr ⟨rfl, hv⟩)

/-- A scale fits if it can be stored, and where it fits it is kept. -/
theorem scale?_cases (s : Int) :
    scale? s = none ∧ ¬ (-maxScale ≤ s ∧ s ≤ maxScale) ∨
      scale? s = some (Int64.ofInt s) ∧ (Int64.ofInt s).toInt = s := by
  have hmax : maxScale = 16383 := rfl
  have hmin : Int64.minValue.toInt = -2 ^ 63 := rfl
  have htop : Int64.maxValue.toInt = 2 ^ 63 - 1 := rfl
  unfold scale?
  by_cases h : Int64.minValue.toInt ≤ s ∧ s ≤ Int64.maxValue.toInt
  · rw [if_pos h]
    refine .inr ⟨rfl, Int64.toInt_ofInt_of_le ?_ ?_⟩
    · exact hmin ▸ h.1
    · omega
  · rw [if_neg h]
    refine .inl ⟨rfl, ?_⟩
    omega

/-- A numeral that is legible is read with its coefficient and scale, and no other is read. -/
theorem read_eq_ok_iff {n : Numeral} {d : Decimal} :
    read n.text = .ok d ↔ n.Legible ∧ d = ⟨n.coefficient, Int64.ofInt n.scale⟩ := by
  obtain ⟨whole, hne, hchars, hvalue⟩ := exists_chars n
  have hempty : (front n.negative whole ++ back n.fraction).isEmpty = false := by
    rw [List.isEmpty_eq_false_iff, front, List.append_assoc]
    refine List.append_ne_nil_of_right_ne_nil _ (List.append_ne_nil_of_left_ne_nil ?_ _)
    exact fun h => hne (List.map_eq_nil_iff.mp h)
  have hsplit : ∀ r, splitExponent (front n.negative whole ++ back n.fraction ++ mark n.exponent) =
      .ok r ↔ _ := fun r => splitExponent_eq_ok_iff fun c hc => not_opensExponent_of_mem hc
  have hdigits : readInteger (front n.negative (whole ++ n.fraction)) = .ok n.coefficient := by
    rw [front, readInteger_digitChars n.negative (List.append_ne_nil_of_left_ne_nil hne _), hvalue]
    rfl
  unfold read
  rw [Numeral.text, String.toList_ofList, hchars]
  cases h : splitExponent (front n.negative whole ++ back n.fraction ++ mark n.exponent) with
  | error f =>
      constructor
      · rintro ⟨⟩
      · rintro ⟨hn, -⟩
        cases h.symm.trans ((hsplit _).mpr ⟨rfl, hn.power_ge, hn.power_lt⟩)
  | ok r =>
      obtain ⟨rfl, hge, hlt⟩ := (hsplit r).mp h
      have hscale_eq : (n.fraction.length : Int) - n.power = n.scale := rfl
      simp only [bind, Except.bind, hempty, splitPoint_front, Bool.false_eq_true, if_false,
        hscale_eq]
      rcases scale?_cases n.scale with ⟨hs, hout⟩ | ⟨hs, hscale⟩
      · simp only [hs]
        constructor
        · rintro ⟨⟩
        · rintro ⟨hn, -⟩
          exact absurd ⟨hn.scale_ge, hn.scale_le⟩ hout
      · simp only [hs, hdigits, storable, hscale, Bool.and_eq_true, decide_eq_true_eq]
        split
        · next hstore =>
            constructor
            · rintro ⟨⟩
              exact ⟨⟨hge, hlt, hstore.1, hstore.2⟩, rfl⟩
            · rintro ⟨-, rfl⟩
              rfl
        · next hstore =>
            constructor
            · rintro ⟨⟩
            · rintro ⟨hn, -⟩
              exact absurd ⟨hn.scale_ge, hn.scale_le⟩ hstore

theorem exists_read_iff {n : Numeral} : (∃ d, read n.text = .ok d) ↔ n.Legible := by
  constructor
  · rintro ⟨d, hd⟩
    exact (read_eq_ok_iff.mp hd).1
  · intro hn
    exact ⟨_, read_eq_ok_iff.mpr ⟨hn, rfl⟩⟩

/-- What is read has the value of the numeral, and it can be stored. -/
theorem value_of_read {n : Numeral} {d : Decimal} (h : read n.text = .ok d) :
    d.value = n.value ∧ d.storable = true := by
  obtain ⟨hn, rfl⟩ := read_eq_ok_iff.mp h
  have hscale : (Int64.ofInt n.scale).toInt = n.scale := by
    rcases scale?_cases n.scale with ⟨-, hout⟩ | ⟨-, hscale⟩
    · exact absurd ⟨hn.scale_ge, hn.scale_le⟩ hout
    · exact hscale
  constructor
  · rw [Decimal.value, hscale, Numeral.value_eq_coefficient]
  · simp only [storable, hscale, Bool.and_eq_true, decide_eq_true_eq]
    exact ⟨hn.scale_ge, hn.scale_le⟩

end Decimal

end PackedTree
