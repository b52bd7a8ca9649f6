import PackedTree.Decimal.Display
import PackedTree.Proofs.DecimalOrder
import PackedTree.Proofs.NumeralValue
import Mathlib.Tactic.IntervalCases

/-! # Decimals are written as numerals

The text of a numeral is a whole part without leading zeros, maybe a point with digits behind it,
and maybe an exponent (`Numeral.IsUnsigned`); it is read as the numeral with these parts, also
behind a minus and in front of whatever does not continue it (`read?_of_isUnsigned`).  Whatever
layout the scale of a decimal calls for, its text is one of these and spells the digits at that
scale, or the digits with zeros behind them (`exists_spells`).  So the text of every decimal is a
numeral that shows the decimal (`exists_shows`) and has its value (`exists_numeral`). -/

namespace PackedTree

namespace Numeral

/-! ### The parts of a numeral -/

structure IsDigits (ds : List Char) : Prop where
  ne_nil : ds ≠ []
  digit : ∀ c ∈ ds, isDigit c = true

/-- Digits with no zero in front of others. -/
structure IsWhole (ds : List Char) : Prop extends IsDigits ds where
  leading : ds.head? = some '0' → ds.length = 1

/-- The text of a fraction, which may be absent. -/
inductive IsFraction : List Char → List (Fin 10) → Prop
  | absent : IsFraction [] []
  | point {ds : List Char} (h : IsDigits ds) : IsFraction ('.' :: ds) (ds.map digit)

/-- The text of an exponent, which may be absent. -/
inductive IsExponent : List Char → Option Exponent → Prop
  | absent : IsExponent [] none
  | marked {e d : Char} {ds : List Char} (he : e = 'e' ∨ e = 'E') (negative : Bool)
      (h : IsDigits (d :: ds)) :
      IsExponent (e :: (if negative then '-' else '+') :: d :: ds)
        (some ⟨negative, digit d, ds.map digit⟩)

/-- The text of a numeral without a sign. -/
inductive IsUnsigned : List Char → Numeral → Prop
  | parts {w f x : List Char} {fraction : List (Fin 10)} {exponent : Option Exponent}
      (hw : IsWhole w) (hf : IsFraction f fraction) (hx : IsExponent x exponent) :
      IsUnsigned (w ++ (f ++ x)) ⟨false, ofDigits (w.map digit), fraction, exponent⟩

variable {ds cs w f x : List Char} {fraction : List (Fin 10)} {exponent : Option Exponent}
  {n : Numeral}

/-! ### Reading the parts -/

/-- A text whose first character, if there is one, is no digit. -/
def Stops (cs : List Char) : Prop := ∀ c, cs.head? = some c → isDigit c = false

theorem readDigits_append (h : ∀ c ∈ ds, isDigit c = true) (hr : Stops cs) :
    readDigits (ds ++ cs) = (ds.map digit, cs) := by
  unfold readDigits
  rw [List.takeWhile_append_of_pos h, List.dropWhile_append_of_pos h]
  cases cs with
  | nil => simp
  | cons c cs => simp [hr c rfl]

theorem eq_zero_of_digit {c : Char} (h : isDigit c = true) (h0 : digit c = 0) : c = '0' := by
  simp only [isDigit, Bool.and_eq_true, decide_eq_true_eq, Char.le_def,
    UInt32.le_iff_toNat_le] at h
  have hv : (digit c).val = (c.toNat - 48) % 10 := rfl
  have hc : c.toNat = c.val.toNat := rfl
  have h48 : ('0' : Char).val.toNat = 48 := rfl
  have h57 : ('9' : Char).val.toNat = 57 := rfl
  rw [h0] at hv
  have hv : (c.toNat - 48) % 10 = 0 := hv.symm
  refine Char.toNat_inj.mp ?_
  show c.toNat = 48
  omega

theorem readWhole_append (h : IsWhole ds) (hr : Stops cs) :
    readWhole (ds ++ cs) = some (ofDigits (ds.map digit), cs) := by
  unfold readWhole
  rw [readDigits_append h.digit hr]
  cases ds with
  | nil => exact absurd rfl h.ne_nil
  | cons c ds =>
      have hlead : ¬ (digit c = 0 ∧ ds.map digit ≠ []) := by
        rintro ⟨h0, hne⟩
        obtain rfl := eq_zero_of_digit (h.digit c List.mem_cons_self) h0
        have hlen := h.leading rfl
        rw [List.length_cons, Nat.add_eq_right, List.length_eq_zero_iff] at hlen
        exact hne (by rw [hlen]; rfl)
      exact if_neg hlead

/-- A text that does not continue a numeral before it. -/
def Ends (cs : List Char) : Prop :=
  ∀ c, cs.head? = some c → isDigit c = false ∧ c ≠ '.' ∧ c ≠ 'e' ∧ c ≠ 'E'

theorem Ends.stops (h : Ends cs) : Stops cs := fun c hc => (h c hc).1

theorem ends_nil : Ends [] := nofun

theorem stops_of_isExponent (h : IsExponent x exponent) (hr : Ends cs) :
    Stops (x ++ cs) ∧ (x ++ cs).head? ≠ some '.' := by
  cases h with
  | absent => exact ⟨hr.stops, fun hc => (hr '.' hc).2.1 rfl⟩
  | marked he =>
      rcases he with rfl | rfl
      · exact ⟨fun c hc => by cases hc; rfl, by simp⟩
      · exact ⟨fun c hc => by cases hc; rfl, by simp⟩

theorem readExponent_of_isExponent (h : IsExponent x exponent) (hr : Ends cs) :
    readExponent (x ++ cs) = some (exponent, cs) := by
  cases h with
  | absent =>
      rw [List.nil_append]
      cases cs with
      | nil => rfl
      | cons c cs =>
          obtain ⟨-, -, he, hE⟩ := hr c rfl
          simp only [readExponent, he, hE, or_self, if_false]
  | @marked e d ds he negative h =>
      have hsign : readSign ((if negative then '-' else '+') :: (d :: ds ++ cs)) =
          (negative, d :: ds ++ cs) := by
        cases negative <;> rfl
      have hd := readDigits_append h.digit hr.stops
      simp only [List.cons_append] at hsign hd ⊢
      simp only [readExponent, if_pos he, hsign, hd, List.map_cons]

theorem readFraction_of_isFraction (hf : IsFraction f fraction) (hx : IsExponent x exponent)
    (hr : Ends cs) :
    Stops (f ++ (x ++ cs)) ∧ readFraction (f ++ (x ++ cs)) = some (fraction, x ++ cs) := by
  obtain ⟨hstop, hpoint⟩ := stops_of_isExponent hx hr
  cases hf with
  | absent =>
      refine ⟨hstop, ?_⟩
      rw [List.nil_append]
      unfold readFraction
      split
      · next heq => exact absurd (congrArg List.head? heq) hpoint
      · rfl
  | @point ds h =>
      refine ⟨fun c hc => by cases hc; rfl, ?_⟩
      simp only [List.cons_append, readFraction, readDigits_append h.digit hstop]
      cases ds with
      | nil => exact absurd rfl h.ne_nil
      | cons d ds => rfl

/-- Behind an optional minus the parts of a numeral are read one after the other, up to what does
not continue it. -/
theorem read?_of_isUnsigned (h : IsUnsigned cs n) {rest : List Char} (hr : Ends rest) :
    read? (cs ++ rest) = some (n, rest) ∧
      read? ('-' :: (cs ++ rest)) = some ({ n with negative := true }, rest) := by
  cases h with
  | @parts w f x fraction exponent hw hf hx =>
      obtain ⟨hstop, hfraction⟩ := readFraction_of_isFraction hf hx hr
      have hwhole := readWhole_append hw hstop
      have hexponent := readExponent_of_isExponent hx hr
      rw [List.append_assoc, List.append_assoc]
      constructor
      · cases w with
        | nil => exact absurd rfl hw.ne_nil
        | cons c w =>
            have hc : c ≠ '-' := by
              rintro rfl
              exact absurd (hw.digit '-' List.mem_cons_self) (by decide)
            rw [List.cons_append] at hwhole
            simp [read?, hc, hwhole, hfraction, hexponent]
      · simp [read?, hwhole, hfraction, hexponent]

theorem IsUnsigned.negative (h : IsUnsigned cs n) : n.negative = false := by
  cases h
  rfl

theorem ofChars?_of_isUnsigned (h : IsUnsigned cs n) :
    ofChars? cs = some n ∧ ofChars? ('-' :: cs) = some { n with negative := true } := by
  obtain ⟨hpos, hneg⟩ := read?_of_isUnsigned h ends_nil
  rw [List.append_nil] at hpos hneg
  simp only [ofChars?, hpos, hneg, and_self]

end Numeral

namespace Decimal

open Numeral

/-! ### The digits of a natural -/

theorem isDigits_toDigits (n : Nat) : IsDigits (Nat.toDigits 10 n) := by
  refine ⟨Nat.toDigits_ne_nil, fun c hc => ?_⟩
  have h : c.isDigit = true := Nat.isDigit_of_mem_toDigits (by decide) (by decide) hc
  exact h

theorem head?_toDigits {n : Nat} (h : (Nat.toDigits 10 n).head? = some '0') : n = 0 := by
  induction n using Nat.strongRecOn with
  | ind n ih =>
      by_cases hn : n < 10
      · rw [Nat.toDigits_of_lt_base hn] at h
        interval_cases n <;> first | rfl | exact absurd h (by decide)
      · have hb : 10 ≤ n := Nat.le_of_not_lt hn
        rw [Nat.toDigits_of_base_le (by decide) hb,
          List.head?_append_of_ne_nil _ Nat.toDigits_ne_nil] at h
        have h0 := ih (n / 10) (by omega) h
        omega

theorem isWhole_toDigits (n : Nat) : IsWhole (Nat.toDigits 10 n) := by
  refine ⟨isDigits_toDigits n, fun h => ?_⟩
  rw [head?_toDigits h]
  rfl

/-! ### The layouts -/

variable {ds : List Char}

theorem exists_isExponent {e : Char} (he : e = 'e' ∨ e = 'E') (x : Int) :
    ∃ exponent, IsExponent (e :: exponentChars x) (some exponent) ∧ exponent.value = x := by
  have hd := isDigits_toDigits x.natAbs
  have hvalue := ofDigits_toDigits x.natAbs
  unfold exponentChars
  cases hds : Nat.toDigits 10 x.natAbs with
  | nil => exact absurd hds hd.ne_nil
  | cons d ds =>
      rw [hds] at hd hvalue
      refine ⟨⟨decide (x < 0), digit d, ds.map digit⟩, ?_, ?_⟩
      · have hmarked := IsExponent.marked he (decide (x < 0)) hd
        simp only [decide_eq_true_eq] at hmarked
        exact hmarked
      · rw [List.map_cons] at hvalue
        simp only [Exponent.value, hvalue, decide_eq_true_eq]
        split <;> omega

theorem isDigits_zeros_append (n : Nat) (h : IsDigits ds) :
    IsDigits (List.replicate n '0' ++ ds) := by
  refine ⟨List.append_ne_nil_of_right_ne_nil _ h.ne_nil, fun c hc => ?_⟩
  rcases List.mem_append.mp hc with hc | hc
  · rw [List.eq_of_mem_replicate hc]
    rfl
  · exact h.digit c hc

theorem isWhole_append_zeros (h : IsWhole ds) {n : Nat} (hz : ds.head? = some '0' → n = 0) :
    IsWhole (ds ++ List.replicate n '0') := by
  refine ⟨⟨List.append_ne_nil_of_left_ne_nil h.ne_nil _, fun c hc => ?_⟩, fun hhead => ?_⟩
  · rcases List.mem_append.mp hc with hc | hc
    · exact h.digit c hc
    · rw [List.eq_of_mem_replicate hc]
      rfl
  · rw [List.head?_append_of_ne_nil _ h.ne_nil] at hhead
    rw [hz hhead, List.replicate_zero, List.append_nil, h.leading hhead]

theorem map_digit_zeros (n : Nat) : (List.replicate n '0').map digit = List.replicate n 0 := by
  rw [List.map_replicate]
  rfl

/-- Some numeral without a sign is spelled by a text and has the given digits at the given scale;
its power is positive only if it has no fraction. -/
def Spells (cs : List Char) (digits : Nat) (scale : Int) : Prop :=
  ∃ n, IsUnsigned cs n ∧ n.significand = digits ∧ n.power - n.fraction.length = -scale ∧
    (n.power ≤ 0 ∨ n.fraction = [])

theorem significand_parts (whole fraction : List (Fin 10)) (exponent : Option Exponent) :
    significand ⟨false, ofDigits whole, fraction, exponent⟩ = ofDigits (whole ++ fraction) := by
  rw [significand, ofDigits_append]

theorem spells_exponent (h : IsWhole ds) (scale : Int) :
    Spells (ds ++ 'e' :: exponentChars (-scale)) (ofDigits (ds.map digit)) scale := by
  obtain ⟨e, he, hvalue⟩ := exists_isExponent (.inl rfl) (-scale)
  refine ⟨_, .parts h .absent he, ?_, ?_, .inr rfl⟩
  · rw [significand_parts, List.append_nil]
  · show e.value - 0 = -scale
    omega

theorem spells_zeros (h : IsWhole ds) {n : Nat} (hz : ds.head? = some '0' → n = 0) :
    Spells (ds ++ List.replicate n '0') (ofDigits (ds.map digit) * 10 ^ n) 0 := by
  have hparts := IsUnsigned.parts (isWhole_append_zeros h hz) .absent .absent
  rw [List.append_nil, List.append_nil] at hparts
  refine ⟨_, hparts, ?_, rfl, .inr rfl⟩
  rw [significand_parts, List.append_nil, List.map_append, ofDigits_append, map_digit_zeros,
    ofDigits_zeros, List.length_replicate, Nat.add_zero]

theorem spells_pointed (h : IsWhole ds) {scale : Int} (hs : 0 < scale) (hl : scale < ds.length)
    (hz : ds.head? ≠ some '0') :
    Spells (ds.take (ds.length - scale).toNat ++ '.' :: ds.drop (ds.length - scale).toNat)
      (ofDigits (ds.map digit)) scale := by
  obtain ⟨k, hk⟩ : ∃ k : Nat, (ds.length - scale).toNat = k := ⟨_, rfl⟩
  rw [hk]
  have hw : IsWhole (ds.take k) := by
    refine ⟨⟨?_, fun c hc => h.digit c (List.mem_of_mem_take hc)⟩, fun hhead => ?_⟩
    · rw [Ne, ← List.length_eq_zero_iff, List.length_take]
      omega
    · rw [List.head?_take, if_neg (by omega)] at hhead
      exact absurd hhead hz
  have hf : IsDigits (ds.drop k) := by
    refine ⟨?_, fun c hc => h.digit c (List.mem_of_mem_drop hc)⟩
    rw [Ne, ← List.length_eq_zero_iff, List.length_drop]
    omega
  have hparts := IsUnsigned.parts hw (.point hf) .absent
  rw [List.append_nil] at hparts
  refine ⟨_, hparts, ?_, ?_, .inl le_rfl⟩
  · rw [significand_parts, ← List.map_append, List.take_append_drop]
  · show 0 - (((ds.drop k).map digit).length : Int) = -scale
    rw [List.length_map, List.length_drop]
    omega

theorem spells_pointAfterFirst (h : IsDigits ds) {scale : Int} (hs : ds.length ≤ scale) :
    Spells (pointAfterFirst ds ++ 'E' :: exponentChars (ds.length - scale - 1))
      (ofDigits (ds.map digit)) scale := by
  obtain ⟨e, he, hvalue⟩ := exists_isExponent (.inr rfl) (ds.length - scale - 1)
  match ds, h with
  | [], h => exact absurd rfl h.ne_nil
  | c :: cs, h =>
      have hc : IsWhole [c] :=
        ⟨⟨nofun, List.forall_mem_singleton.mpr (h.digit c List.mem_cons_self)⟩, fun _ => rfl⟩
      have hpower : e.value - (cs.map digit).length = -scale := by
        rw [hvalue, List.length_map, List.length_cons]
        omega
      have hle : e.value ≤ 0 := by omega
      cases cs with
      | nil =>
          refine ⟨_, .parts hc .absent he, ?_, hpower, .inl hle⟩
          rw [significand_parts]
          rfl
      | cons d cs =>
          have hf : IsDigits (d :: cs) := ⟨nofun, (List.forall_mem_cons.mp h.digit).2⟩
          refine ⟨_, .parts hc (.point hf) he, ?_, hpower, .inl hle⟩
          rw [significand_parts]
          rfl

theorem spells_zero_point (h : IsDigits ds) {scale : Int} (hl : ds.length ≤ scale) :
    Spells ('0' :: '.' :: (List.replicate (scale - ds.length).toNat '0' ++ ds))
      (ofDigits (ds.map digit)) scale := by
  have hzero : IsWhole ['0'] := isWhole_toDigits 0
  have hf := isDigits_zeros_append (scale - ds.length).toNat h
  have hparts := IsUnsigned.parts hzero (.point hf) .absent
  rw [List.append_nil] at hparts
  refine ⟨_, hparts, ?_, ?_, .inl le_rfl⟩
  · rw [significand_parts, List.map_append, map_digit_zeros, ofDigits_append, ofDigits_append,
      ofDigits_zeros]
    show 0 * _ + (0 * _ + _) = _
    rw [Nat.zero_mul, Nat.zero_add, Nat.zero_mul, Nat.zero_add]
  · show 0 - (((List.replicate _ '0' ++ ds).map digit).length : Int) = -scale
    rw [List.length_map, List.length_append, List.length_replicate]
    omega

/-- The text of digits at a scale spells them at that scale, or with all the zeros that the scale
asks for, which are few; a leading zero must stand alone and at scale zero. -/
theorem exists_spells (h : IsWhole ds) {scale : Int} (hz : ds.head? = some '0' → scale = 0) :
    ∃ zeros : Nat,
      Spells (unsignedChars ds scale) (ofDigits (ds.map digit) * 10 ^ zeros) (scale + zeros) ∧
      (zeros ≠ 0 → zeros ≤ maxTrailingZeros ∧ scale + zeros = 0 ∧
        unsignedChars ds scale = ds ++ List.replicate zeros '0') := by
  unfold unsignedChars
  simp only
  by_cases h₁ : maxLeadingZeros < scale - ds.length
  · have hl : (ds.length : Int) ≤ scale := by unfold maxLeadingZeros at h₁; omega
    refine ⟨0, ?_, absurd rfl⟩
    simpa [if_pos h₁] using spells_pointAfterFirst h.toIsDigits hl
  by_cases h₂ : maxTrailingZeros < -scale
  · refine ⟨0, ?_, absurd rfl⟩
    simpa [if_neg h₁, if_pos h₂] using spells_exponent h scale
  by_cases h₃ : scale ≤ 0
  · obtain ⟨k, rfl⟩ : ∃ k : Nat, scale = -k := ⟨(-scale).toNat, by omega⟩
    have hzero : -(k : Int) + k = 0 := by omega
    have hk : (k : Int) ≤ maxTrailingZeros := by omega
    rw [if_neg h₁, if_neg h₂, if_pos h₃, neg_neg, Int.toNat_natCast]
    refine ⟨k, ?_, fun _ => ⟨hk, hzero, rfl⟩⟩
    rw [hzero]
    exact spells_zeros h fun h0 => by have := hz h0; omega
  have hpos : 0 < scale := Int.not_le.mp h₃
  refine ⟨0, ?_, absurd rfl⟩
  by_cases h₄ : scale < ds.length
  · have hhead : ds.head? ≠ some '0' := fun h0 => absurd (hz h0) (by omega)
    simpa [if_neg h₁, if_neg h₂, if_neg h₃, if_pos h₄] using spells_pointed h hpos h₄ hhead
  · have hl : (ds.length : Int) ≤ scale := by omega
    simpa [if_neg h₁, if_neg h₂, if_neg h₃, if_neg h₄] using
      spells_zero_point h.toIsDigits hl

/-! ### The text of a decimal -/

/-- The scale at which a decimal is written; zero is always written as an integer. -/
def shownScale (d : Decimal) : Int := if d.digits = 0 then 0 else d.scale.toInt

def shownChars (d : Decimal) : List Char :=
  unsignedChars (Nat.toDigits 10 d.digits.natAbs) d.shownScale

theorem chars_eq (d : Decimal) :
    d.chars = if d.digits < 0 then '-' :: d.shownChars else d.shownChars := rfl

/-- A numeral has the sign and the digits of a decimal and `zeros` zeros behind them, and its point
stands where the scale puts it. -/
structure Shows (n : Numeral) (d : Decimal) (zeros : Nat) : Prop where
  negative : n.negative = decide (d.digits < 0)
  significand : n.significand = d.digits.natAbs * 10 ^ zeros
  place : n.power - n.fraction.length = -(d.shownScale + zeros)
  power : n.power ≤ 0 ∨ n.fraction = []
  zeros : zeros ≠ 0 → zeros ≤ maxTrailingZeros ∧ d.shownScale + zeros = 0 ∧
    d.shownChars = Nat.toDigits 10 d.digits.natAbs ++ List.replicate zeros '0'

/-- The text of every decimal is a numeral that shows it. -/
theorem exists_shows (d : Decimal) : ∃ n zeros, ofChars? d.chars = some n ∧ Shows n d zeros := by
  have hz : (Nat.toDigits 10 d.digits.natAbs).head? = some '0' → d.shownScale = 0 := by
    intro h
    exact if_pos (Int.natAbs_eq_zero.mp (head?_toDigits h))
  obtain ⟨zeros, ⟨n, hn, hdigits, hplace, hpower⟩, hzeros⟩ :=
    exists_spells (isWhole_toDigits d.digits.natAbs) hz
  obtain ⟨hpos, hneg⟩ := ofChars?_of_isUnsigned hn
  rw [ofDigits_toDigits] at hdigits
  rw [chars_eq]
  by_cases hd : d.digits < 0
  · rw [if_pos hd]
    exact ⟨_, zeros, hneg, (decide_eq_true hd).symm, hdigits, hplace, hpower, hzeros⟩
  · rw [if_neg hd]
    exact ⟨n, zeros, hpos, hn.negative.trans (decide_eq_false hd).symm, hdigits, hplace, hpower,
      hzeros⟩

theorem Shows.value {n : Numeral} {d : Decimal} {zeros : Nat} (h : Shows n d zeros) :
    n.value = d.value := by
  have h10 : (10 : ℚ) ≠ 0 := by norm_num
  have hshift : (10 : ℚ) ^ zeros * 10 ^ (-(d.shownScale + zeros)) = 10 ^ (-d.shownScale) := by
    rw [← zpow_natCast, ← zpow_add₀ h10]
    congr 1
    omega
  rw [Numeral.value_eq, h.significand, h.place, h.negative]
  push_cast
  rw [mul_assoc, mul_assoc, hshift]
  rcases lt_trichotomy d.digits 0 with hd | hd | hd
  · rw [decide_eq_true hd, if_pos rfl, value_of_neg hd, shownScale, if_neg (by omega)]
    ring
  · rw [value_eq_zero.mpr hd, hd]
    simp
  · rw [decide_eq_false (by omega), if_neg Bool.false_ne_true, value_of_pos hd, shownScale,
      if_neg (by omega), one_mul]

theorem exists_numeral (d : Decimal) : ∃ n, ofChars? d.chars = some n ∧ n.value = d.value := by
  obtain ⟨n, zeros, hn, hshows⟩ := d.exists_shows
  exact ⟨n, hn, hshows.value⟩

end Decimal

end PackedTree
