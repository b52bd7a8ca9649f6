import PackedTree.Bytes.Basic

/-! # Little-endian integers

Three forms of integers as bytes, least significant byte first: naturals of a fixed width
(`ofNat`, `toNat`), the 32- and 64-bit words built on them, and integers of any size in two's
complement with as few bytes as possible (`ofInt`, `toInt`).  Reading inverts writing in each
form (`toNat_ofNat`, `toWord_ofWord`, `toInt_ofInt`); reading a signed integer also accepts
more bytes than needed. -/

namespace PackedTree.Bytes

/-! ### Fixed width -/

/-- The `width` low bytes of `n`. -/
def ofNat : Nat → Nat → Bytes
  | 0, _ => []
  | width + 1, n => UInt8.ofNat n :: ofNat width (n / 256)

/-- The natural with the given bytes. -/
def toNat : Bytes → Nat
  | [] => 0
  | b :: bs => b.toNat + 256 * toNat bs

@[simp] theorem length_ofNat (width n : Nat) : (ofNat width n).length = width := by
  induction width generalizing n with
  | zero => rfl
  | succ width ih => simp [ofNat, ih]

theorem toNat_ofNat (width n : Nat) : toNat (ofNat width n) = n % Nat.pow 256 width := by
  induction width generalizing n with
  | zero => simp [ofNat, toNat, Nat.mod_one]
  | succ width ih =>
      rw [ofNat, toNat, ih, Nat.pow_eq, Nat.pow_eq, Nat.pow_succ', Nat.mod_mul]
      simp

theorem toNat_lt (b : Bytes) : toNat b < Nat.pow 256 b.length := by
  induction b with
  | nil => simp [toNat]
  | cons x xs ih =>
      have hx : x.toNat < 256 := x.toNat_lt
      rw [Nat.pow_eq] at ih
      rw [toNat, List.length_cons, Nat.pow_eq, Nat.pow_succ]
      omega

theorem ofNat_toNat (b : Bytes) : ofNat b.length (toNat b) = b := by
  induction b with
  | nil => rfl
  | cons x xs ih =>
      have hx : x.toNat < 256 := x.toNat_lt
      have hd : (x.toNat + 256 * toNat xs) / 256 = toNat xs := by omega
      have hm : UInt8.ofNat (x.toNat + 256 * toNat xs) = x := by
        apply UInt8.toNat_inj.mp
        simp
      rw [List.length_cons, toNat, ofNat, hd, ih, hm]

/-- The four bytes of a 32-bit word. -/
def ofWord (w : UInt32) : Bytes := ofNat 4 w.toNat

/-- The 32-bit word with the given bytes. -/
def toWord (b : Bytes) : UInt32 := UInt32.ofNat (toNat b)

@[simp] theorem length_ofWord (w : UInt32) : (ofWord w).length = 4 := by simp [ofWord]

@[simp] theorem toWord_ofWord (w : UInt32) : toWord (ofWord w) = w := by
  have h : w.toNat < Nat.pow 256 4 := w.toNat_lt
  rw [toWord, ofWord, toNat_ofNat, Nat.mod_eq_of_lt h, UInt32.ofNat_toNat]

theorem ofWord_toWord {b : Bytes} (h : b.length = 4) : ofWord (toWord b) = b := by
  have hb := toNat_lt b
  rw [h] at hb
  rw [ofWord, toWord, UInt32.toNat_ofNat_of_lt' hb, ← h, ofNat_toNat]

/-- The first `n` words of a byte string. -/
def words : Nat → Bytes → List UInt32
  | 0, _ => []
  | n + 1, b => toWord (b.take 4) :: words n (b.drop 4)

@[simp] theorem length_words (n : Nat) (b : Bytes) : (words n b).length = n := by
  induction n generalizing b with
  | zero => rfl
  | succ n ih => simp [words, ih]

theorem words_flatMap_ofWord (ws : List UInt32) (rest : Bytes) :
    words ws.length (ws.flatMap ofWord ++ rest) = ws := by
  induction ws with
  | nil => rfl
  | cons w ws ih =>
      have h4 := length_ofWord w
      rw [List.length_cons, words, List.flatMap_cons, List.append_assoc,
        List.take_left' h4, List.drop_left' h4, toWord_ofWord, ih]

theorem flatMap_ofWord_words {n : Nat} {b : Bytes} (h : 4 * n ≤ b.length) :
    (words n b).flatMap ofWord = b.take (4 * n) := by
  induction n generalizing b with
  | zero => simp [words]
  | succ n ih =>
      have h4 : (b.take 4).length = 4 := by simp; omega
      rw [words, List.flatMap_cons, ofWord_toWord h4, ih (by simp; omega),
        show 4 * (n + 1) = 4 + 4 * n by omega, List.take_add]

/-- The eight bytes of a signed 64-bit integer. -/
def ofInt64 (i : Int64) : Bytes := ofNat 8 i.toUInt64.toNat

/-- The signed 64-bit integer with the given bytes. -/
def toInt64 (b : Bytes) : Int64 := (UInt64.ofNat (toNat b)).toInt64

@[simp] theorem length_ofInt64 (i : Int64) : (ofInt64 i).length = 8 := by simp [ofInt64]

@[simp] theorem toInt64_ofInt64 (i : Int64) : toInt64 (ofInt64 i) = i := by
  have h : i.toUInt64.toNat < Nat.pow 256 8 := i.toUInt64.toNat_lt
  rw [toInt64, ofInt64, toNat_ofNat, Nat.mod_eq_of_lt h, UInt64.ofNat_toNat,
    Int64.toInt64_toUInt64]

/-! ### Any size, signed -/

/-- The fewest bytes whose two's complement reading is `n`. -/
def ofInt (n : Int) : Bytes :=
  if -128 ≤ n ∧ n < 128 then [UInt8.ofInt n] else UInt8.ofInt n :: ofInt (n / 256)
termination_by n.natAbs
decreasing_by omega

/-- The two's complement reading of any number of bytes; the last one carries the sign. -/
def toInt : Bytes → Int
  | [] => 0
  | [b] => if b.toNat < 128 then b.toNat else b.toNat - 256
  | b :: c :: bs => b.toNat + 256 * toInt (c :: bs)

theorem ofInt_ne_nil (n : Int) : ofInt n ≠ [] := by
  rw [ofInt]
  split <;> simp

theorem toInt_cons {b : UInt8} {bs : Bytes} (h : bs ≠ []) :
    toInt (b :: bs) = b.toNat + 256 * toInt bs := by
  cases bs with
  | nil => contradiction
  | cons c bs => rfl

theorem toNat_ofInt (n : Int) : ((UInt8.ofInt n).toNat : Int) = n % 256 := by
  simp [UInt8.ofInt]
  omega

theorem toInt_ofInt (n : Int) : toInt (ofInt n) = n := by
  fun_induction ofInt n with
  | case1 n h =>
      have hn := toNat_ofInt n
      rw [toInt]
      split <;> omega
  | case2 n h ih =>
      rw [toInt_cons (ofInt_ne_nil _), ih, toNat_ofInt]
      omega

end PackedTree.Bytes
