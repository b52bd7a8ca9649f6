import PackedTree.Bytes.Draft
import PackedTree.Bytes.Reader

/-! # Reading what was written into a draft

A draft takes operations one after the other (`Draft.run`).  All of them but one add bytes at the
end; a patch overwrites four bytes that are already there.  Hence a byte stays what it was unless a
later patch touches it (`getElem?_of_run`), and what was written can be read where it was written as
long as no later patch touches any byte of it (`slice?_of_run`).

`reads_back` says so for every operation in a sequence.  The only condition on the sequence is that
each patch lies within the bytes written before it, and then the sequence comes to its end. -/

namespace PackedTree.Draft

inductive Op where
  | word (w : UInt32)
  | int64 (i : Int64)
  | append (b : Bytes)
  | reserve (len : Nat)
  | padTo (align : Nat)
  | patch (offset : Nat) (w : UInt32)
deriving Repr

/-- The draft after an operation, unless that overwrites bytes that are not there. -/
def perform (d : Draft) : Op → Option Draft
  | .word w => some (d.word w)
  | .int64 i => some (d.int64 i)
  | .append b => some (d.append b)
  | .reserve len => some (d.reserve len).2
  | .padTo align => some (d.padTo align).2
  | .patch offset w => d.patch? offset w

def run (d : Draft) : List Op → Option Draft
  | [] => some d
  | op :: ops => (d.perform op).bind fun e => e.run ops

namespace Op

/-- The number of bytes by which a draft of the given size grows. -/
def growth (size : Nat) : Op → Nat
  | word _ => 4
  | int64 _ => 8
  | append b => b.length
  | reserve len => len
  | padTo align => Bytes.padding size align
  | patch _ _ => 0

/-- A patch only overwrites bytes of a draft of the given size. -/
def Within (size : Nat) : Op → Prop
  | patch offset _ => offset + 4 ≤ size
  | _ => True

/-- The operation overwrites the byte at position `i`. -/
def Touches (i : Nat) : Op → Prop
  | patch offset _ => offset ≤ i ∧ i < offset + 4
  | _ => False

end Op

/-- Every patch only overwrites what a draft of the given size has by then. -/
def AllWithin : Nat → List Op → Prop
  | _, [] => True
  | size, op :: ops => op.Within size ∧ AllWithin (size + op.growth size) ops

/-- No operation overwrites one of the `len` bytes at `offset`. -/
def Untouched (ops : List Op) (offset len : Nat) : Prop :=
  ∀ i, offset ≤ i → i < offset + len → ∀ op ∈ ops, ¬ op.Touches i

/-- What `d` still shows of an operation that began when `size` bytes were written, if no later
operation overwrites it. -/
def Shows (d : Draft) (size : Nat) (later : List Op) : Op → Prop
  | .word w => Untouched later size 4 → d.bytes.word? size = .ok w
  | .int64 i => Untouched later size 8 → d.bytes.int64? size = .ok i
  | .append b => Untouched later size b.length → d.bytes.slice? size b.length = .ok b
  | .reserve len => ∀ i, size ≤ i → i < size + len → Untouched later i 1 → d.bytes[i]? = some 0
  | .padTo align => ∀ i, size ≤ i → i < size + Bytes.padding size align → Untouched later i 1 →
      d.bytes[i]? = some 0
  | .patch offset w => Untouched later offset 4 → d.bytes.word? offset = .ok w

variable {d e : Draft} {op : Op} {ops : List Op}

/-! ### Single operations -/

theorem exists_perform (h : op.Within d.size) : ∃ e, d.perform op = some e := by
  cases op with
  | patch offset w => exact ⟨_, if_pos h⟩
  | _ => exact ⟨_, rfl⟩

theorem size_of_perform (h : d.perform op = some e) : e.size = d.size + op.growth d.size := by
  cases op with
  | patch offset w => exact size_of_patch? h
  | _ =>
      cases h
      simp [word, int64, reserve, padTo, Op.growth]

theorem le_size_of_patch? {offset : Nat} {w : UInt32} (h : d.patch? offset w = some e) :
    offset + 4 ≤ d.size := by
  unfold patch? at h
  split at h
  · assumption
  · cases h

theorem getElem?_of_patch? {offset : Nat} {w : UInt32} (h : d.patch? offset w = some e) (i : Nat) :
    e.bytes[i]? =
      if offset ≤ i ∧ i < offset + 4 then (Bytes.ofWord w)[i - offset]? else d.bytes[i]? := by
  simp only [patch?] at h
  split at h
  · next hle =>
      cases h
      have htake : (d.bytes.take offset).length = offset := by
        simp only [size] at hle
        simp
        omega
      have hword := Bytes.length_ofWord w
      rw [List.append_assoc, List.getElem?_append, List.getElem?_append, htake, hword]
      split
      · rw [if_neg (by omega), List.getElem?_take, if_pos (by assumption)]
      · split
        · rw [if_pos (by omega)]
        · rw [if_neg (by omega), List.getElem?_drop]
          congr 1
          omega
  · cases h

theorem getElem?_of_append (d : Draft) (b : Bytes) {i : Nat} (hi : i < d.size) :
    (d.append b).bytes[i]? = d.bytes[i]? :=
  List.getElem?_append_left hi

/-- A byte that is there stays, unless the operation overwrites it. -/
theorem getElem?_of_perform (h : d.perform op = some e) {i : Nat} (hi : i < d.size)
    (ht : ¬ op.Touches i) : e.bytes[i]? = d.bytes[i]? := by
  cases op with
  | patch offset w =>
      rw [getElem?_of_patch? h]
      exact if_neg ht
  | _ =>
      cases h
      exact getElem?_of_append d _ hi

/-! ### Sequences -/

theorem run_append (d : Draft) (ops later : List Op) :
    d.run (ops ++ later) = (d.run ops).bind fun e => e.run later := by
  induction ops generalizing d with
  | nil => rfl
  | cons op ops ih =>
      rw [List.cons_append, run, run]
      cases d.perform op with
      | none => rfl
      | some e => exact ih e

theorem exists_run (h : AllWithin d.size ops) : ∃ e, d.run ops = some e := by
  induction ops generalizing d with
  | nil => exact ⟨d, rfl⟩
  | cons op ops ih =>
      obtain ⟨hop, hops⟩ := h
      obtain ⟨e, he⟩ := exists_perform hop
      rw [← size_of_perform he] at hops
      obtain ⟨f, hf⟩ := ih hops
      refine ⟨f, ?_⟩
      rw [run, he]
      exact hf

theorem run_around {later : List Op} (h : d.run (ops ++ op :: later) = some e) :
    ∃ d₀ d₁, d.run ops = some d₀ ∧ d₀.perform op = some d₁ ∧ d₁.run later = some e := by
  rw [run_append] at h
  obtain ⟨d₀, h₀, h⟩ := Option.bind_eq_some_iff.mp h
  obtain ⟨d₁, h₁, h⟩ := Option.bind_eq_some_iff.mp h
  exact ⟨d₀, d₁, h₀, h₁, h⟩

theorem size_le_of_run (h : d.run ops = some e) : d.size ≤ e.size := by
  induction ops generalizing d with
  | nil =>
      cases h
      exact Nat.le_refl _
  | cons op ops ih =>
      obtain ⟨f, hf, h⟩ := Option.bind_eq_some_iff.mp h
      have hsize := size_of_perform hf
      have hle := ih h
      omega

/-- A byte that is there stays until an operation overwrites it. -/
theorem getElem?_of_run (h : d.run ops = some e) {i : Nat} (hi : i < d.size)
    (ht : ∀ op ∈ ops, ¬ op.Touches i) : e.bytes[i]? = d.bytes[i]? := by
  induction ops generalizing d with
  | nil =>
      cases h
      rfl
  | cons op ops ih =>
      obtain ⟨f, hf, h⟩ := Option.bind_eq_some_iff.mp h
      obtain ⟨hop, hops⟩ := List.forall_mem_cons.mp ht
      have hsize := size_of_perform hf
      rw [ih h (by omega) hops, getElem?_of_perform hf hi hop]

/-- A string that is there is read as before until an operation overwrites a byte of it. -/
theorem slice?_of_run (h : d.run ops = some e) {offset len : Nat} {b : Bytes}
    (hb : d.bytes.slice? offset len = .ok b) (hu : Untouched ops offset len) :
    e.bytes.slice? offset len = .ok b := by
  obtain ⟨hle, rfl⟩ := Bytes.slice?_eq_ok_iff.mp hb
  have hsize : d.bytes.length ≤ e.bytes.length := size_le_of_run h
  apply Bytes.slice?_eq_ok_iff.mpr
  refine ⟨by omega, List.ext_getElem? fun i => ?_⟩
  rw [List.getElem?_take, List.getElem?_take, List.getElem?_drop, List.getElem?_drop]
  split
  · next hi =>
      have hlt : offset + i < d.size := Nat.lt_of_lt_of_le (by omega) hle
      exact (getElem?_of_run h hlt (hu (offset + i) (by omega) (by omega))).symm
  · rfl

/-! ### Reading back -/

theorem slice?_append (d : Draft) (b : Bytes) :
    (d.append b).bytes.slice? d.size b.length = .ok b := by
  apply Bytes.slice?_eq_ok_iff.mpr
  refine ⟨?_, ?_⟩
  · simp [append, size]
  · simp [append, size]

theorem slice?_of_appended {b : Bytes} (h : (d.append b).run ops = some e)
    (hu : Untouched ops d.size b.length) : e.bytes.slice? d.size b.length = .ok b :=
  slice?_of_run h (d.slice?_append b) hu

theorem zero_of_appended {len i : Nat} (h : (d.append (List.replicate len 0)).run ops = some e)
    (hle : d.size ≤ i) (hlt : i < d.size + len) (hu : Untouched ops i 1) :
    e.bytes[i]? = some 0 := by
  have hsize : i < (d.append (List.replicate len 0)).size := by simpa using hlt
  rw [getElem?_of_run h hsize (hu i (Nat.le_refl i) (Nat.lt_succ_self i))]
  have hget : (d.append (List.replicate len 0)).bytes[i]? = (List.replicate len 0)[i - d.size]? :=
    List.getElem?_append_right hle
  rw [hget, List.getElem?_replicate, if_pos (by omega)]

theorem slice?_of_patch? {offset : Nat} {w : UInt32} (h : d.patch? offset w = some e) :
    e.bytes.slice? offset 4 = .ok (Bytes.ofWord w) := by
  have hle : offset + 4 ≤ e.size := by
    rw [size_of_patch? h]
    exact le_size_of_patch? h
  have hword := Bytes.length_ofWord w
  apply Bytes.slice?_eq_ok_iff.mpr
  refine ⟨hle, List.ext_getElem? fun i => ?_⟩
  rw [List.getElem?_take, List.getElem?_drop, getElem?_of_patch? h]
  split
  · next hi => rw [if_pos (by omega), Nat.add_sub_cancel_left]
  · exact List.getElem?_eq_none (by omega)

theorem word?_of_slice? {b : Bytes} {offset : Nat} {w : UInt32}
    (h : b.slice? offset 4 = .ok (Bytes.ofWord w)) : b.word? offset = .ok w := by
  rw [Bytes.word?, h]
  exact congrArg Except.ok (Bytes.toWord_ofWord w)

theorem int64?_of_slice? {b : Bytes} {offset : Nat} {i : Int64}
    (h : b.slice? offset 8 = .ok (Bytes.ofInt64 i)) : b.int64? offset = .ok i := by
  rw [Bytes.int64?, h]
  exact congrArg Except.ok (Bytes.toInt64_ofInt64 i)

/-- After any later operations a draft shows what an operation wrote. -/
theorem shows_of_run {d₁ : Draft} (hop : d.perform op = some d₁) (h : d₁.run ops = some e) :
    e.Shows d.size ops op := by
  cases op with
  | word w =>
      cases hop
      intro hu
      have hlen := Bytes.length_ofWord w
      have hslice := slice?_of_appended h (by rwa [hlen])
      rw [hlen] at hslice
      exact word?_of_slice? hslice
  | int64 i =>
      cases hop
      intro hu
      have hlen := Bytes.length_ofInt64 i
      have hslice := slice?_of_appended h (by rwa [hlen])
      rw [hlen] at hslice
      exact int64?_of_slice? hslice
  | append b =>
      cases hop
      intro hu
      exact slice?_of_appended h hu
  | reserve len =>
      cases hop
      intro i hle hlt hu
      exact zero_of_appended h hle hlt hu
  | padTo align =>
      cases hop
      intro i hle hlt hu
      exact zero_of_appended h hle hlt hu
  | patch offset w =>
      intro hu
      exact word?_of_slice? (slice?_of_run h (slice?_of_patch? hop) hu)

/-- A sequence of operations, whose patches lie within what was written before them, comes to its
end.  No operation of it makes the draft shorter, and in the end the draft shows what the operation
wrote, so far as no later patch overwrites it. -/
theorem reads_back (ops : List Op) (h : AllWithin 0 ops) :
    ∃ d, empty.run ops = some d ∧
      ∀ before op later, ops = before ++ op :: later →
        ∃ d₀ d₁, empty.run before = some d₀ ∧ d₀.perform op = some d₁ ∧
          d₀.size ≤ d₁.size ∧ d₁.size ≤ d.size ∧ d.Shows d₀.size later op := by
  obtain ⟨d, hd⟩ := exists_run (d := empty) h
  refine ⟨d, hd, ?_⟩
  rintro before op later rfl
  obtain ⟨d₀, d₁, h₀, h₁, hlater⟩ := run_around hd
  have hsize := size_of_perform h₁
  exact ⟨d₀, d₁, h₀, h₁, by omega, size_le_of_run hlater, shows_of_run h₁ hlater⟩

/-- Words are filled in out of order; what stands around them stays, padding is zero. -/
theorem reads_back_reserved :
    let ops : List Op :=
      [.append [170], .reserve 8, .patch 5 7, .patch 1 513, .padTo 4, .int64 (-42)]
    AllWithin 0 ops ∧ ∃ d, empty.run ops = some d ∧ d.bytes.slice? 0 1 = .ok [170] ∧
      d.bytes.word? 5 = .ok 7 ∧ d.bytes[10]? = some 0 ∧ d.bytes.int64? 12 = .ok (-42) := by
  intro ops
  have hops : AllWithin 0 ops := by simp [ops, AllWithin, Op.Within, Op.growth]
  obtain ⟨d, hd, hshows⟩ := reads_back ops hops
  refine ⟨hops, d, hd, ?_, ?_, ?_, ?_⟩
  · obtain ⟨_, _, h₀, -, -, -, hs⟩ := hshows [] _ _ rfl
    cases h₀
    apply hs
    simp [Untouched, Op.Touches, empty, size]
  · obtain ⟨_, _, h₀, -, -, -, hs⟩ := hshows [.append [170], .reserve 8] _ _ rfl
    apply hs
    simp [Untouched, Op.Touches]
    omega
  · obtain ⟨_, _, h₀, -, -, -, hs⟩ :=
      hshows [.append [170], .reserve 8, .patch 5 7, .patch 1 513] _ _ rfl
    cases h₀
    apply hs 10 (by decide) (by decide)
    simp [Untouched, Op.Touches]
  · obtain ⟨_, _, h₀, -, -, -, hs⟩ :=
      hshows [.append [170], .reserve 8, .patch 5 7, .patch 1 513, .padTo 4] _ _ rfl
    cases h₀
    apply hs
    simp [Untouched]

end PackedTree.Draft
