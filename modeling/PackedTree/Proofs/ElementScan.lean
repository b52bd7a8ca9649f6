import PackedTree.Container.Lookup
import PackedTree.Proofs.ContainerWalk

/-! # Searching the elements of an array

The search for an element goes through the array from the front and keeps the offset at which the
next element begins (`Container.forward`, `Container.ScansTo`).  An element that is asked for by its
position is found the other way: its start is added up from the descriptors before it, back to the
nearest absolute one.  Wherever the descriptors in front of an element can be read, both come to the
same start (`Container.start_of_forward`), however lengths and absolute positions are mixed.

So the search is the same as to ask for one position after the other until a fault or an equal
element ends it (`Container.scan`), and of several faults it meets the same one first.
`Container.find?_eq_scan` states this together with the offsets. -/

namespace PackedTree.Container

variable {c : Container} {target v : Value} {index offset : Nat}

/-! ### Offsets from the front -/

/-- Where element `index` begins if the descriptors in front of it are followed one after the
other. -/
def forward (c : Container) : Nat → Except Fault Nat
  | 0 => .ok 0
  | index + 1 => do
      let offset ← c.forward index
      let d ← c.entry index
      .ok (d.stop offset)

theorem forward_succ {d : Descriptor} (ho : c.forward index = .ok offset)
    (hd : c.entry index = .ok d) : c.forward (index + 1) = .ok (d.stop offset) := by
  rw [forward, ho, hd]
  rfl

/-- Descriptors that can be followed from the front lead to the start that is recovered by walking
back. -/
theorem start_of_forward (h : c.forward index = .ok offset) : c.start index = .ok offset := by
  induction index generalizing offset with
  | zero =>
      cases h
      rfl
  | succ index ih =>
      rw [forward] at h
      cases ho : c.forward index with
      | error f => rw [ho] at h; cases h
      | ok o =>
          cases hd : c.entry index with
          | error f => rw [ho, hd] at h; cases h
          | ok d =>
              rw [ho, hd] at h
              cases h
              exact start_succ (ih ho) hd

theorem exists_forward (h : ∀ i < index, ∃ d, c.entry i = .ok d) :
    ∃ offset, c.forward index = .ok offset := by
  induction index with
  | zero => exact ⟨0, rfl⟩
  | succ index ih =>
      obtain ⟨offset, ho⟩ := ih fun i hi => h i (Nat.lt_succ_of_lt hi)
      obtain ⟨d, hd⟩ := h index (Nat.lt_succ_self index)
      exact ⟨d.stop offset, forward_succ ho hd⟩

/-! ### The search and the scan -/

/-- Asks for the elements at the given positions, one after the other, up to the first fault or the
first element that equals `target`. -/
def scan (c : Container) (target : Value) : List Nat → Except Fault (Option Value)
  | [] => .ok none
  | index :: rest =>
      match c.elem? index with
      | .error f => .error f
      | .ok none => c.scan target rest
      | .ok (some v) => if v.scalarEq target then .ok (some v) else c.scan target rest

theorem elem?_of_start (harr : c.isObject = false) (hlt : index < c.len)
    (ho : c.start index = .ok offset) : c.elem? index = (c.childAt index offset).map some := by
  have hno : ¬ c.isObject = true := by
    rw [harr]
    exact Bool.false_ne_true
  rw [elem?, if_neg hno, if_pos hlt, child_of_start ho]

/-- From an element at its start, the search finds what the scan over the positions from there on
finds. -/
theorem findFrom_eq_scan (harr : c.isObject = false) {count : Nat} (hle : index + count ≤ c.len)
    (ho : c.start index = .ok offset) :
    c.findFrom target count index offset = c.scan target (List.range' index count) := by
  induction count generalizing index offset with
  | zero => rfl
  | succ count ih =>
      have helem := elem?_of_start harr (show index < c.len by omega) ho
      rw [findFrom, List.range'_succ, scan, helem]
      cases hv : c.childAt index offset with
      | error f => rfl
      | ok v =>
          obtain ⟨d, hd⟩ := entry_of_childAt hv
          simp only [bind, Except.bind, Except.map, hd]
          split
          · rfl
          · exact ih (by omega) (start_succ ho hd)

theorem find?_eq_findFrom (harr : c.isObject = false) (ht : target.isScalar = true) :
    c.find? target = c.findFrom target c.len 0 0 := by
  rw [find?, if_neg]
  simp [harr, ht]

/-! ### Where the search is -/

/-- The search for `target` comes to element `index` and takes it to begin at `offset`: all elements
in front of it were read and differ. -/
inductive ScansTo (c : Container) (target : Value) : Nat → Nat → Prop
  | start : ScansTo c target 0 0
  | next {index offset : Nat} {v : Value} {d : Descriptor} (h : ScansTo c target index offset)
      (hlt : index < c.len) (hv : c.childAt index offset = .ok v)
      (hne : v.scalarEq target = false) (hd : c.entry index = .ok d) :
      ScansTo c target (index + 1) (d.stop offset)

theorem ScansTo.forward (h : c.ScansTo target index offset) : c.forward index = .ok offset := by
  induction h with
  | start => rfl
  | next h hlt hv hne hd ih => exact forward_succ ih hd

/-- What the search finds, it finds from every element that it comes to. -/
theorem ScansTo.findFrom_eq (h : c.ScansTo target index offset) :
    c.findFrom target c.len 0 0 = c.findFrom target (c.len - index) index offset := by
  induction h with
  | start => rfl
  | @next index offset v d h hlt hv hne hd ih =>
      have hcount : c.len - index = c.len - (index + 1) + 1 := by omega
      rw [ih, hcount, findFrom, hv]
      simp only [bind, Except.bind, hne, Bool.false_eq_true, if_false, hd]

/-- The search comes to an element if all elements in front of it, asked for by position, are there
and differ. -/
theorem exists_scansTo (harr : c.isObject = false) (hle : index ≤ c.len)
    (h : ∀ i < index, ∃ v, c.elem? i = .ok (some v) ∧ v.scalarEq target = false) :
    ∃ offset, c.ScansTo target index offset := by
  induction index with
  | zero => exact ⟨0, .start⟩
  | succ index ih =>
      obtain ⟨offset, ho⟩ := ih (Nat.le_of_succ_le hle) fun i hi => h i (Nat.lt_succ_of_lt hi)
      obtain ⟨v, hv, hne⟩ := h index (Nat.lt_succ_self index)
      rw [elem?_of_start harr hle (start_of_forward ho.forward)] at hv
      cases hread : c.childAt index offset with
      | error f => rw [hread] at hv; cases hv
      | ok w =>
          rw [hread] at hv
          cases hv
          obtain ⟨d, hd⟩ := entry_of_childAt hread
          exact ⟨d.stop offset, .next ho hle hread hne hd⟩

/-- In an array, whatever its bytes, the search for a scalar is the same as to ask for the elements
by position, from the first to the last, until a fault or an element equal to the scalar ends it.
Where the descriptors in front of an element can be read, following them from the front leads to
the start that the element has by position; and this is the offset from which the search goes on at
every element that it comes to, which are those with no fault and no equal element in front of
them. -/
theorem find?_eq_scan (harr : c.isObject = false) (ht : target.isScalar = true) :
    c.find? target = c.scan target (List.range c.len) ∧
      (∀ index, (∀ i < index, ∃ d, c.entry i = .ok d) →
        ∃ offset, c.forward index = .ok offset ∧ c.start index = .ok offset) ∧
      (∀ index ≤ c.len,
        (∀ i < index, ∃ v, c.elem? i = .ok (some v) ∧ v.scalarEq target = false) →
          ∃ offset, c.ScansTo target index offset) ∧
      ∀ index offset, c.ScansTo target index offset →
        c.find? target = c.findFrom target (c.len - index) index offset ∧
          c.forward index = .ok offset ∧ c.start index = .ok offset := by
  have hfind := find?_eq_findFrom harr ht
  refine ⟨?_, fun index h => ?_, fun index => exists_scansTo harr, fun index offset h => ?_⟩
  · rw [hfind, List.range_eq_range']
    exact findFrom_eq_scan harr (Nat.le_of_eq (Nat.zero_add _)) rfl
  · obtain ⟨offset, ho⟩ := exists_forward h
    exact ⟨offset, ho, start_of_forward ho⟩
  · exact ⟨hfind.trans h.findFrom_eq, h.forward, start_of_forward h.forward⟩

/-- A string told by its length, null and a string told by where they end, and an element that
cannot be read: the second string is found behind the other two, and a search that goes past it
meets the fault of the last position. -/
theorem find?_eq_scan_mixed :
    ∃ c : Container, c.isObject = false ∧
      c.find? (.string [99, 100, 101]) = c.scan (.string [99, 100, 101]) [0, 1, 2, 3] ∧
      c.find? (.string [99, 100, 101]) = .ok (some (.string [99, 100, 101])) ∧
      c.find? .null = c.findFrom .null 3 1 2 ∧
      (∃ offset, c.forward 3 = .ok offset ∧ c.start 3 = .ok offset) ∧
      c.find? (.bool true) = c.scan (.bool true) [0, 1, 2, 3] ∧
      c.find? (.bool true) = .error (.entryOutOfRange 3 5 5) := by
  let c : Container := ⟨⟨.array, 4, by decide, by decide⟩,
    [2, 3221225474, 2147483653, 1342177280], [97, 98, 99, 100, 101], rfl⟩
  have harr : c.isObject = false := rfl
  have hentries : ∀ i < 3, ∃ d, c.entry i = .ok d := by
    intro i hi
    obtain rfl | rfl | rfl : i = 0 ∨ i = 1 ∨ i = 2 := by omega
    · exact ⟨_, rfl⟩
    · exact ⟨_, rfl⟩
    · exact ⟨_, rfl⟩
  have hsecond : c.ScansTo .null 1 2 :=
    ScansTo.next (v := .string [97, 98]) (d := ⟨.string, false, 2, by decide⟩) .start (by decide)
      rfl rfl rfl
  have hstring := find?_eq_scan harr (show (Value.string [99, 100, 101]).isScalar = true from rfl)
  have hbool := find?_eq_scan harr (show (Value.bool true).isScalar = true from rfl)
  have hnull := find?_eq_scan harr (show Value.null.isScalar = true from rfl)
  exact ⟨c, harr, hstring.1, rfl, (hnull.2.2.2 1 2 hsecond).1, hstring.2.1 3 hentries, hbool.1,
    rfl⟩

end PackedTree.Container
