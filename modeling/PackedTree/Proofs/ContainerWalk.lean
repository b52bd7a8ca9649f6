import PackedTree.Container.Walk

/-! # Walking over the children of a container

`Container.walk` reads the children by their positions.  Here a walk is unfolded by one position
at a time (`elemsFrom_cons`, `pairsFrom_cons`).  `Value.told` is what a single member
contributes; `walkWith_of_array` and `walkWith_of_object` put the walk of a whole container
together. -/

namespace PackedTree

/-- How a member is told when nested containers are told by `enter`. -/
def Value.told (enter : Slot → Container → Trace) (slot : Slot) : Value → Trace
  | .binary n => enter slot n
  | v => .next (slot.event v) .finished

theorem Value.told_of_isScalar {v : Value} (h : v.isScalar = true)
    (enter : Slot → Container → Trace) (slot : Slot) :
    v.told enter slot = .next (slot.event v) .finished := by
  cases v <;> first | rfl | cases h

namespace Container

theorem isScalar_or_binary_of_decode {tag : Tag} {b : Bytes} {v : Value}
    (h : decode tag b = .ok v) : v.isScalar = true ∨ ∃ n, v = .binary n := by
  cases tag with
  | container =>
      simp only [decode, Except.map] at h
      split at h
      · cases h
      · next n hn => cases h; exact .inr ⟨n, rfl⟩
  | number =>
      simp only [decode] at h
      split at h <;> cases h
      exact .inl rfl
  | _ => cases h; exact .inl rfl

/-! ### Starts of children -/

section Start

variable {c : Container} {i o : Nat}

theorem start_succ {d : Descriptor} (ho : c.start i = .ok o) (hd : c.entry i = .ok d) :
    c.start (i + 1) = .ok (d.stop o) := by
  unfold start at ho ⊢
  rw [walkBack, hd]
  cases hw : c.walkBack i with
  | error f => rw [hw] at ho; cases ho
  | ok r =>
      rw [hw] at ho
      cases ho
      simp only [bind, Except.bind, Descriptor.stop]
      split <;> rfl

theorem lt_of_entry {d : Descriptor} (h : c.entry i = .ok d) : i < c.entryCount := by
  rcases Nat.lt_or_ge i c.entryCount with hi | hi
  · exact hi
  · have hnone : c.words[i]? = none := List.getElem?_eq_none (by rw [c.length_words]; exact hi)
    unfold entry at h
    rw [hnone] at h
    cases h

theorem child_of_start (ho : c.start i = .ok o) : c.child i = c.childAt i o := by
  unfold child
  rw [ho]
  rfl

theorem entry_of_childAt {v : Value} (h : c.childAt i o = .ok v) : ∃ d, c.entry i = .ok d := by
  simp only [childAt, extent, bind, Except.bind] at h
  cases hd : c.entry i with
  | error f => rw [hd] at h; cases h
  | ok d => exact ⟨d, rfl⟩

/-- A child is read from a range that begins at or behind its start and ends inside the payload. -/
theorem range_of_childAt {v : Value} (h : c.childAt i o = .ok v) :
    ∃ d, c.entry i = .ok d ∧ o ≤ d.stop o ∧ d.stop o ≤ c.payload.length ∧
      ∀ n, v = .binary n → n.size ≤ d.stop o - o := by
  obtain ⟨d, hd⟩ := entry_of_childAt h
  simp only [childAt, extent, hd, bind, Except.bind] at h
  split at h
  · cases h
  · next r hr =>
      split at hr
      · next hin =>
          cases hr
          refine ⟨d, hd, hin.1, hin.2.1, ?_⟩
          intro n hn
          rw [hn] at h
          have hsize := size_of_decode h
          have halign := Bytes.le_alignUp o d.tag.align_pos
          simp only [List.extract_eq_take_drop, List.length_take, List.length_drop] at hsize
          omega
      · cases hr

theorem isScalar_or_binary_of_childAt {v : Value} (h : c.childAt i o = .ok v) :
    v.isScalar = true ∨ ∃ n, v = .binary n := by
  simp only [childAt, bind, Except.bind] at h
  split at h
  · cases h
  · exact isScalar_or_binary_of_decode h

theorem childAt_of_child {v : Value} (h : c.child i = .ok v) :
    ∃ o, c.start i = .ok o ∧ c.childAt i o = .ok v := by
  unfold child at h
  cases ho : c.start i with
  | error f => rw [ho] at h; cases h
  | ok o => rw [ho] at h; exact ⟨o, rfl, h⟩

theorem child_cases {v : Value} (h : c.child i = .ok v) :
    v.isScalar = true ∨ ∃ n, v = .binary n ∧ n.size < c.size := by
  obtain ⟨o, _, hv⟩ := childAt_of_child h
  refine (isScalar_or_binary_of_childAt hv).imp_right ?_
  rintro ⟨n, rfl⟩
  exact ⟨n, rfl, size_lt_of_child h⟩

end Start

/-! ### One position at a time -/

section From

variable (c : Container) (enter : Slot → Container → Trace)

/-- The elements at the given positions, and the end of the array. -/
def elemsFrom (positions : List Nat) : Trace := c.walkElems (fun slot n _ => enter slot n) positions

/-- The pairs at the given positions, and the end of the object. -/
def pairsFrom (positions : List Nat) : Trace := c.walkPairs (fun slot n _ => enter slot n) positions

/-- The value of the pair at position `i`, and the pairs that follow it. -/
def valueFrom (i : Nat) (positions : List Nat) : Trace :=
  match c.child (i + c.len) with
  | .error f => .failed f
  | .ok v => (v.told enter .value).append (c.pairsFrom enter positions)

theorem elemsFrom_cons (i : Nat) (is : List Nat) :
    c.elemsFrom enter (i :: is) =
      match c.child i with
      | .error f => .failed f
      | .ok v => (v.told enter .elem).append (c.elemsFrom enter is) := by
  unfold elemsFrom
  rw [walkElems]
  split
  · next f h => rw [h]
  · next n h => rw [h]; rfl
  · next v hn h =>
      rw [h]
      cases v with
      | binary n => exact absurd rfl (hn n)
      | _ => rfl

theorem pairsFrom_cons (i : Nat) (is : List Nat) :
    c.pairsFrom enter (i :: is) =
      match c.child i with
      | .error f => .failed f
      | .ok (.string k) => .next (.key k) (c.valueFrom enter i is)
      | .ok _ => .failed (.keyNotString i) := by
  unfold pairsFrom
  rw [walkPairs]
  cases c.child i with
  | error f => rfl
  | ok k =>
      cases k with
      | string k =>
          show Trace.next _ _ = Trace.next _ _
          unfold valueFrom
          congr 1
          split
          · next f h => rw [h]
          · next n h => rw [h]; rfl
          · next v hn h =>
              rw [h]
              cases v with
              | binary n => exact absurd rfl (hn n)
              | _ => rfl
      | _ => rfl

end From

/-! ### Whole containers -/

/-- Nested containers told in full. -/
def entered (_ : Slot) (n : Container) : Trace := n.trace

/-- Nested containers left packed. -/
def packed (slot : Slot) (n : Container) : Trace := .next (slot.event (.binary n)) .finished

/-- A walk in which the telling of nested containers does not depend on their size. -/
def walkWith (c : Container) (enter : Slot → Container → Trace) : Trace :=
  c.walk fun slot n _ => enter slot n

theorem trace_eq_walkWith (c : Container) : c.trace = c.walkWith entered := c.trace_eq

theorem walkWith_of_array {c : Container} (h : c.isObject = false)
    (enter : Slot → Container → Trace) :
    c.walkWith enter =
      .next (.beginArray c.len c.isRaw) (c.elemsFrom enter (List.range c.len)) := by
  unfold walkWith walk
  rw [h]
  rfl

theorem walkWith_of_object {c : Container} (h : c.isObject = true)
    (enter : Slot → Container → Trace) :
    c.walkWith enter =
      match c.start c.len with
      | .error f => .failed f
      | .ok _ => .next (.beginObject c.len) (c.pairsFrom enter (List.range c.len)) := by
  unfold walkWith walk
  rw [h]
  rfl

end Container

end PackedTree
