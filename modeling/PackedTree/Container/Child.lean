import PackedTree.Decimal.Wire
import PackedTree.Value.Basic

/-! # The children of a container

A child is read by its position in the directory, either from a start that the caller has kept
(`childAt`) or from one recovered from the directory (`child`).  Before any byte of the
payload is touched, `extent` checks that the range lies inside; a nested container comes back
packed, and it is smaller than its parent (`size_lt_of_child`), which is what every recursion
into nested containers rests on. -/

namespace PackedTree.Container

/-- The tag of child `index`, and the range of the payload that holds its content when the
child begins at `offset`. -/
def extent (c : Container) (index offset : Nat) : Except Fault (Tag × Nat × Nat) := do
  let d ← c.entry index
  let stop := d.stop offset
  let start := Bytes.alignUp offset d.tag.align
  if offset ≤ stop ∧ stop ≤ c.payload.length ∧ start ≤ stop then .ok (d.tag, start, stop)
  else .error (c.outOfRange index stop)

/-- The value with the given tag and content. -/
def decode (tag : Tag) (content : Bytes) : Except Fault Value :=
  match tag with
  | .null => .ok .null
  | .no => .ok (.bool false)
  | .yes => .ok (.bool true)
  | .string => .ok (.string content)
  | .number =>
      match Decimal.ofBytes? content with
      | some d => .ok (.number d)
      | none => .error .invalidNumber
  | .container => (ofBytes content).map .binary

/-- Child `index`, which begins at `offset`. -/
def childAt (c : Container) (index offset : Nat) : Except Fault Value := do
  let (tag, start, stop) ← c.extent index offset
  decode tag (c.payload.extract start stop)

def child (c : Container) (index : Nat) : Except Fault Value := do
  c.childAt index (← c.start index)

/-- The scalar inside a raw container. -/
def scalar? (c : Container) : Except Fault (Option Value) :=
  if c.isRaw then (c.child 0).map some else .ok none

/-! ### Nested containers are smaller -/

theorem extent_le {c : Container} {index offset start stop : Nat} {tag : Tag}
    (h : c.extent index offset = .ok (tag, start, stop)) :
    start ≤ stop ∧ stop ≤ c.payload.length := by
  simp only [extent, bind, Except.bind] at h
  split at h
  · cases h
  · split at h
    · next hr => cases h; exact ⟨hr.2.2, hr.2.1⟩
    · cases h

theorem size_of_decode {tag : Tag} {b : Bytes} {n : Container}
    (h : decode tag b = .ok (.binary n)) : n.size = b.length := by
  cases tag with
  | container =>
      simp only [decode, Except.map] at h
      split at h
      · cases h
      · next c hc => cases h; exact size_of_ofBytes hc
  | number =>
      simp only [decode] at h
      split at h <;> cases h
  | _ => cases h

theorem size_lt_of_childAt {c n : Container} {index offset : Nat}
    (h : c.childAt index offset = .ok (.binary n)) : n.size < c.size := by
  simp only [childAt, bind, Except.bind] at h
  split at h
  · cases h
  · next r hr =>
      obtain ⟨tag, start, stop⟩ := r
      have hs := size_of_decode h
      have hl := (extent_le hr).2
      simp only [List.extract_eq_take_drop, List.length_take, List.length_drop] at hs
      simp only [size] at hs ⊢
      omega

theorem size_lt_of_child {c n : Container} {index : Nat}
    (h : c.child index = .ok (.binary n)) : n.size < c.size := by
  simp only [child, bind, Except.bind] at h
  split at h
  · cases h
  · exact size_lt_of_childAt h

/-- What a container stands for as a member: the value inside any number of raw wrappers, or
the container itself if it is not raw. -/
def unwrapped (c : Container) : Except Fault Value :=
  if c.isRaw then
    match _h : c.child 0 with
    | .ok (.binary n) => n.unwrapped
    | r => r
  else .ok (.binary c)
termination_by c.size
decreasing_by exact size_lt_of_child _h

end PackedTree.Container
