import PackedTree.Proofs.ContainerWalk

/-! # The shape of a container's trace

A trace is followed with a stack of what every open container still owes: elements, pairs, or
the value of the key just told.  `Owes st e st'` says that `e` is an event that may come when
`st` is due, and that `st'` is due after it; `Trace.Fits st t` says that the trace `t` can be
followed to its end, or to its fault, from `st` on.  The trace of every container fits, whatever
its bytes (`fits_trace`). -/

namespace PackedTree

/-- What an open container still owes. -/
inductive Due where
  /-- So many elements, and the end of the array. -/
  | elems (n : Nat)
  /-- So many pairs, and the end of the object. -/
  | pairs (n : Nat)
  /-- The value of the key just told, and then so many pairs. -/
  | value (n : Nat)

/-- A member in the given slot takes one due to the other. -/
inductive Due.Takes : Slot → Due → Due → Prop
  | elem (n : Nat) : Takes .elem (.elems (n + 1)) (.elems n)
  | value (n : Nat) : Takes .value (.value n) (.pairs n)

/-- An event with which a member begins in the given slot, and what the member then owes. -/
inductive Slot.Opens (slot : Slot) : Event → List Due → Prop
  | scalar {v : Value} (hv : v.isScalar = true) : slot.Opens (slot.event v) []
  | array (m : Nat) (raw : Bool) : slot.Opens (.beginArray m raw) [.elems m]
  | object (m : Nat) : slot.Opens (.beginObject m) [.pairs m]

/-- An event that may come while the first list is due, innermost container first, and the list
that is due after it. -/
inductive Owes : List Due → Event → List Due → Prop
  | member {slot : Slot} {d d' : Due} {st inner : List Due} {e : Event} (hd : d.Takes slot d')
      (he : slot.Opens e inner) : Owes (d :: st) e (inner ++ d' :: st)
  | key {n : Nat} {st : List Due} {k : Bytes} :
      Owes (.pairs (n + 1) :: st) (.key k) (.value n :: st)
  | endArray {d : Due} {st : List Due} : Owes (.elems 0 :: d :: st) .endArray (d :: st)
  | endObject {d : Due} {st : List Due} : Owes (.pairs 0 :: d :: st) .endObject (d :: st)

/-- A trace that can be followed from what is due.  A whole container is told where one element
is due, and nothing else. -/
inductive Trace.Fits : List Due → Trace → Prop
  | finished : Fits [.elems 0] .finished
  | failed {st : List Due} {f : Fault} : Fits st (.failed f)
  | next {st st' : List Due} {e : Event} {t : Trace} (he : Owes st e st') (ht : Fits st' t) :
      Fits st (.next e t)

namespace Container

/-- What a nested container contributes fits wherever a member is due. -/
def NestedFits (n : Container) : Prop :=
  ∀ {slot : Slot} {d d' : Due} {st : List Due} {t : Trace},
    d.Takes slot d' → Trace.Fits (d' :: st) t → Trace.Fits (d :: st) (n.trace.append t)

section Members

variable {c : Container} (nested : ∀ n : Container, n.size < c.size → NestedFits n)
include nested

theorem fits_told {i : Nat} {v : Value} (h : c.child i = .ok v) {slot : Slot} {d d' : Due}
    {st : List Due} {t : Trace} (hd : d.Takes slot d') (ht : Trace.Fits (d' :: st) t) :
    Trace.Fits (d :: st) ((v.told entered slot).append t) := by
  rcases child_cases h with hv | ⟨n, rfl, hn⟩
  · rw [Value.told_of_isScalar hv]
    exact .next (.member hd (.scalar hv)) ht
  · exact nested n hn hd ht

theorem fits_elemsFrom {d : Due} {st : List Due} {t : Trace} (ht : Trace.Fits (d :: st) t)
    (is : List Nat) :
    Trace.Fits (.elems is.length :: d :: st) ((c.elemsFrom entered is).append t) := by
  induction is with
  | nil => exact .next .endArray ht
  | cons i is ih =>
      rw [elemsFrom_cons]
      split
      · exact .failed
      · next v h =>
          rw [Trace.append_assoc]
          exact fits_told nested h (.elem _) ih

theorem fits_pairsFrom {d : Due} {st : List Due} {t : Trace} (ht : Trace.Fits (d :: st) t)
    (is : List Nat) :
    Trace.Fits (.pairs is.length :: d :: st) ((c.pairsFrom entered is).append t) := by
  induction is with
  | nil => exact .next .endObject ht
  | cons i is ih =>
      rw [pairsFrom_cons]
      split
      · exact .failed
      · refine .next .key ?_
        unfold valueFrom
        split
        · exact .failed
        · next v h =>
            rw [Trace.append_assoc]
            exact fits_told nested h (.value _) ih
      · exact .failed

theorem fits_walk : NestedFits c := by
  intro slot d d' st t hd ht
  rw [trace_eq_walkWith]
  cases ho : c.isObject with
  | false =>
      rw [walkWith_of_array ho]
      refine .next (.member hd (.array _ _)) ?_
      have h := fits_elemsFrom nested ht (List.range c.len)
      rwa [List.length_range] at h
  | true =>
      rw [walkWith_of_object ho]
      split
      · exact .failed
      · refine .next (.member hd (.object _)) ?_
        have h := fits_pairsFrom nested ht (List.range c.len)
        rwa [List.length_range] at h

end Members

theorem nestedFits (c : Container) : NestedFits c := by
  induction hs : c.size using Nat.strongRecOn generalizing c with
  | ind s ih => exact fits_walk fun n hn => ih n.size (hs ▸ hn) n rfl

theorem fits_trace (c : Container) : c.trace.Fits [.elems 1] := by
  have h := c.nestedFits (.elem 0) .finished
  rwa [Trace.append_finished] at h

end Container

end PackedTree
