import PackedTree.Container.Walk

/-! # Values as traces

Any value can be told as a trace of scalars: an array or object with its members, a packed
container as it tells itself.  A raw wrapper inside a tree is replaced by the value that it
wraps; one that does not hold exactly one element is a fault. -/

namespace PackedTree.Value

mutual

/-- The telling of a value at a place of a tree. -/
def trace : Value → Slot → Trace
  | .array true [v], slot => v.trace slot
  | .array true _, slot => .failed (.unexpected slot.token .rawSize)
  | .array false elems, _ =>
      .next (.beginArray elems.length false) ((traceElems elems).append (.next .endArray .finished))
  | .object pairs, _ =>
      .next (.beginObject pairs.length) ((tracePairs pairs).append (.next .endObject .finished))
  | .binary c, slot =>
      match c.unwrapped with
      | .error f => .failed f
      | .ok (.binary n) => n.trace
      | .ok v => .next (slot.event v) .finished
  | v, slot => .next (slot.event v) .finished

def traceElems : List Value → Trace
  | [] => .finished
  | v :: vs => (v.trace .elem).append (traceElems vs)

def tracePairs : List (Bytes × Value) → Trace
  | [] => .finished
  | (k, v) :: ps => .next (.key k) ((v.trace .value).append (tracePairs ps))

end

theorem trace_of_isScalar {v : Value} (hv : v.isScalar = true) (slot : Slot) :
    v.trace slot = .next (slot.event v) .finished := by
  cases v with
  | null | bool | number | string => rfl
  | _ => cases hv

theorem trace_array (elems : List Value) (slot : Slot) :
    (Value.array false elems).trace slot = .next (.beginArray elems.length false)
      ((traceElems elems).append (.next .endArray .finished)) := by
  rw [trace]

theorem trace_object (pairs : List (Bytes × Value)) (slot : Slot) :
    (Value.object pairs).trace slot = .next (.beginObject pairs.length)
      ((tracePairs pairs).append (.next .endObject .finished)) := by
  rw [trace]

end PackedTree.Value
