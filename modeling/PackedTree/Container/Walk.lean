import PackedTree.Container.Child
import PackedTree.Trace

/-! # The trace of a container

A container tells its children in the order of the directory.  An array tells every element;
an object first makes sure that the start of its values can be found, and then tells each key
and its value.  A nested container is told in full (`Container.trace`) or shown packed
(`Container.shallowTrace`); `walk` is the walk over one container with that choice left open.

`trace_eq` unfolds the recursion once. -/

namespace PackedTree.Container

section Walk

variable (c : Container) (enter : Slot → (n : Container) → n.size < c.size → Trace)

/-- The elements at the given positions, and the end of the array. -/
def walkElems : List Nat → Trace
  | [] => .next .endArray .finished
  | i :: is =>
      match h : c.child i with
      | .error f => .failed f
      | .ok (.binary n) => (enter .elem n (size_lt_of_child h)).append (walkElems is)
      | .ok v => .next (.elem v) (walkElems is)

/-- The pairs at the given positions, and the end of the object. -/
def walkPairs : List Nat → Trace
  | [] => .next .endObject .finished
  | i :: is =>
      match c.child i with
      | .error f => .failed f
      | .ok (.string k) =>
          .next (.key k) <|
            match h : c.child (i + c.len) with
            | .error f => .failed f
            | .ok (.binary n) => (enter .value n (size_lt_of_child h)).append (walkPairs is)
            | .ok v => .next (.value v) (walkPairs is)
      | .ok _ => .failed (.keyNotString i)

/-- One container, with nested ones told by `enter`. -/
def walk : Trace :=
  if c.isObject then
    match c.start c.len with
    | .error f => .failed f
    | .ok _ => .next (.beginObject c.len) (c.walkPairs enter (List.range c.len))
  else .next (.beginArray c.len c.isRaw) (c.walkElems enter (List.range c.len))

end Walk

/-- A container with all that is nested in it. -/
def trace (c : Container) : Trace := c.walk fun _ n _ => n.trace
termination_by c.size

/-- A container with nested ones left packed. -/
def shallowTrace (c : Container) : Trace :=
  c.walk fun slot n _ => .next (slot.event (.binary n)) .finished

theorem trace_eq (c : Container) : c.trace = c.walk fun _ n _ => n.trace := by rw [trace]

/-- Whether every node of a container can be read; if not, the first fault. -/
def validate (c : Container) : Except Fault Unit :=
  match c.trace.fault? with
  | none => .ok ()
  | some f => .error f

end PackedTree.Container
