import PackedTree.Container.Walk

/-! # The order of values and containers

Values of different kinds rank null, string, number, boolean, array, object.  Strings compare
by length and then bytewise, numbers by value, and false comes before true.

Containers compare by their traces, event by event; the first difference decides.  Of two
arrays the raw one comes first, then the one with fewer elements; of two objects the one with
fewer pairs.  Where both traces fail at the same place, the fault of the left one counts. -/

namespace PackedTree

def Kind.compare (k l : Kind) : Ordering := Ord.compare k.rank l.rank

namespace Value

/-- Orders two values as scalars; arrays and objects compare by kind alone. -/
def compareScalars : Value → Value → Ordering
  | null, null => .eq
  | string a, string b => Bytes.keyCompare a b
  | number a, number b => a.compare b
  | bool a, bool b => Ord.compare a b
  | a, b => a.kind.compare b.kind

/-- Whether a scalar equals another value; arrays and objects equal nothing. -/
def scalarEq (a b : Value) : Bool :=
  a.isScalar && a.kind == b.kind && a.compareScalars b == .eq

end Value

namespace Event

/-- The kind that an event announces; ends announce none. -/
def kind? : Event → Option Kind
  | beginArray _ _ => some .array
  | beginObject _ => some .object
  | key _ => some .string
  | elem v | value v => some v.kind
  | endArray | endObject | done => none

/-- The rank of the announced kind, with nothing announced before all kinds. -/
def rank (e : Event) : Nat :=
  match e.kind? with
  | none => 0
  | some k => k.rank + 1

/-- Orders two events at the same place of two traces. -/
def compare : Event → Event → Ordering
  | beginArray m r, beginArray n s =>
      if r = s then Ord.compare m n else if r then .lt else .gt
  | beginObject m, beginObject n => Ord.compare m n
  | key a, key b => Bytes.keyCompare a b
  | elem a, elem b => a.compareScalars b
  | value a, value b => a.compareScalars b
  | a, b => Ord.compare a.rank b.rank

end Event

/-- Orders two traces by their first difference. -/
def Trace.compare : Trace → Trace → Except Fault Ordering
  | .failed f, _ => .error f
  | .finished, .failed f => .error f
  | .next _ _, .failed f => .error f
  | .finished, .finished => .ok .eq
  | .finished, .next d _ => .ok (Event.done.compare d)
  | .next e _, .finished => .ok (e.compare .done)
  | .next e t, .next d u =>
      match e.compare d with
      | .eq => t.compare u
      | o => .ok o

namespace Container

/-- Orders two containers. -/
def compare (c d : Container) : Except Fault Ordering := c.trace.compare d.trace

/-- Puts a labelled container into a list in descending order, in front of those that are not
greater. -/
def insert {α : Type} (x : α × Container) :
    List (α × Container) → Except Fault (List (α × Container))
  | [] => .ok [x]
  | y :: ys => do
      match ← x.2.compare y.2 with
      | .lt => .ok (y :: (← insert x ys))
      | _ => .ok (x :: y :: ys)

/-- The labels of containers in ascending order; equal ones keep their order. -/
def arrange {α : Type} (cs : List (α × Container)) : Except Fault (List α) := do
  let descending ← cs.foldlM (fun descending x => insert x descending) []
  .ok (descending.reverse.map Prod.fst)

end Container

end PackedTree
