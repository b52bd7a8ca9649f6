import PackedTree.Order

/-! # Lookups

Three ways to reach a child without telling the whole container: the first element equal to a
scalar, the value of a key by binary search over the keys, and an element by its position.
Not to find anything is no fault.  `path?` chains lookups. -/

namespace PackedTree.Container

/-- The first of `count` elements from `index` on that equals `target`; the first of them
begins at `offset`. -/
def findFrom (c : Container) (target : Value) : Nat → Nat → Nat → Except Fault (Option Value)
  | 0, _, _ => .ok none
  | count + 1, index, offset => do
      let v ← c.childAt index offset
      if v.scalarEq target then .ok (some v)
      else
        let d ← c.entry index
        c.findFrom target count (index + 1) (d.stop offset)

/-- The first element of an array that equals a scalar. -/
def find? (c : Container) (target : Value) : Except Fault (Option Value) :=
  if c.isObject ∨ !target.isScalar then .ok none else c.findFrom target c.len 0 0

def keyAt (c : Container) (index : Nat) : Except Fault Bytes := do
  match ← c.child index with
  | .string k => .ok k
  | _ => .error (.keyNotString index)

/-- The value of `key` if its position is at least `lo` and below `hi`. -/
def search (c : Container) (key : Bytes) (lo hi : Nat) : Except Fault (Option Value) :=
  if _h : lo < hi then
    let mid := lo + (hi - lo) / 2
    match c.keyAt mid with
    | .error f => .error f
    | .ok k =>
        match Bytes.keyCompare k key with
        | .eq => (c.child (mid + c.len)).map some
        | .lt => c.search key (mid + 1) hi
        | .gt => c.search key lo mid
  else .ok none
termination_by hi - lo

def lookup? (c : Container) (key : Bytes) : Except Fault (Option Value) :=
  if c.isObject then c.search key 0 c.len else .ok none

def elem? (c : Container) (index : Nat) : Except Fault (Option Value) :=
  if c.isObject then .error .notAnArray
  else if index < c.len then (c.child index).map some
  else .ok none

/-- One step from a container to a child. -/
inductive Step where
  | index (i : Nat)
  | key (k : Bytes)
deriving DecidableEq, Repr

/-- The child that one step leads to. -/
def step? (c : Container) : Step → Except Fault (Option Value)
  | .index i => c.elem? i
  | .key k => c.lookup? k

/-- The value that a chain of steps leads to. -/
def path? (c : Container) : List Step → Except Fault (Option Value)
  | [] => .ok (some (.binary c))
  | [s] => c.step? s
  | s :: rest => do
      match ← c.step? s with
      | some (.binary n) => n.path? rest
      | _ => .ok none

end PackedTree.Container
