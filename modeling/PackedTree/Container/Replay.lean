import PackedTree.Container.Child
import PackedTree.Event

/-! # Reading a container step by step

A `Replay` hands out the events of a container one at a time.  It keeps a cursor for every
container that it is inside, innermost first; a cursor remembers where the next child begins,
so that no start has to be recovered from the directory.  After the end of the outermost
container every step is `done`.  A step that fails leaves the cursors where the next step
fails again. -/

namespace PackedTree

/-- What a cursor does next. -/
inductive Phase where
  /-- Announce the container. -/
  | start
  /-- Read an element or a key, or close the container. -/
  | member
  /-- Read the value of the key just read. -/
  | value
deriving DecidableEq, Repr

/-- A place inside a container. -/
structure Cursor where
  container : Container
  index : Nat
  /-- Where the next element or key begins. -/
  offset : Nat
  /-- Where the next value of an object begins. -/
  valueOffset : Nat
  phase : Phase
deriving DecidableEq, Repr

namespace Cursor

/-- The place before a container. -/
def before (c : Container) : Cursor := ⟨c, 0, 0, 0, .start⟩

/-- Announces the container. -/
def enter (cur : Cursor) : Except Fault Event × Cursor :=
  let c := cur.container
  if c.isObject then
    match c.start c.len with
    | .error f => (.error f, cur)
    | .ok o => (.ok (.beginObject c.len), { cur with valueOffset := o, phase := .member })
  else (.ok (.beginArray c.len c.isRaw), { cur with phase := .member })

/-- The element at a cursor, and the cursor behind it. -/
def takeElem (cur : Cursor) : Except Fault (Value × Cursor) := do
  let v ← cur.container.childAt cur.index cur.offset
  let d ← cur.container.entry cur.index
  .ok (v, { cur with index := cur.index + 1, offset := d.stop cur.offset })

/-- The key at a cursor. -/
def peekKey (cur : Cursor) : Except Fault Bytes := do
  match ← cur.container.childAt cur.index cur.offset with
  | .string k => .ok k
  | _ => .error (.keyNotString cur.index)

/-- The value that belongs to the key at a cursor, and the cursor behind the pair. -/
def takeValue (cur : Cursor) : Except Fault (Value × Cursor) := do
  let i := cur.index + cur.container.len
  let v ← cur.container.childAt i cur.valueOffset
  let dk ← cur.container.entry cur.index
  let dv ← cur.container.entry i
  .ok (v, { cur with
    index := cur.index + 1
    offset := dk.stop cur.offset
    valueOffset := dv.stop cur.valueOffset
    phase := .member })

end Cursor

/-- The state of a reading in steps. -/
structure Replay where
  stack : List Cursor
  /-- Whether nested containers are shown packed instead of being entered. -/
  shallow : Bool
deriving DecidableEq, Repr

namespace Replay

/-- The reading of a container from its beginning. -/
def before (c : Container) (shallow : Bool) : Replay := ⟨[.before c], shallow⟩

/-- The number of containers that the reading is inside. -/
def depth (r : Replay) : Nat := r.stack.length

/-- Shows a member, or enters it if it is a container to be entered.  `rest` are the cursors
that remain when the member is done. -/
def deliver (r : Replay) (slot : Slot) (v : Value) (rest : List Cursor) :
    Except Fault Event × Replay :=
  match v with
  | .binary n =>
      if r.shallow then (.ok (slot.event v), { r with stack := rest })
      else
        let (e, cur) := (Cursor.before n).enter
        (e, { r with stack := cur :: rest })
  | v => (.ok (slot.event v), { r with stack := rest })

/-- The next event, and the state after it. -/
def next (r : Replay) : Except Fault Event × Replay :=
  match r.stack with
  | [] => (.ok .done, r)
  | cur :: below =>
      match cur.phase, cur.container.isObject with
      | .start, _ =>
          let (e, cur) := cur.enter
          (e, { r with stack := cur :: below })
      | .member, false =>
          if cur.index < cur.container.len then
            match cur.takeElem with
            | .error f => (.error f, r)
            | .ok (v, cur) => r.deliver .elem v (cur :: below)
          else (.ok .endArray, { r with stack := below })
      | .member, true =>
          if cur.index < cur.container.len then
            match cur.peekKey with
            | .error f => (.error f, r)
            | .ok k => (.ok (.key k), { r with stack := { cur with phase := .value } :: below })
          else (.ok .endObject, { r with stack := below })
      | .value, _ =>
          match cur.takeValue with
          | .error f => (.error f, r)
          | .ok (v, cur) => r.deliver .value v (cur :: below)

/-- The results of the first `n` steps, each with the depth after it. -/
def steps : Nat → Replay → List (Except Fault Event × Nat)
  | 0, _ => []
  | n + 1, r =>
      let (e, r) := r.next
      (e, r.depth) :: steps n r

/-- The next item of the finite sequence of events: nothing after the last event, and nothing
after a fault. -/
def item? (r : Replay) : Option (Except Fault Event) × Replay :=
  match r.next with
  | (.ok .done, r) => (none, r)
  | (.ok e, r) => (some (.ok e), r)
  | (.error f, r) => (some (.error f), { r with stack := [] })

/-- The items of that sequence, at most `n` of them. -/
def items : Nat → Replay → List (Except Fault Event)
  | 0, _ => []
  | n + 1, r =>
      match r.item? with
      | (none, _) => []
      | (some e, r) => e :: items n r

end Replay

end PackedTree
