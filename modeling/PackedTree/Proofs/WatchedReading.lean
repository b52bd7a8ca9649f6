import PackedTree.Container.Lookup
import PackedTree.Container.Replay
import PackedTree.Hash

/-! # Reading with every access watched

The readers of this library are total: a range that runs out of its byte string is clipped, and a
difference below zero is zero.  Here they are written once more over the plain bytes of a container
(`Container.bytes`), with the same guards in the same order, but so that a range must lie inside the
string that it is taken from and a difference must not fall below zero.  Where that is not so, the
reading ends with a `Breach` instead of a fault.

`Watched.Folds` and `Watched.Lockstep` are the loops that take one event after the other, of one
container and of two. -/

namespace PackedTree

/-- An access that must not happen. -/
inductive Breach where
  /-- The range from `start` to `stop` is asked of `size` bytes. -/
  | range (start stop size : Nat)
  /-- The second number is to be subtracted from the first one, which is less. -/
  | belowZero (m n : Nat)
deriving DecidableEq, Repr

/-- Why a watched reading ends early. -/
inductive Halt where
  | fault (f : Fault)
  | breach (b : Breach)
deriving DecidableEq, Repr

/-- A reading in which every access is watched. -/
abbrev Watched (α : Type) := Except Halt α

namespace Watched

/-- The watched form of a reading that makes no breach. -/
def unbroken {α : Type} : Except Fault α → Watched α
  | .ok a => .ok a
  | .error f => .error (.fault f)

def fail {α : Type} (f : Fault) : Watched α := .error (.fault f)

/-! ### Accesses -/

/-- The bytes from `start` to `stop`. -/
def cut (b : Bytes) (start stop : Nat) : Watched Bytes :=
  if start ≤ stop ∧ stop ≤ b.length then .ok (b.extract start stop)
  else .error (.breach (.range start stop b.length))

def byteAt (b : Bytes) (i : Nat) : Watched UInt8 :=
  match b[i]? with
  | some x => .ok x
  | none => .error (.breach (.range i (i + 1) b.length))

/-- A copy into a place of `len` bytes, which the bytes must fill. -/
def copied (b : Bytes) (len : Nat) : Watched Bytes :=
  if b.length = len then .ok b else .error (.breach (.range 0 len b.length))

def minus (m n : Nat) : Watched Nat :=
  if n ≤ m then .ok (m - n) else .error (.breach (.belowZero m n))

theorem eq_of_minus {m n k : Nat} (h : minus m n = .ok k) : k = m - n := by
  unfold minus at h
  split at h
  · cases h
    rfl
  · cases h

/-- The least multiple of `align` that is at least `n`. -/
def alignUp (n align : Nat) : Watched Nat := do
  let top ← minus (n + align) 1
  let _mask ← minus align 1
  .ok (top / align * align)

/-! ### Byte strings -/

def check (b : Bytes) (offset len : Nat) : Watched Unit :=
  if offset + len ≤ b.length then .ok () else fail (.truncated ⟨offset, len, b.length⟩)

def word (b : Bytes) (offset : Nat) : Watched UInt32 := do
  check b offset 4
  let s ← cut b offset (offset + 4)
  .ok (Bytes.toWord [← byteAt s 0, ← byteAt s 1, ← byteAt s 2, ← byteAt s 3])

/-- The `len` bytes at `offset`. -/
def slice (b : Bytes) (offset len : Nat) : Watched Bytes := do
  check b offset len
  cut b offset (offset + len)

def int64 (b : Bytes) (offset : Nat) : Watched Int64 := do
  let s ← slice b offset 8
  .ok (Bytes.toInt64 (← copied s 8))

def suffix (b : Bytes) (offset : Nat) : Watched Bytes := do
  check b offset 0
  cut b offset b.length

/-- The decimal that bytes stand for. -/
def number (b : Bytes) : Watched Decimal :=
  if b.length ≤ 8 then fail .invalidNumber
  else do
    let scale ← int64 b 0
    if Decimal.storable ⟨0, scale⟩ then .ok ⟨Bytes.toInt (← suffix b 8), scale⟩
    else fail .invalidNumber

/-! ### Containers -/

/-- The container with a given header, laid out in the given bytes. -/
def headed (h : Header) (b : Bytes) : Container where
  header := h
  words := Bytes.words h.entryCount (b.drop 4)
  payload := b.drop (4 + 4 * h.entryCount)
  length_words := Bytes.length_words _ _

/-- The container that consists of the given bytes.  Only the header and the size of the directory
are looked at. -/
def ofBytes (b : Bytes) : Watched Container := do
  let w ← word b 0
  let h ← unbroken (Header.ofWord w)
  let _directory ← slice b 0 (4 + 4 * h.entryCount)
  .ok (headed h b)

def payloadStart (c : Container) : Nat := 4 + 4 * c.entryCount

def payload (c : Container) : Watched Bytes := cut c.bytes (payloadStart c) c.bytes.length

def entry (c : Container) (index : Nat) : Watched Descriptor :=
  if c.entryCount ≤ index then fail (.entryOutOfRange index (4 * (index + 1)) (4 * c.entryCount))
  else do
    let w ← word c.bytes (4 + 4 * index)
    unbroken (Descriptor.ofWord w)

/-- Where child `index` begins in the payload, and how many descriptors tell so. -/
def walkBack (c : Container) : Nat → Watched (Nat × Nat)
  | 0 => .ok (0, 0)
  | index + 1 => do
      let d ← entry c index
      if d.absolute then .ok (d.field, 1)
      else
        let (offset, touched) ← walkBack c index
        .ok (offset + d.field, touched + 1)

def start (c : Container) (index : Nat) : Watched Nat := do
  let (offset, _) ← walkBack c index
  .ok offset

/-- The fault of a child that would end at `stop`; the size in it stops at zero. -/
def outOfRange (c : Container) (index stop : Nat) : Fault :=
  .entryOutOfRange index stop (c.bytes.length - payloadStart c)

def length (c : Container) (index : Nat) : Watched Nat := do
  let d ← entry c index
  if d.absolute then
    let o ← start c index
    if o ≤ d.field then minus d.field o else fail (outOfRange c index d.field)
  else .ok d.field

/-- Child `index`, which begins at `offset`. -/
def childAt (c : Container) (index offset : Nat) : Watched Value := do
  let d ← entry c index
  let stop := d.stop offset
  let payload ← payload c
  if stop < offset ∨ payload.length < stop then fail (outOfRange c index stop)
  else
    match d.tag with
    | .null => .ok .null
    | .yes => .ok (.bool true)
    | .no => .ok (.bool false)
    | .string => (cut payload offset stop).map .string
    | .number =>
        let start ← alignUp offset 4
        if stop < start then fail (outOfRange c index stop)
        else
          let content ← cut payload start stop
          (number content).map .number
    | .container =>
        let start ← alignUp offset 4
        if stop < start then fail (outOfRange c index stop)
        else
          let content ← cut payload start stop
          (ofBytes content).map .binary

def child (c : Container) (index : Nat) : Watched Value := do
  let offset ← start c index
  childAt c index offset

def scalar? (c : Container) : Watched (Option Value) :=
  if c.isRaw then (child c 0).map some else .ok none

/-! ### Lookups -/

/-- The first of `count` elements from `index` on that equals `target`; the first of them
begins at `offset`. -/
def findFrom (c : Container) (target : Value) : Nat → Nat → Nat → Watched (Option Value)
  | 0, _, _ => .ok none
  | count + 1, index, offset => do
      let v ← childAt c index offset
      if v.scalarEq target then .ok (some v)
      else
        let d ← entry c index
        findFrom c target count (index + 1) (d.stop offset)

def find? (c : Container) (target : Value) : Watched (Option Value) :=
  if c.isObject ∨ !target.isScalar then .ok none else findFrom c target c.len 0 0

def keyAt (c : Container) (index : Nat) : Watched Bytes := do
  match ← child c index with
  | .string k => .ok k
  | _ => fail (.keyNotString index)

/-- The value of `key` if its position is at least `lo` and below `hi`. -/
def search (c : Container) (key : Bytes) (lo hi : Nat) : Watched (Option Value) :=
  if _h : lo < hi then
    match _hw : minus hi lo with
    | .error x => .error x
    | .ok width =>
        match keyAt c (lo + width / 2) with
        | .error x => .error x
        | .ok k =>
            match Bytes.keyCompare k key with
            | .eq => (child c (lo + width / 2 + c.len)).map some
            | .lt => search c key (lo + width / 2 + 1) hi
            | .gt => search c key lo (lo + width / 2)
  else .ok none
termination_by hi - lo
decreasing_by
  all_goals
    have := eq_of_minus _hw
    omega

def lookup? (c : Container) (key : Bytes) : Watched (Option Value) :=
  if c.isObject then search c key 0 c.len else .ok none

def elem? (c : Container) (index : Nat) : Watched (Option Value) :=
  if c.isObject then fail .notAnArray
  else if index < c.len then (child c index).map some
  else .ok none

/-! ### Steps -/

def enter (cur : Cursor) : Watched Event × Cursor :=
  let c := cur.container
  if c.isObject then
    match start c c.len with
    | .error x => (.error x, cur)
    | .ok o => (.ok (.beginObject c.len), { cur with valueOffset := o, phase := .member })
  else (.ok (.beginArray c.len c.isRaw), { cur with phase := .member })

def takeElem (cur : Cursor) : Watched (Value × Cursor) := do
  let v ← childAt cur.container cur.index cur.offset
  let d ← entry cur.container cur.index
  .ok (v, { cur with index := cur.index + 1, offset := d.stop cur.offset })

def peekKey (cur : Cursor) : Watched Bytes := do
  match ← childAt cur.container cur.index cur.offset with
  | .string k => .ok k
  | _ => fail (.keyNotString cur.index)

def takeValue (cur : Cursor) : Watched (Value × Cursor) := do
  let i := cur.index + cur.container.len
  let v ← childAt cur.container i cur.valueOffset
  let dk ← entry cur.container cur.index
  let dv ← entry cur.container i
  .ok (v, { cur with
    index := cur.index + 1
    offset := dk.stop cur.offset
    valueOffset := dv.stop cur.valueOffset
    phase := .member })

/-- Shows a member, or enters it if it is a container to be entered. -/
def deliver (r : Replay) (slot : Slot) (v : Value) (rest : List Cursor) :
    Watched Event × Replay :=
  match v with
  | .binary n =>
      if r.shallow then (.ok (slot.event v), { r with stack := rest })
      else
        let (e, cur) := enter (.before n)
        (e, { r with stack := cur :: rest })
  | v => (.ok (slot.event v), { r with stack := rest })

/-- The next event, and the state after it. -/
def next (r : Replay) : Watched Event × Replay :=
  match r.stack with
  | [] => (.ok .done, r)
  | cur :: below =>
      match cur.phase, cur.container.isObject with
      | .start, _ =>
          let (e, cur) := enter cur
          (e, { r with stack := cur :: below })
      | .member, false =>
          if cur.index < cur.container.len then
            match takeElem cur with
            | .error x => (.error x, r)
            | .ok (v, cur) => deliver r .elem v (cur :: below)
          else (.ok .endArray, { r with stack := below })
      | .member, true =>
          if cur.index < cur.container.len then
            match peekKey cur with
            | .error x => (.error x, r)
            | .ok k => (.ok (.key k), { r with stack := { cur with phase := .value } :: below })
          else (.ok .endObject, { r with stack := below })
      | .value, _ =>
          match takeValue cur with
          | .error x => (.error x, r)
          | .ok (v, cur) => deliver r .value v (cur :: below)

/-- The results of the first `n` steps, each with the depth after it. -/
def steps : Nat → Replay → List (Watched Event × Nat)
  | 0, _ => []
  | n + 1, r =>
      let (e, r) := next r
      (e, r.depth) :: steps n r

/-! ### Loops -/

/-- A loop takes events one after the other until `done` or a halt, and folds them into `a`. -/
inductive Folds {α : Type} (take : α → Event → α) : Replay → α → Watched α → Prop
  | done {r r' : Replay} {a : α} (h : next r = (.ok .done, r')) : Folds take r a (.ok a)
  | halt {r r' : Replay} {a : α} {x : Halt} (h : next r = (.error x, r')) :
      Folds take r a (.error x)
  | step {r r' : Replay} {a : α} {e : Event} {out : Watched α} (h : next r = (.ok e, r'))
      (he : e ≠ .done) (ht : Folds take r' (take a e) out) : Folds take r a out

/-- What one turn over two readings decides: a halt, the end of both, or a difference of their
events.  Equal events decide nothing. -/
def turn : Watched Event → Watched Event → Option (Watched Ordering)
  | .error x, _ => some (.error x)
  | .ok _, .error x => some (.error x)
  | .ok .done, .ok .done => some (.ok .eq)
  | .ok e, .ok d =>
      match e.compare d with
      | .eq => none
      | o => some (.ok o)

/-- A loop takes an event of each of two readings until one turn decides. -/
inductive Lockstep : Replay → Replay → Watched Ordering → Prop
  | decided {r s : Replay} {out : Watched Ordering}
      (h : turn (next r).1 (next s).1 = some out) : Lockstep r s out
  | again {r s : Replay} {out : Watched Ordering} (h : turn (next r).1 (next s).1 = none)
      (ht : Lockstep (next r).2 (next s).2 out) : Lockstep r s out

end Watched

end PackedTree
