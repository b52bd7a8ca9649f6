import PackedTree.Keyed
import PackedTree.Value.Trace

/-! # Building values from events

A builder takes events and keeps the containers that are open, innermost first.  Closing an
object makes its pairs canonical; closing the outermost container yields its value, after
which no event is accepted.  A materialized or packed member is told event by event, so that
every object goes through the same canonical form however it arrives.

`push` is the whole interface: it returns what the event led to and the builder after it,
also when the event was refused.  `build` runs a list of events. -/

namespace PackedTree

/-- The choices of a caller. -/
structure Options where
  /-- Refuse an object in which a key repeats. -/
  uniqueKeys : Bool := false
  /-- Drop the pairs of an object whose value is null, after repeated keys are settled. -/
  skipNulls : Bool := false
  /-- The most members of a container; `maxChildren` bounds it in any case. -/
  maxChildren : Nat := PackedTree.maxChildren
deriving DecidableEq, Repr

/-- The limit on members that is in force. -/
def Options.limit (o : Options) : Nat := min o.maxChildren PackedTree.maxChildren

theorem Options.limit_eq (o : Options) :
    o.limit = min o.maxChildren PackedTree.maxChildren := rfl

/-- A container that is open: its members so far, last one first, and for an object the key
that still lacks its value. -/
inductive Frame where
  | array (raw : Bool) (elems : List Value)
  | object (pairs : List (Bytes × Value)) (key : Option Bytes)
deriving Repr

/-- Why no container may begin directly inside a frame. -/
def Frame.closedTo : Frame → Option Misplacement
  | .array true _ => some .rawHoldsContainer
  | .array false _ => none
  | .object _ none => some .keyExpected
  | .object _ (some _) => none

/-- A value under construction. -/
structure Builder where
  options : Options
  frames : List Frame
  complete : Bool
deriving Repr

namespace Builder

/-- What an event led to, and the builder after it. -/
abbrev Outcome := Except Fault (Option Value) × Builder

/-- Nothing built yet. -/
def empty (options : Options) : Builder := ⟨options, [], false⟩

def depth (b : Builder) : Nat := b.frames.length

/-- Refuses an event and keeps the builder. -/
def refuse (b : Builder) (token : Token) (reason : Misplacement) : Outcome :=
  (.error (.unexpected token reason), b)

def enter (b : Builder) (token : Token) (frame : Frame) : Outcome :=
  match b.frames.head?.bind Frame.closedTo with
  | some reason => b.refuse token reason
  | none =>
      if maxDepth ≤ b.depth then (.error (.tooDeep maxDepth), b)
      else (.ok none, { b with frames := frame :: b.frames })

/-- Hands a finished value to the innermost container; without one, the value is the result.
A pending key is used up even if there is no room for the pair. -/
def store (b : Builder) (v : Value) : Outcome :=
  let max := b.options.limit
  match b.frames with
  | [] => (.ok (some v), { b with complete := true })
  | .array raw elems :: below =>
      if max ≤ elems.length then (.error (.tooManyElements (elems.length + 1) max), b)
      else (.ok none, { b with frames := .array raw (v :: elems) :: below })
  | .object pairs key :: below =>
      if max ≤ pairs.length then
        (.error (.tooManyPairs (pairs.length + 1) max),
          { b with frames := .object pairs none :: below })
      else (.ok none, { b with frames := .object ((key.getD [], v) :: pairs) none :: below })

/-- Whether a pair stays when null values are dropped. -/
def keepsPair (p : Bytes × Value) : Bool :=
  match p.2 with
  | .null => false
  | _ => true

/-- The pairs of a finished object. -/
def finishPairs (o : Options) (pairs : List (Bytes × Value)) :
    Except Fault (List (Bytes × Value)) :=
  if o.uniqueKeys ∧ 0 < Keyed.overwritten Bytes.keyCompare pairs then .error .duplicateKey
  else
    let kept := Keyed.canonical Bytes.keyCompare pairs
    .ok (if o.skipNulls then kept.filter keepsPair else kept)

/-- Takes one event whose members, if it has any, are scalars. -/
def step (b : Builder) : Event → Outcome
  | .beginArray _ raw =>
      if raw ∧ b.frames ≠ [] then b.refuse .beginArray .rawNested
      else b.enter .beginArray (.array raw [])
  | .beginObject _ => b.enter .beginObject (.object [] none)
  | .elem v =>
      match b.frames with
      | .array raw elems :: _ =>
          if raw ∧ elems ≠ [] then b.refuse .elem .rawSize else b.store v
      | _ => b.refuse .elem .noOpenArray
  | .key k =>
      match b.frames with
      | .object pairs none :: below =>
          (.ok none, { b with frames := .object pairs (some k) :: below })
      | .object _ (some _) :: _ => b.refuse .key .valueExpected
      | _ => b.refuse .key .noOpenObject
  | .value v =>
      match b.frames with
      | .object _ (some _) :: _ => b.store v
      | .object _ none :: _ => b.refuse .value .keyExpected
      | _ => b.refuse .value .noOpenObject
  | .endArray =>
      match b.frames with
      | .array raw elems :: below =>
          if raw ∧ elems.length ≠ 1 then b.refuse .endArray .rawSize
          else store { b with frames := below } (.array raw elems.reverse)
      | _ => b.refuse .endArray .noOpenArray
  | .endObject =>
      match b.frames with
      | .object pairs none :: below =>
          match finishPairs b.options pairs.reverse with
          | .error f => (.error f, { b with frames := below })
          | .ok pairs => store { b with frames := below } (.object pairs)
      | .object _ (some _) :: _ => b.refuse .endObject .keyWithoutValue
      | _ => b.refuse .endObject .noOpenObject
  | .done => b.refuse .done .notAStep

/-- Takes a whole trace and returns what its last event led to; `last` stands in if there is
none.  The events before a fault stay taken. -/
def feed (b : Builder) (last : Option Value) : Trace → Outcome
  | .finished => (.ok last, b)
  | .failed f => (.error f, b)
  | .next e rest =>
      match b.step e with
      | (.ok r, b) => b.feed r rest
      | (.error f, b) => (.error f, b)

/-- Takes a member, whatever its form. -/
def member (b : Builder) (slot : Slot) (v : Value) : Outcome :=
  match slot, b.frames with
  | .elem, .array _ _ :: _ => b.feed none (v.trace .elem)
  | .value, .object _ _ :: _ => b.feed none (v.trace .value)
  | .elem, _ => b.refuse .elem .noOpenArray
  | .value, _ => b.refuse .value .noOpenObject

/-- Takes one event.  The outcome holds the finished value if the event closes the outermost
container. -/
def push (b : Builder) (e : Event) : Outcome :=
  if b.complete then b.refuse e.token .complete
  else
    match e with
    | .elem v => b.member .elem v
    | .value v => b.member .value v
    | e => b.step e

/-- Runs events through a builder; `result` is the value that is already finished. -/
def run (b : Builder) (result : Option Value) : List Event → Except Fault Value
  | [] =>
      match result with
      | some v => .ok v
      | none => .error (.unexpected .done .unfinished)
  | e :: es =>
      match result, e with
      | some v, .done => .ok v
      | _, _ =>
          match b.push e with
          | (.ok r, b) => b.run (r.or result) es
          | (.error f, _) => .error f

end Builder

/-- The value that a list of events tells.  Events may stop at a `done` after the outermost
container. -/
def build (options : Options) (events : List Event) : Except Fault Value :=
  (Builder.empty options).run none events

end PackedTree
