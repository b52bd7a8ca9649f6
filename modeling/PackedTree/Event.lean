import PackedTree.Value.Basic

/-! # Events

A tree can be told step by step: a container begins, its members follow in order, the
container ends.  An object's member is a key and then a value.  Trees are read as such steps
and built from them. -/

namespace PackedTree

/-- One step of the telling of a tree. -/
inductive Event where
  /-- An array of `len` elements begins. -/
  | beginArray (len : Nat) (raw : Bool)
  | elem (v : Value)
  | endArray
  /-- An object of `len` pairs begins. -/
  | beginObject (len : Nat)
  | key (k : Bytes)
  | value (v : Value)
  | endObject
  | done
deriving Repr

/-- The kind of a step. -/
def Event.token : Event → Token
  | .beginArray _ _ => .beginArray
  | .elem _ => .elem
  | .endArray => .endArray
  | .beginObject _ => .beginObject
  | .key _ => .key
  | .value _ => .value
  | .endObject => .endObject
  | .done => .done

/-- The two places where a value can stand: as an element, or after a key. -/
inductive Slot where
  | elem
  | value
deriving DecidableEq, Repr

namespace Slot

/-- The step that puts a value in its place. -/
def event : Slot → Value → Event
  | elem, v => .elem v
  | value, v => .value v

def token : Slot → Token
  | elem => .elem
  | value => .value

end Slot

end PackedTree
