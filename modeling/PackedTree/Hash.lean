import PackedTree.Bytes.Mix
import PackedTree.Container.Walk
import PackedTree.Decimal.Wire

/-! # Hashing of values and containers

The hash of a container folds in every key and scalar of its trace, with a marker for each
array and object that begins.  Numbers are hashed by their normalized bytes, so that
containers that compare equal hash equal. -/

namespace PackedTree

/-- The number that a scalar adds to a hash; arrays and objects add none. -/
def Value.digest? : Value → Option UInt32
  | .null => some 1
  | .bool true => some 2
  | .bool false => some 4
  | .string s => some (Mix.hash s)
  | .number d => some (Mix.hash d.normalizedBytes)
  | .array _ _ | .object _ | .binary _ => none

/-- Folds a value into a hash. -/
def Value.hash (acc : UInt32) (v : Value) : UInt32 :=
  match v.digest? with
  | some item => Mix.fold acc item
  | none => acc

def Event.hash (acc : UInt32) : Event → UInt32
  | .beginArray _ _ => acc ^^^ 0x40000000
  | .beginObject _ => acc ^^^ 0x20000000
  | .key k => Value.hash acc (.string k)
  | .elem v | .value v => v.hash acc
  | .endArray | .endObject | .done => acc

def Trace.hash (acc : UInt32) : Trace → Except Fault UInt32
  | .finished => .ok acc
  | .failed f => .error f
  | .next e t => t.hash (e.hash acc)

def Container.hash (c : Container) : Except Fault UInt32 := c.trace.hash 0

end PackedTree
