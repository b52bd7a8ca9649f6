import PackedTree.Bytes.Reader
import PackedTree.Bytes.Hex

/-! # Faults

Everything that can go wrong when a tree is read, built or written.  A `Fault` records the
cause; `Fault.message` has the wording.  `Fault.isFormat` singles out the faults that lie in
the bytes of a container, as opposed to a wrong order of events, a limit, or a choice of the
caller. -/

namespace PackedTree

/-- The kinds of steps in which a tree is told. -/
inductive Token where
  | beginArray
  | elem
  | endArray
  | beginObject
  | key
  | value
  | endObject
  | done
deriving DecidableEq, Repr

/-- The name of a step in messages. -/
def Token.name : Token → String
  | .beginArray => "BeginArray"
  | .elem => "Elem"
  | .endArray => "EndArray"
  | .beginObject => "BeginObject"
  | .key => "Key"
  | .value => "Value"
  | .endObject => "EndObject"
  | .done => "Done"

/-- Why a step is out of place. -/
inductive Misplacement where
  | complete
  | noOpenArray
  | noOpenObject
  | rawSize
  | rawNested
  | rawHoldsContainer
  | keyExpected
  | valueExpected
  | keyWithoutValue
  | notAStep
  | unfinished
  | scalarRequired
  | keyRequired
  | containerRequired
deriving DecidableEq, Repr

/-- The wording of a misplacement. -/
def Misplacement.message : Misplacement → String
  | .complete => "top-level container already complete"
  | .noOpenArray => "no open array"
  | .noOpenObject => "no open object"
  | .rawSize => "a raw scalar array holds exactly one element"
  | .rawNested => "a raw scalar array must be the top-level container"
  | .rawHoldsContainer => "a raw scalar array cannot hold a container"
  | .keyExpected => "a key was expected"
  | .valueExpected => "a value was expected"
  | .keyWithoutValue => "key has no value"
  | .notAStep => "not accepted by the builder"
  | .unfinished => "event stream ended inside a container"
  | .scalarRequired => "expected a scalar"
  | .keyRequired => "expected a key"
  | .containerRequired => "expected a container"

/-- Why a tree cannot be read, built or written. -/
inductive Fault where
  | truncated (overrun : Overrun)
  | invalidHeader (word : UInt32)
  | invalidTag (code : Nat)
  | entryOutOfRange (index stop size : Nat)
  | invalidNumber
  | keyNotString (index : Nat)
  | invalidText
  | unexpected (token : Token) (reason : Misplacement)
  | tooManyElements (count max : Nat)
  | tooManyPairs (count max : Nat)
  | arrayTooLarge (max : Nat)
  | objectTooLarge (max : Nat)
  | fieldOverflow (field bits : Nat)
  | tooDeep (max : Nat)
  | duplicateKey
  | notAnArray
deriving DecidableEq, Repr

namespace Fault

def message : Fault → String
  | truncated o => "container data truncated: " ++ o.message
  | invalidHeader w => "invalid container header 0x" ++ Hex.text (Bytes.ofWord w).reverse
  | invalidTag code => s!"invalid entry type tag {code} in descriptor"
  | entryOutOfRange index stop size =>
      s!"entry {index} ends at {stop}, beyond payload of {size} bytes"
  | invalidNumber => "invalid numeric payload"
  | keyNotString index => s!"object key at index {index} is not a string"
  | invalidText => "string value is not valid UTF-8"
  | unexpected token reason => "unexpected " ++ token.name ++ " event: " ++ reason.message
  | tooManyElements count max =>
      s!"number of array elements ({count}) exceeds the maximum allowed ({max})"
  | tooManyPairs count max =>
      s!"number of object pairs ({count}) exceeds the maximum allowed ({max})"
  | arrayTooLarge max => s!"total size of array elements exceeds the maximum of {max} bytes"
  | objectTooLarge max => s!"total size of object elements exceeds the maximum of {max} bytes"
  | fieldOverflow field bits => s!"entry field value {field} does not fit in {bits} bits"
  | tooDeep max => s!"nesting depth exceeds the maximum of {max}"
  | duplicateKey => "duplicate object key value"
  | notAnArray => "container is not an array"

/-- Whether the fault lies in the bytes of a container. -/
def isFormat : Fault → Bool
  | truncated _ | invalidHeader _ | invalidTag _ | entryOutOfRange _ _ _ => true
  | invalidNumber | keyNotString _ | invalidText => true
  | _ => false

end Fault

end PackedTree
