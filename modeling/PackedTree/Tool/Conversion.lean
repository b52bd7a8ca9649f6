import PackedTree.Json.Packing
import PackedTree.Json.Parser
import PackedTree.Json.Printer
import PackedTree.Order
import PackedTree.Text.Blank

/-! # Conversions for the command line

The three things that the tools do, from bytes or text to bytes or text: packing a document,
unpacking a container and comparing two containers.  Containers may travel as hexadecimal
text.  Each fault names the input at fault, and keeps the cause where there is one. -/

namespace PackedTree.Tool

/-- An input that should hold a container. -/
inductive Input where
  | only
  | left
  | right
deriving DecidableEq, Repr

/-- How an input is called in messages. -/
def Input.name : Input → String
  | .only => "input"
  | .left => "left input"
  | .right => "right input"

/-- Why a tool cannot do its work. -/
inductive Failure where
  | invalidJson
  | notContainer (input : Input) (cause : Fault)
  | notText
  | invalidHex
  | notUtf8
  | unreadable (file : String)
  | fault (cause : Fault)
deriving DecidableEq, Repr

namespace Failure

def message : Failure → String
  | invalidJson => "input is not valid JSON"
  | notContainer input _ => input.name ++ " is not a jsonb container"
  | notText => "hex input is not text"
  | invalidHex => "invalid hex input"
  | notUtf8 => "stream did not contain valid UTF-8"
  | unreadable file => "reading " ++ file
  | fault cause => cause.message

/-- The fault behind a failure. -/
def cause? : Failure → Option Fault
  | notContainer _ cause | fault cause => some cause
  | _ => none

end Failure

/-- The bytes of the container of a document. -/
def pack (options : Options) (text : String) : Except Failure Bytes :=
  match Json.read text with
  | none => .error .invalidJson
  | some doc => ((doc.pack options).map Container.bytes).mapError .fault

/-- The container in an input. -/
def container (input : Input) (b : Bytes) : Except Failure Container :=
  (Container.ofBytes b).mapError (.notContainer input)

/-- The text of the document in a container. -/
def unpack (pretty : Bool) (b : Bytes) : Except Failure String := do
  let c ← container .only b
  let doc ← c.json.mapError .fault
  .ok (if pretty then doc.prettyText else doc.text)

def compare (left right : Bytes) : Except Failure Ordering := do
  let a ← container .left left
  let b ← container .right right
  (a.compare b).mapError .fault

/-- The bytes of a container that travels as it is or as hexadecimal text. -/
def decodeInput (hex : Bool) (raw : Bytes) : Except Failure Bytes :=
  if hex then
    match Bytes.toText? raw with
    | none => .error .notText
    | some text =>
        match Hex.decode? (Text.trim text.toList) with
        | none => .error .invalidHex
        | some b => .ok b
  else .ok raw

/-- A container as it travels; hexadecimal text ends its line. -/
def encodeOutput (hex : Bool) (b : Bytes) : Bytes :=
  if hex then Bytes.ofText (Hex.text b ++ "\n") else b

end PackedTree.Tool
