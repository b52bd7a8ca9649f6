import PackedTree.Builder
import PackedTree.Decimal.Display
import PackedTree.Decimal.Reading
import PackedTree.Json.Basic
import PackedTree.Value.Packing

/-! # Between documents and containers

A document is packed by telling it to a builder; a bare scalar is told as a raw array.  Back,
the trace of a container is put together to a document, with raw wrappers at the top taken
off.  Numbers keep their digits in both directions; keys and strings must be text. -/

namespace PackedTree

/-! ### Documents to containers -/

namespace Json

mutual

/-- The telling of a document at a place of a tree. -/
def trace : Json → Slot → Trace
  | .null, slot => .next (slot.event .null) .finished
  | .bool b, slot => .next (slot.event (.bool b)) .finished
  | .string s, slot => .next (slot.event (.string (Bytes.ofText s))) .finished
  | .number n, slot =>
      match Decimal.read n.text with
      | .ok d => .next (slot.event (.number d)) .finished
      | .error _ => .failed .invalidNumber
  | .array items, _ =>
      .next (.beginArray items.length false) ((traceItems items).append (.next .endArray .finished))
  | .object members, _ =>
      .next (.beginObject members.length)
        ((traceMembers members).append (.next .endObject .finished))

def traceItems : List Json → Trace
  | [] => .finished
  | v :: vs => (v.trace .elem).append (traceItems vs)

def traceMembers : List (String × Json) → Trace
  | [] => .finished
  | (k, v) :: ms =>
      .next (.key (Bytes.ofText k)) ((v.trace .value).append (traceMembers ms))

end

/-- The telling of a whole document. -/
def wholeTrace : Json → Trace
  | .array items => (Json.array items).trace .elem
  | .object members => (Json.object members).trace .elem
  | scalar =>
      .next (.beginArray 1 true) ((scalar.trace .elem).append (.next .endArray .finished))

/-- The value of a document. -/
def value (options : Options) (doc : Json) : Except Fault Value :=
  match (Builder.empty options).feed none doc.wholeTrace with
  | (.ok (some v), _) => .ok v
  | (.ok none, _) => .error (.unexpected .done .unfinished)
  | (.error f, _) => .error f

/-- The container of a document. -/
def pack (options : Options) (doc : Json) : Except Fault Container := do
  (← doc.value options).pack

/-! ### Containers to documents -/

def textOf (b : Bytes) : Except Fault String :=
  match Bytes.toText? b with
  | some s => .ok s
  | none => .error .invalidText

/-- The document of a scalar. -/
def ofScalar : Value → Except Fault Json
  | .null => .ok .null
  | .bool b => .ok (.bool b)
  | .string s => (textOf s).map .string
  | .number d =>
      match Numeral.ofChars? d.chars with
      | some n => .ok (.number n)
      | none => .error .invalidNumber
  | .array _ _ | .object _ | .binary _ => .error (.unexpected .elem .scalarRequired)

/-- A document that is being put together: what is there of an array or object, last one
first, and for an object the name that still lacks its document. -/
inductive Open where
  | array (items : List Json)
  | object (members : List (String × Json)) (name : Option String)
deriving Repr

/-- What an event leads to. -/
inductive Progress where
  | result (doc : Json)
  | more (stack : List Open)
deriving Repr

/-- What may follow in the innermost open document. -/
def expected : List Open → Misplacement
  | .object _ none :: _ => .keyRequired
  | _ => .containerRequired

/-- Hands a finished document to the innermost open one; without one, it is the result. -/
def close (doc : Json) : List Open → Progress
  | [] => .result doc
  | .array items :: below => .more (.array (doc :: items) :: below)
  | .object members name :: below =>
      .more (.object ((name.getD "", doc) :: members) none :: below)

/-- What one event makes of the open documents. -/
def take (stack : List Open) (e : Event) : Except Fault Progress :=
  match e, stack with
  | .endArray, .array items :: below => .ok (close (.array items.reverse) below)
  | .elem v, .array items :: below => do .ok (.more (.array ((← ofScalar v) :: items) :: below))
  | .endObject, .object members none :: below => .ok (close (ofMembers members.reverse) below)
  | .key k, .object members none :: below => do
      .ok (.more (.object members (some (← textOf k)) :: below))
  | .value v, .object members (some name) :: below => do
      .ok (.more (.object ((name, ← ofScalar v) :: members) none :: below))
  | e, .object _ none :: _ => .error (.unexpected e.token .keyRequired)
  | .beginArray _ _, stack =>
      if maxDepth ≤ stack.length then .error (.tooDeep maxDepth)
      else .ok (.more (.array [] :: stack))
  | .beginObject _, stack =>
      if maxDepth ≤ stack.length then .error (.tooDeep maxDepth)
      else .ok (.more (.object [] none :: stack))
  | e, _ => .error (.unexpected e.token .containerRequired)

/-- Puts a trace together on top of open documents. -/
def gather (stack : List Open) : Trace → Except Fault Json
  | .failed f => .error f
  | .finished => .error (.unexpected .done (expected stack))
  | .next e rest =>
      match take stack e with
      | .error f => .error f
      | .ok (.result doc) => .ok doc
      | .ok (.more stack) => gather stack rest

/-- The document that a trace tells. -/
def ofTrace : Trace → Except Fault Json
  | .next (.beginArray _ true) rest =>
      match rest with
      | .next (.elem v) _ => ofScalar v
      | .next e _ => .error (.unexpected e.token .scalarRequired)
      | .failed f => .error f
      | .finished => .error (.unexpected .done .scalarRequired)
  | t => gather [] t

end Json

/-- The document of a container. -/
def Container.json (c : Container) : Except Fault Json := Json.ofTrace c.trace

end PackedTree
