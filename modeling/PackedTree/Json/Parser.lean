import PackedTree.Json.Basic
import PackedTree.Bytes.Hex

/-! # Reading documents

The reader accepts JSON texts with no more than `maxNesting` containers around a value.  In
strings every escape is resolved and surrogates must come in pairs.  An object whose first
member is named `reservedName` is a number in disguise: it must have no other member, and its
value must be a string that spells a numeral.

`Json.read` bounds the recursion by the number of characters, of which every step of the
recursion uses up one. -/

namespace PackedTree.Json

/-- The most containers around a value. -/
def maxNesting : Nat := 127

/-- The name that marks a number in disguise. -/
def reservedName : String := "$serde_json::private::Number"

/-- The rest of a text behind blanks. -/
def skipBlank (cs : List Char) : List Char :=
  cs.dropWhile fun c => c == ' ' || c == '\t' || c == '\n' || c == '\r'

/-! ### Strings -/

/-- Where a reader stands inside a string. -/
inductive StringState where
  | plain
  /-- Behind a backslash. -/
  | escape
  /-- Inside a code of four digits, of which `count` are missing; `high` is the first half of
  a surrogate pair. -/
  | code (count value : Nat) (high : Option Nat)
  /-- Behind the first half of a surrogate pair. -/
  | half (high : Nat)
  /-- Behind it and a backslash. -/
  | halfEscape (high : Nat)
deriving DecidableEq, Repr

/-- The character that a finished code stands for, or the state that waits for the second half
of a pair. -/
def finishCode (value : Nat) : Option Nat → Option (StringState × Option Char)
  | none =>
      if 0xD800 ≤ value ∧ value < 0xDC00 then some (.half value, none)
      else if 0xDC00 ≤ value ∧ value < 0xE000 then none
      else some (.plain, some (Char.ofNat value))
  | some high =>
      if 0xDC00 ≤ value ∧ value < 0xE000 then
        some (.plain, some (Char.ofNat (0x10000 + (high - 0xD800) * 0x400 + (value - 0xDC00))))
      else none

/-- The character that a one-letter escape stands for. -/
def escaped? (c : Char) : Option Char :=
  if c = '"' ∨ c = '\\' ∨ c = '/' then some c
  else if c = 'b' then some '\x08'
  else if c = 'f' then some '\x0c'
  else if c = 'n' then some '\n'
  else if c = 'r' then some '\r'
  else if c = 't' then some '\t'
  else none

/-- Takes one character of a string other than the closing mark: the state behind it, and the
character of the value that it completes. -/
def stringStep (state : StringState) (c : Char) : Option (StringState × Option Char) :=
  match state with
  | .plain =>
      if c = '\\' then some (.escape, none)
      else if c.toNat < 0x20 then none
      else some (.plain, some c)
  | .escape =>
      if c = 'u' then some (.code 4 0 none, none)
      else (escaped? c).map fun d => (.plain, some d)
  | .code count value high =>
      match Hex.digit? c with
      | none => none
      | some d =>
          if count ≤ 1 then finishCode (16 * value + d) high
          else some (.code (count - 1) (16 * value + d) high, none)
  | .half high => if c = '\\' then some (.halfEscape high, none) else none
  | .halfEscape high => if c = 'u' then some (.code 4 0 (some high), none) else none

/-- Reads on to the closing mark of a string; `acc` holds the characters so far, last one
first. -/
def readChars (acc : List Char) (state : StringState) : List Char → Option (String × List Char)
  | [] => none
  | c :: cs =>
      if state = .plain ∧ c = '"' then some (String.ofList acc.reverse, cs)
      else
        match stringStep state c with
        | none => none
        | some (state, none) => readChars acc state cs
        | some (state, some d) => readChars (d :: acc) state cs

/-- Reads a string behind its opening mark. -/
def readString (cs : List Char) : Option (String × List Char) := readChars [] .plain cs

/-! ### Documents -/

/-- The document that the members of an object make up, in the order of the text. -/
def finishMembers : List (String × Json) → Option Json
  | [] => some (ofMembers [])
  | (k, v) :: ms =>
      if k = reservedName then
        match v, ms with
        | .string s, [] => (Numeral.ofChars? s.toList).map .number
        | _, _ => none
      else some (ofMembers ((k, v) :: ms))

mutual

/-- Reads one document with at most `room` containers around a value. -/
def readValue : Nat → Nat → List Char → Option (Json × List Char)
  | 0, _, _ => none
  | fuel + 1, room, cs =>
      match skipBlank cs with
      | 'n' :: 'u' :: 'l' :: 'l' :: cs => some (.null, cs)
      | 't' :: 'r' :: 'u' :: 'e' :: cs => some (.bool true, cs)
      | 'f' :: 'a' :: 'l' :: 's' :: 'e' :: cs => some (.bool false, cs)
      | '"' :: cs => (readString cs).map fun r => (.string r.1, r.2)
      | '[' :: cs =>
          if room = 0 then none
          else
            match skipBlank cs with
            | ']' :: cs => some (.array [], cs)
            | cs => readItems fuel (room - 1) [] cs
      | '\x7b' :: cs =>
          if room = 0 then none
          else
            match skipBlank cs with
            | '\x7d' :: cs => some (ofMembers [], cs)
            | cs => readMembers fuel (room - 1) [] cs
      | cs => (Numeral.read? cs).map fun r => (.number r.1, r.2)

/-- Reads the items of an array up to its end; `acc` holds those so far, last one first. -/
def readItems : Nat → Nat → List Json → List Char → Option (Json × List Char)
  | 0, _, _, _ => none
  | fuel + 1, room, acc, cs =>
      match readValue fuel room cs with
      | none => none
      | some (v, cs) =>
          match skipBlank cs with
          | ',' :: cs => readItems fuel room (v :: acc) cs
          | ']' :: cs => some (.array (v :: acc).reverse, cs)
          | _ => none

/-- Reads the members of an object up to its end; `acc` holds those so far, last one first. -/
def readMembers : Nat → Nat → List (String × Json) → List Char → Option (Json × List Char)
  | 0, _, _, _ => none
  | fuel + 1, room, acc, cs =>
      match skipBlank cs with
      | '"' :: cs =>
          match readString cs with
          | none => none
          | some (k, cs) =>
              match skipBlank cs with
              | ':' :: cs =>
                  match readValue fuel room cs with
                  | none => none
                  | some (v, cs) =>
                      match skipBlank cs with
                      | ',' :: cs => readMembers fuel room ((k, v) :: acc) cs
                      | '\x7d' :: cs =>
                          (finishMembers ((k, v) :: acc).reverse).map fun doc => (doc, cs)
                      | _ => none
              | _ => none
      | _ => none

end

/-- The document that a text spells. -/
def read (text : String) : Option Json :=
  match readValue (text.toList.length + 1) maxNesting text.toList with
  | some (doc, cs) => if skipBlank cs = [] then some doc else none
  | none => none

end PackedTree.Json
