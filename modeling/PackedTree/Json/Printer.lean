import PackedTree.Json.Basic

/-! # Writing documents

Two layouts: compact, without any blank, and indented by two spaces a level.  In strings the
quotation mark, the backslash and the characters below U+0020 are escaped, all others stand
for themselves. -/

namespace PackedTree.Json

/-- A character inside a string. -/
def escape (c : Char) : List Char :=
  if c = '"' then ['\\', '"']
  else if c = '\\' then ['\\', '\\']
  else if c = '\x08' then ['\\', 'b']
  else if c = '\x0c' then ['\\', 'f']
  else if c = '\n' then ['\\', 'n']
  else if c = '\r' then ['\\', 'r']
  else if c = '\t' then ['\\', 't']
  else if c.toNat < 0x20 then
    ['\\', 'u', '0', '0', Nat.digitChar (c.toNat / 16), Nat.digitChar (c.toNat % 16)]
  else [c]

/-- A string with its quotation marks. -/
def stringChars (s : String) : List Char := '"' :: (s.toList.flatMap escape ++ ['"'])

/-! ### Compact -/

mutual

/-- The compact text of a document. -/
def chars : Json → List Char
  | .null => ['n', 'u', 'l', 'l']
  | .bool true => ['t', 'r', 'u', 'e']
  | .bool false => ['f', 'a', 'l', 's', 'e']
  | .number n => n.chars
  | .string s => stringChars s
  | .array items => '[' :: (itemChars items ++ [']'])
  | .object members => '\x7b' :: (memberChars members ++ ['\x7d'])

/-- Documents separated by commas. -/
def itemChars : List Json → List Char
  | [] => []
  | [v] => v.chars
  | v :: w :: vs => v.chars ++ ',' :: itemChars (w :: vs)

/-- Members separated by commas. -/
def memberChars : List (String × Json) → List Char
  | [] => []
  | [(k, v)] => stringChars k ++ ':' :: v.chars
  | (k, v) :: m :: ms => stringChars k ++ ':' :: (v.chars ++ ',' :: memberChars (m :: ms))

end

def text (doc : Json) : String := String.ofList doc.chars

/-! ### Indented -/

/-- A new line at a level. -/
def newLine (level : Nat) : List Char := '\n' :: List.replicate (2 * level) ' '

mutual

/-- The indented text of a document at a level. -/
def prettyChars : Json → Nat → List Char
  | .array [], _ => ['[', ']']
  | .array items, level =>
      '[' :: (prettyItems items (level + 1) ++ (newLine level ++ [']']))
  | .object [], _ => ['\x7b', '\x7d']
  | .object members, level =>
      '\x7b' :: (prettyMembers members (level + 1) ++ (newLine level ++ ['\x7d']))
  | v, _ => v.chars

/-- Documents on lines of their own. -/
def prettyItems : List Json → Nat → List Char
  | [], _ => []
  | [v], level => newLine level ++ v.prettyChars level
  | v :: w :: vs, level =>
      newLine level ++ (v.prettyChars level ++ ',' :: prettyItems (w :: vs) level)

/-- Members on lines of their own. -/
def prettyMembers : List (String × Json) → Nat → List Char
  | [], _ => []
  | [(k, v)], level => newLine level ++ (stringChars k ++ ':' :: ' ' :: v.prettyChars level)
  | (k, v) :: m :: ms, level =>
      newLine level ++ (stringChars k ++ ':' :: ' ' ::
        (v.prettyChars level ++ ',' :: prettyMembers (m :: ms) level))

end

/-- The indented text of a document. -/
def prettyText (doc : Json) : String := String.ofList (doc.prettyChars 0)

end PackedTree.Json
