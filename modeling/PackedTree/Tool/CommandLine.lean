import PackedTree.Tool.Conversion

/-! # Command lines

A tool is called with flags and file names in any order; `--` ends the flags.  Every flag is
spelled out in full and given at most once, and the number of file names is fixed for each
tool.  Anything else is a wrong call and ends with status 2.  A failure ends with status 1 and
a message. -/

namespace PackedTree.Tool

/-- The three tools. -/
inductive Command where
  /-- Packs the document on the standard input. -/
  | pack
  /-- Writes the document of the container on the standard input. -/
  | unpack
  /-- Compares the containers in two files. -/
  | compare
deriving DecidableEq, Repr

/-- The flags of the tools. -/
inductive Flag where
  | hex
  | verbose
  | uniqueKeys
  | skipNulls
  | pretty
deriving DecidableEq, Repr

/-- The ways to write a flag. -/
def Flag.spellings : Flag → List String
  | .hex => ["--hex"]
  | .verbose => ["--verbose", "-v"]
  | .uniqueKeys => ["--unique-keys"]
  | .skipNulls => ["--skip-nulls"]
  | .pretty => ["--pretty"]

/-- The flags that a tool knows. -/
def Command.flags : Command → List Flag
  | .pack => [.hex, .verbose, .uniqueKeys, .skipNulls]
  | .unpack => [.hex, .verbose, .pretty]
  | .compare => [.hex, .verbose]

/-- Whether an argument can only be a flag. -/
def isFlag (arg : String) : Bool := arg.startsWith "-" && arg != "-"

/-- The flags and file names of a call. -/
def split (tool : Command) : List String → Option (List Flag × List String)
  | [] => some ([], [])
  | arg :: args =>
      if arg = "--" then some ([], args)
      else do
        let (flags, files) ← split tool args
        if isFlag arg then
          let flag ← tool.flags.find? fun f => f.spellings.contains arg
          if flag ∈ flags then none else some (flag :: flags, files)
        else some (flags, arg :: files)

/-- A well-formed call. -/
inductive Call where
  | pack (hex : Bool) (options : Options)
  | unpack (hex pretty : Bool)
  | compare (hex : Bool) (left right : String)
deriving DecidableEq, Repr

/-- The call that arguments make up. -/
def Call.ofArgs (tool : Command) (args : List String) : Option Call := do
  let (flags, files) ← split tool args
  let has (f : Flag) : Bool := flags.contains f
  match tool, files with
  | .pack, [] =>
      some (.pack (has .hex) { uniqueKeys := has .uniqueKeys, skipNulls := has .skipNulls })
  | .unpack, [] => some (.unpack (has .hex) (has .pretty))
  | .compare, [left, right] =>
      if left.isEmpty || right.isEmpty then none else some (.compare (has .hex) left right)
  | _, _ => none

/-- An order as the tools print it. -/
def orderText : Ordering → String
  | .lt => "-1"
  | .eq => "0"
  | .gt => "1"

/-- The bytes of a container in a file. -/
def readFile (file : String → Option Bytes) (hex : Bool) (name : String) :
    Except Failure Bytes :=
  match file name with
  | none => .error (.unreadable name)
  | some raw => decodeInput hex raw

/-- What a call writes to the standard output, given the standard input and the files. -/
def Call.run (input : Bytes) (file : String → Option Bytes) : Call → Except Failure Bytes
  | .pack hex options => do
      match Bytes.toText? input with
      | none => .error .notUtf8
      | some text => .ok (encodeOutput hex (← Tool.pack options text))
  | .unpack hex pretty => do
      let text ← Tool.unpack pretty (← decodeInput hex input)
      .ok (Bytes.ofText (text ++ "\n"))
  | .compare hex left right => do
      let a ← readFile file hex left
      let b ← readFile file hex right
      let o ← Tool.compare a b
      .ok (Bytes.ofText (orderText o ++ "\n"))

/-- What the caller of a tool sees. -/
structure Outcome where
  status : Nat
  output : Bytes
  message : Option String
deriving DecidableEq, Repr

/-- The outcome of a call that may be wrong or fail. -/
def Command.run (tool : Command) (args : List String) (input : Bytes)
    (file : String → Option Bytes) : Outcome :=
  match Call.ofArgs tool args with
  | none => ⟨2, [], none⟩
  | some call =>
      match call.run input file with
      | .ok output => ⟨0, output, none⟩
      | .error failure => ⟨1, [], some failure.message⟩

end PackedTree.Tool
