import PackedTree.Tool.CommandLine

/-! # The command line program

The first argument names the tool, `pack`, `unpack` or `compare`; the others are its own. -/

open PackedTree PackedTree.Tool

/-- Reads a stream to its end. -/
partial def readAll (stream : IO.FS.Stream) (acc : ByteArray) : IO ByteArray := do
  let chunk ← stream.read 65536
  if chunk.isEmpty then return acc else readAll stream (acc ++ chunk)

def fileContent (name : String) : IO (Option Bytes) := do
  try
    return some (← IO.FS.readBinFile name).data.toList
  catch _ => return none

def toolOfName : String → Option Command
  | "pack" => some .pack
  | "unpack" => some .unpack
  | "compare" => some .compare
  | _ => none

/-- Runs a tool on the files and streams of the process. -/
def runTool (tool : Command) (args : List String) : IO UInt32 := do
  let input ←
    match Call.ofArgs tool args with
    | some (.pack _ _) | some (.unpack _ _) => readAll (← IO.getStdin) .empty
    | _ => pure .empty
  let files ←
    match Call.ofArgs tool args with
    | some (.compare _ left right) =>
        pure [(left, ← fileContent left), (right, ← fileContent right)]
    | _ => pure []
  let outcome := tool.run args input.data.toList fun name => (files.lookup name).join
  (← IO.getStdout).write ⟨outcome.output.toArray⟩
  match outcome.message with
  | some message => IO.eprintln s!"Error: {message}"
  | none => if outcome.status = 2 then IO.eprintln "error: wrong arguments"
  return UInt32.ofNat outcome.status

def main (args : List String) : IO UInt32 :=
  match args with
  | name :: rest =>
      match toolOfName name with
      | some tool => runTool tool rest
      | none => do
          IO.eprintln s!"error: unknown tool {name}"
          return 2
  | [] => do
      IO.eprintln "error: no tool given"
      return 2
