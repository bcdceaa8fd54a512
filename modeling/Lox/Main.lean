import Lox.CommandLine.Execution

/-!
# The command line program

Reads the files and the input that a command needs and writes what it answers.
In a dialogue each line is answered before the next one is read.
-/

set_option autoImplicit false

namespace Lox.CommandLine

/-- Far beyond the depth that the stack has room for. -/
def depthBound : Nat := Nat.pow 2 62

/-- The exit code for arguments that make no sense. -/
def usageFault : UInt32 := 2

def write (t : Transcript) : IO Unit := do
  (← IO.getStdout).putStr t.stdout
  (← IO.getStdout).flush
  (← IO.getStderr).putStr t.stderr

def fileOf? : Command → Option String
  | .tokenize file _ | .parse file _ | .evaluate file | .run file => some file
  | .repl => none

/-- A fault in opening names the file, and one in reading does not. -/
def faultOf : IO.Error → FileFault
  | .permissionDenied .. => .denied
  | .inappropriateType (some _) .. => .notDirectory
  | .inappropriateType none .. => .directory
  | .invalidArgument .. => .nameTooLong
  | _ => .missing

def bytesOf (file : String) : IO (Except FileFault Bytes) := do
  try
    return .ok (← IO.FS.readBinFile file).toList
  catch e =>
    return .error (faultOf e)

/-- The bytes of the input up to and including the next line break. -/
partial def readLine (input : IO.FS.Stream) (bytes : ByteArray) : IO ByteArray := do
  let next ← input.read 1
  if next.isEmpty then return bytes
  else if next[0]? == some 10 then return bytes ++ next
  else readLine input (bytes ++ next)

partial def converse (input : IO.FS.Stream) (s : Session) : IO UInt32 := do
  write (Transcript.print {} prompt)
  let bytes ← readLine input ByteArray.empty
  if bytes.isEmpty then
    write (Transcript.print {} (line ""))
    return 0
  match Text.ofUtf8 bytes.toList with
  | .error _ =>
    let t := Transcript.hostFailure {} .cannotReadInput
    write t
    return t.exit.toUInt32
  | .ok source =>
    match respond depthBound s {} source with
    | none => return 1
    | some (s, t) =>
      write t
      converse input s

/-- Execute the command of the arguments and yield the exit code. -/
def perform (args : List String) : IO UInt32 := do
  let now := (← IO.monoMsNow) * 1000 + 1
  match Command.ofArguments? args with
  | none =>
    IO.eprintln "usage: [tokenize|parse [--json]|evaluate|run FILE|repl] [--log]"
    return usageFault
  | some command =>
    match fileOf? command with
    | none => converse (← IO.getStdin) (.start now)
    | some file =>
      let bytes ← bytesOf file
      match execute depthBound now (fun _ => bytes) [] command with
      | none => return 1
      | some t =>
        write t
        return t.exit.toUInt32

end Lox.CommandLine

def main (args : List String) : IO UInt32 := Lox.CommandLine.perform args
