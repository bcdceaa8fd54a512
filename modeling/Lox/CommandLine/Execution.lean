import Lox.CommandLine.Command
import Lox.Session
import Lox.Text.Utf8
import Lox.Tree.Document
import Lox.Tree.Form

/-!
# Executing commands

A command turns the bytes of its file, or of the standard input, into what is
written to the two outputs and an exit code. Diagnostics go to the second
output, one after another; a failure of the host ends a command with code one.
-/

set_option autoImplicit false

namespace Lox.CommandLine

abbrev Bytes := List UInt8

structure Transcript where
  exit : Nat := 0
  stdout : String := ""
  stderr : String := ""
deriving DecidableEq, Repr

/-- Why the bytes of a file cannot be had. -/
inductive FileFault where
  | missing
  | notDirectory
  | nameTooLong
  | denied
  /-- A directory can be opened but has no bytes. -/
  | directory
deriving DecidableEq, Repr

def FileFault.message : FileFault → String
  | missing => "No such file or directory (os error 2)"
  | notDirectory => "Not a directory (os error 20)"
  | nameTooLong => "File name too long (os error 36)"
  | denied => "Permission denied (os error 13)"
  | directory => "No such device (os error 19)"

/-- What the host can fail to do, with its reason. -/
inductive HostFault where
  | noBytes (file : String) (fault : FileFault)
  | notUtf8 (file : String) (fault : Text.Utf8Fault)
  | cannotReadInput
deriving DecidableEq, Repr

namespace HostFault

def what : HostFault → String
  | noBytes file .directory => "Failed to map file " ++ Text.quoted file
  | noBytes file _ => "Failed to open file " ++ Text.quoted file
  | notUtf8 file _ => "File " ++ Text.quoted file ++ " is not valid UTF-8"
  | cannotReadInput => "Failed to read from stdin"

def why : HostFault → String
  | noBytes _ fault => fault.message
  | notUtf8 _ fault => fault.message
  | cannotReadInput => "stream did not contain valid UTF-8"

def text (f : HostFault) : String := "Error: " ++ f.what ++ "\n\nCaused by:\n    " ++ f.why ++ "\n"

end HostFault

/-- The bytes to which a file name leads. -/
abbrev Files := String → Except FileFault Bytes

def line (s : String) : String := s ++ "\n"

def lines (ss : List String) : String := String.join (ss.map line)

def diagnosticLines (ds : List Diagnostic) : String := lines (ds.map Diagnostic.text)

namespace Transcript

def print (t : Transcript) (s : String) : Transcript := { t with stdout := t.stdout ++ s }

def complain (t : Transcript) (s : String) : Transcript := { t with stderr := t.stderr ++ s }

def hostFailure (t : Transcript) (f : HostFault) : Transcript :=
  { t.complain f.text with exit := 1 }

def rejected (ds : List Diagnostic) : Transcript :=
  { exit := Status.staticError.exitCode, stderr := diagnosticLines ds }

end Transcript

def tokenText (json : Bool) (t : Token) : String := if json then t.document.compact else t.text

def tokenize (json : Bool) (source : String) : Transcript :=
  let ss := scan source
  let faults := Scanned.faults ss
  { exit := (if faults.isEmpty then Status.ok else Status.staticError).exitCode,
    stdout := lines ((Scanned.tokens ss).map (tokenText json)), stderr := diagnosticLines faults }

def treeText (json : Bool) (e : Expr) : String := if json then e.document.pretty else e.listed

def parse (json : Bool) (source : String) : Transcript :=
  let front := Front.expression 0 source
  match front.tree? with
  | some e => { stdout := line (treeText json e) }
  | none => .rejected front.faults

/-- A value or a fault that stopped the computation, behind what was printed. -/
def evaluate (bound now : Nat) (source : String) : Option Transcript :=
  let front := Front.expression 0 source
  match front.tree? with
  | none => some (.rejected front.faults)
  | some e => do
    let (result, s) ← (Session.start now).evaluate bound e
    let printed := lines s.takeLines.1
    match result with
    | .ok v => return { stdout := printed ++ line v.text }
    | .error d =>
      return { exit := Status.runtimeError.exitCode, stdout := printed, stderr := line d.text }

def run (bound now : Nat) (source : String) : Option Transcript := do
  let (report, s) ← (Session.start now).run bound source
  return { exit := report.status.exitCode, stdout := lines s.takeLines.1,
           stderr := diagnosticLines report.diagnostics }

def prompt : String := "> "

/-- Run one line of the dialogue and write what comes of it. -/
def respond (bound : Nat) (s : Session) (t : Transcript) (source : String) :
    Option (Session × Transcript) := do
  let (report, s) ← s.run bound source
  let (printed, s) := s.takeLines
  return (s, (t.print (lines printed)).complain (diagnosticLines report.diagnostics))

/-- A dialogue over the lines of the input, each with its line break. -/
def dialogue (bound : Nat) (s : Session) (t : Transcript) : List Bytes → Option Transcript
  | [] => some (t.print (line prompt))
  | bs :: rest =>
    let t := t.print prompt
    match Text.ofUtf8 bs with
    | .error _ => some (t.hostFailure .cannotReadInput)
    | .ok source => do
      let (s, t) ← respond bound s t source
      dialogue bound s t rest

/-- The lines of some bytes, each with its line break if it has one. -/
def splitLines (bs : Bytes) : List Bytes :=
  bs.foldr (fun b ls =>
    match ls with
    | [] => [[b]]
    | l :: ls => if b == 10 then [b] :: l :: ls else (b :: l) :: ls) []

def repl (bound now : Nat) (input : Bytes) : Option Transcript :=
  dialogue bound (.start now) {} (splitLines input)

/-- Read a file as text and go on with it. -/
def withFile (files : Files) (file : String) (go : String → Option Transcript) :
    Option Transcript :=
  match files file with
  | .error f => some (Transcript.hostFailure {} (.noBytes file f))
  | .ok bs =>
    match Text.ofUtf8 bs with
    | .error f => some (Transcript.hostFailure {} (.notUtf8 file f))
    | .ok source => go source

/-- Execute a command, given the files and the standard input. -/
def execute (bound now : Nat) (files : Files) (input : Bytes) : Command → Option Transcript
  | .tokenize file json => withFile files file fun source => some (tokenize json source)
  | .parse file json => withFile files file fun source => some (parse json source)
  | .evaluate file => withFile files file (evaluate bound now)
  | .run file => withFile files file (run bound now)
  | .repl => repl bound now input

end Lox.CommandLine
