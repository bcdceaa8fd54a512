/-!
# Commands

The command line names a command, a file for all commands but `repl`, and
options. Without a command it is `repl`. The option for a log can stand on
both sides of the command's name, once on each.
-/

set_option autoImplicit false

namespace Lox.CommandLine

inductive Command where
  | tokenize (file : String) (json : Bool)
  | parse (file : String) (json : Bool)
  | evaluate (file : String)
  | run (file : String)
  | repl
deriving DecidableEq, Repr

/-- Operands and options of a command. -/
structure Words where
  operands : List String := []
  options : List String := []

/-- The mark behind which all words are operands. -/
def endOfOptions : String := "--"

def isOption (word : String) : Bool := word.startsWith "-" && word != "-"

def Words.ofList : List String → Words
  | [] => {}
  | w :: ws =>
    if w = endOfOptions then { operands := ws }
    else
      let others := ofList ws
      if isOption w then { others with options := w :: others.options }
      else { others with operands := w :: others.operands }

def logOption : String := "--log"

def jsonOption : String := "--json"

namespace Command

/-- The command of this name with the operands and options behind it. The name
of a file is not empty, and no option is given twice. -/
def ofWords? (name : String) (words : Words) : Option Command :=
  match name, words.operands, words.options.erase logOption with
  | _, "" :: _, _ => none
  | "tokenize", [file], [] => some (.tokenize file false)
  | "tokenize", [file], [o] => if o = jsonOption then some (.tokenize file true) else none
  | "parse", [file], [] => some (.parse file false)
  | "parse", [file], [o] => if o = jsonOption then some (.parse file true) else none
  | "evaluate", [file], [] => some (.evaluate file)
  | "run", [file], [] => some (.run file)
  | "repl", [], [] => some .repl
  | _, _, _ => none

/-- The command of the words behind an option that is left out. -/
def ofCommandWords? : List String → Option Command
  | [] => some .repl
  | name :: ws =>
    if name = endOfOptions && ws.isEmpty then some .repl else ofWords? name (Words.ofList ws)

/-- The command of the arguments, if they make sense. -/
def ofArguments? : List String → Option Command
  | [] => some .repl
  | w :: ws => ofCommandWords? (if w = logOption then ws else w :: ws)

end Command

end Lox.CommandLine
