import StyleRules.Command.Arguments
import StyleRules.Command.Plan
import StyleRules.Command.Usage

/-!
# The command line

The first argument names a command. What a run prints and how it ends is one value, so the program
itself only hands over its arguments and prints.
-/

namespace StyleRules

structure Transcript where
  exitCode : UInt32
  stdout : Bytes
  stderr : String
  deriving DecidableEq, Repr

namespace CommandLine

inductive Request where
  | help
  | version
  | unknown (name : String)
  /-- A command without the file that it needs, and its help text. -/
  | missingFile (warnings usage : String)
  | run (warnings : String) (options : Options) (command : Command)
  deriving DecidableEq, Repr

def fileRequest (usage : String) (command : String → Command) (arguments : List String) : Request :=
  let collected := Arguments.collect arguments
  match collected.file with
  | none => .missingFile collected.warnings usage
  | some path => .run collected.warnings collected.options (command path)

def request : List String → Request
  | [] => .help
  | name :: arguments =>
    if name = "scan" then fileRequest Usage.scan .scan arguments
    else if name = "tokens" then fileRequest Usage.tokens .tokens arguments
    else if name = "rewrite" then fileRequest Usage.expand .expand arguments
    else if name = "build-rules" then
      let collected := Arguments.collect arguments
      .run collected.warnings collected.options .buildRules
    else if name = "help" ∨ name = "--help" ∨ name = "-h" then .help
    else if name = "version" ∨ name = "--version" ∨ name = "-V" then .version
    else .unknown name

def success (options : Options) (command : Command) : String :=
  match command, Command.builtRules options with
  | .buildRules, .ok built =>
    "wrote " ++ toString built.asset.length ++ " bytes to '" ++ built.path ++ "'\n"
  | _, _ => ""

variable {m : Type → Type} [Monad m] (files : FileAccess m)

def answer : Request → m Transcript
  | .help => return ⟨0, utf8Bytes Usage.general, ""⟩
  | .version => return ⟨0, utf8Bytes Usage.version, ""⟩
  | .unknown name =>
    return ⟨1, utf8Bytes Usage.general, "Unknown command: " ++ name ++ "\n\n"⟩
  | .missingFile warnings usage => return ⟨1, [], warnings ++ usage⟩
  | .run warnings options command => do
    let result ← Command.run files options command
    match result.error with
    | some error =>
      return ⟨1, result.stdout, warnings ++ "error: " ++ error.message ++ "\n"⟩
    | none =>
      return ⟨0, result.stdout ++ utf8Bytes (success options command), warnings⟩

def run (arguments : List String) : m Transcript := answer files (request arguments)

end CommandLine

end StyleRules
