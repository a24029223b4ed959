import StyleRules.Command.Files
import StyleRules.Command.Options
import StyleRules.Expansion.Style
import StyleRules.Report.Declarations
import StyleRules.Report.Tokens

/-!
# File commands

A command first reads and decides all that it will write, its plan, and then writes it in order. So
nothing it writes can change what it reads, and a command that fails before it writes changes no
file.
-/

namespace StyleRules

structure Output where
  path : Option String
  contents : Bytes
  deriving DecidableEq, Repr

inductive Command where
  /-- Lists the declarations of a file. -/
  | scan (path : String)
  /-- Lists the tokens of a file. -/
  | tokens (path : String)
  /-- Expands a file with the bundled rules. -/
  | expand (path : String)
  /-- Writes the bundled rule table. -/
  | buildRules
  deriving DecidableEq, Repr

namespace Command

structure BuiltRules where
  path : String
  asset : Bytes
  deriving DecidableEq, Repr

def bundledRules : Except CommandError RuleSet := RuleSet.bundled.mapError .build

def builtRules (options : Options) : Except CommandError BuiltRules :=
  match options.output with
  | none => .error (.usage "build-rules needs an output file (-o <path>)")
  | some path => do
    let rules ← bundledRules
    .ok ⟨path, rules.asset⟩

variable {m : Type → Type} [Monad m]

def decided {α : Type} (result : Except CommandError α) : ExceptT CommandError m α :=
  ExceptT.mk (pure result)

variable (files : FileAccess m)

def readBytes (path : String) : ExceptT CommandError m Bytes := do
  match ← files.read path with
  | .ok contents => return contents
  | .error failure => throw (CommandError.ofReadFailure path failure)

/-- The text of a file, which must be UTF-8. -/
def readText (path : String) : ExceptT CommandError m String := do
  match ofUtf8? (← readBytes files path) with
  | some text => return text
  | none => throw (CommandError.invalidUtf8 path)

/-- The rule table that the options ask for. A table that is read from a file must be valid. -/
def readTable (options : Options) : ExceptT CommandError m Table := do
  match options.rules with
  | none => return (← decided bundledRules).table
  | some path =>
    match Table.read (← readBytes files path) with
    | .ok table => return table
    | .error error => throw (CommandError.table path error)

def plan (options : Options) : Command → ExceptT CommandError m (List Output)
  | .scan path => do
    let source := CodeUnits.ofString (← readText files path)
    let table ← readTable files options
    return [⟨options.output,
      utf8Bytes (Report.declarations options.effectiveFormat table source)⟩]
  | .tokens path => do
    let source := CodeUnits.ofString (← readText files path)
    let format := options.effectiveFormat
    let header := if format = .text then Report.tokenCount path source else ""
    return [⟨options.output, utf8Bytes (header ++ Report.tokens format source)⟩]
  | .expand path => do
    if options.rules.isSome then
      throw (CommandError.usage
        "rewrite uses the bundled rules; --rules is only supported by scan")
    let source ← readText files path
    let rules ← decided bundledRules
    let expanded := ExpandedStyle.ofString rules source
    let children := options.children.toList.map fun path =>
      (⟨some path, utf8Bytes expanded.children⟩ : Output)
    return children ++ [⟨options.output, utf8Bytes expanded.style⟩]
  | .buildRules => do
    let built ← decided (builtRules options)
    return [⟨some built.path, built.asset⟩]

/-- How a command ended: what it wrote to standard output, and why it failed, if it did. -/
structure Result where
  stdout : Bytes
  error : Option CommandError
  deriving DecidableEq, Repr

/-- Writes outputs in order, up to the first that fails. -/
def perform : List Output → m Result
  | [] => return ⟨[], none⟩
  | output :: rest => do
    match output.path with
    | none =>
      let result ← perform rest
      return { result with stdout := output.contents ++ result.stdout }
    | some path =>
      match ← files.write path output.contents with
      | .error failure => return ⟨[], some (.write path failure)⟩
      | .ok () => perform rest

def run (options : Options) (command : Command) : m Result := do
  match ← (plan files options command).run with
  | .error error => return ⟨[], some error⟩
  | .ok outputs => perform files outputs

end Command

end StyleRules
