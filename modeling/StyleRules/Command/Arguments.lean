import StyleRules.Command.Options

/-!
# Arguments of a command

The first argument that is no option names the file. The flag `-o` takes the argument behind it as
the output; all other arguments are settings.
-/

namespace StyleRules

structure Arguments where
  file : Option String
  options : Options
  /-- The warnings about arguments without effect. -/
  warnings : String
  deriving DecidableEq, Repr

namespace Arguments

def none : Arguments := ⟨.none, .none, ""⟩

def isOption (argument : String) : Bool := argument.toList.head? == some '-'

/-- Takes an argument as the file, if it can be that, and as a setting if not. -/
def take (arguments : Arguments) (argument : String) : Arguments :=
  if !isOption argument && arguments.file.isNone then { arguments with file := some argument }
  else
    { arguments with
      options := arguments.options.merge (Options.parse [argument])
      warnings := arguments.warnings ++ Options.warnings [argument] }

def takeOutput (arguments : Arguments) (path : String) : Arguments :=
  { arguments with options := arguments.options.set (.output path) }

def collectFrom (taken : Arguments) : List String → Arguments
  | [] => taken
  | [argument] => taken.take argument
  | argument :: next :: rest =>
    if argument = "-o" then collectFrom (taken.takeOutput next) rest
    else collectFrom (taken.take argument) (next :: rest)

/-- The file and the options among the arguments of a command. -/
def collect (arguments : List String) : Arguments := collectFrom none arguments

end Arguments

end StyleRules
