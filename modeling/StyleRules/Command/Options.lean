import StyleRules.Report.Format

/-!
# Options

Each argument is one setting; settings take effect in order, so the last one for an option counts.
Arguments that set nothing are warned about and have no effect.
-/

namespace StyleRules

structure Options where
  /-- A rule table to use instead of the bundled rules. -/
  rules : Option String
  /-- The format of the report, text if none is given. -/
  format : Option Format
  /-- Where the report goes, standard output if no path is given. -/
  output : Option String
  /-- Where the declarations for children go, nowhere if no path is given. -/
  children : Option String
  deriving DecidableEq, Repr

inductive Setting where
  | rules (path : String)
  | format (format : Format)
  | output (path : String)
  | children (path : String)
  | unknownFormat (name : String)
  | unknownOption (argument : String)
  deriving DecidableEq, Repr

/-- What stands behind `flag` in an argument that begins with it. -/
def behindFlag? (flag argument : String) : Option String :=
  if flag.toList.isPrefixOf argument.toList then
    some (String.ofList (argument.toList.drop flag.length))
  else none

namespace Setting

def ofFormatName (name : String) : Setting :=
  match Format.ofName? name with
  | some known => .format known
  | none => .unknownFormat name

def ofArgument (argument : String) : Setting :=
  match behindFlag? "--rules=" argument with
  | some path => .rules path
  | none =>
    match behindFlag? "--format=" argument with
    | some name => ofFormatName name
    | none =>
      match behindFlag? "-o=" argument with
      | some path => .output path
      | none =>
        match behindFlag? "--output=" argument with
        | some path => .output path
        | none =>
          match behindFlag? "--children=" argument with
          | some path => .children path
          | none => .unknownOption argument

def warning : Setting → String
  | unknownFormat name => "warning: unknown format '" ++ name ++ "', using text\n"
  | unknownOption argument => "warning: unknown option '" ++ argument ++ "'\n"
  | _ => ""

end Setting

namespace Options

def none : Options := ⟨.none, .none, .none, .none⟩

def set (options : Options) : Setting → Options
  | .rules path => { options with rules := some path }
  | .format format => { options with format := some format }
  | .output path => { options with output := some path }
  | .children path => { options with children := some path }
  | .unknownFormat _ => options
  | .unknownOption _ => options

def parse (arguments : List String) : Options :=
  (arguments.map Setting.ofArgument).foldl set none

def warnings (arguments : List String) : String :=
  String.join (arguments.map fun argument => (Setting.ofArgument argument).warning)

/-- Both sets of options together; where both set one, `later` counts. -/
def merge (earlier later : Options) : Options :=
  ⟨later.rules.or earlier.rules, later.format.or earlier.format, later.output.or earlier.output,
    later.children.or earlier.children⟩

def effectiveFormat (options : Options) : Format := options.format.getD .text

end Options

end StyleRules
