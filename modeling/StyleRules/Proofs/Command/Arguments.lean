import Mathlib.Data.List.Basic
import StyleRules.Command.Arguments

/-!
# Options compose

What a list of arguments sets can be read off part by part: the options of two lists together are
those of the first merged with those of the second, and of several occurrences of an option the last
valid one counts (`Options.parse_eq_lastOf`). The arguments of a command come in parts, a flag `-o`
together with its operand, and `Arguments.collect` reads them as if each pair were one argument.
-/

namespace StyleRules

/-! ## Flags -/

theorem behindFlag?_eq_some_iff {flag argument path : String} :
    behindFlag? flag argument = some path ↔ argument = flag ++ path := by
  rw [← String.toList_inj, String.toList_append]
  unfold behindFlag?
  split
  · next hbegins =>
    obtain ⟨tail, htail⟩ := List.isPrefixOf_iff_prefix.mp hbegins
    rw [← htail, ← String.length_toList, List.drop_left, Option.some.injEq,
      List.append_cancel_left_eq, ← String.toList_inj, String.toList_ofList]
  · next hother =>
    constructor
    · intro h
      exact absurd h (by simp)
    · intro h
      exact absurd (List.isPrefixOf_iff_prefix.mpr ⟨_, h.symm⟩) hother

/-- An argument begins with one of two flags only, unless one of them begins with the other. -/
theorem behindFlag?_eq_none {flag argument path : String}
    (hflag : behindFlag? flag argument = some path) (other : String)
    (hapart : flag.toList.isPrefixOf other.toList = false ∧
      other.toList.isPrefixOf flag.toList = false) :
    behindFlag? other argument = none := by
  cases hother : behindFlag? other argument with
  | none => rfl
  | some tail =>
    rw [behindFlag?_eq_some_iff] at hflag hother
    have hboth : flag.toList <+: argument.toList ∧ other.toList <+: argument.toList := by
      constructor
      · rw [hflag, String.toList_append]
        exact List.prefix_append _ _
      · rw [hother, String.toList_append]
        exact List.prefix_append _ _
    rcases List.prefix_or_prefix_of_prefix hboth.1 hboth.2 with hbegins | hbegins
    · exact absurd (List.isPrefixOf_iff_prefix.mpr hbegins) (by simp [hapart.1])
    · exact absurd (List.isPrefixOf_iff_prefix.mpr hbegins) (by simp [hapart.2])

/-! ## Settings -/

namespace Options

@[simp] theorem none_merge (options : Options) : none.merge options = options := by
  simp [merge, none]

@[simp] theorem merge_none (options : Options) : options.merge none = options := by
  simp [merge, none]

theorem merge_assoc (first second third : Options) :
    (first.merge second).merge third = first.merge (second.merge third) := by
  simp [merge, Option.or_assoc]

theorem set_eq_merge (options : Options) (setting : Setting) :
    options.set setting = options.merge (none.set setting) := by
  cases setting <;> simp [set, merge, none]

theorem foldl_set (options : Options) (settings : List Setting) :
    settings.foldl set options = options.merge (settings.foldl set none) := by
  induction settings generalizing options with
  | nil => simp
  | cons setting settings ih =>
    rw [List.foldl_cons, List.foldl_cons, ih, ih (none.set setting), set_eq_merge, merge_assoc]

theorem parse_append (earlier later : List String) :
    parse (earlier ++ later) = (parse earlier).merge (parse later) := by
  rw [parse, List.map_append, List.foldl_append, foldl_set]
  rfl

theorem parse_cons (argument : String) (rest : List String) :
    parse (argument :: rest) = (parse [argument]).merge (parse rest) := parse_append [argument] rest

theorem warnings_cons (argument : String) (rest : List String) :
    warnings (argument :: rest) = warnings [argument] ++ warnings rest := by
  simp [warnings]

/-! ## The last valid occurrence -/

def rulesPath? (argument : String) : Option String := behindFlag? "--rules=" argument

def format? (argument : String) : Option Format :=
  (behindFlag? "--format=" argument).bind Format.ofName?

def outputPath? (argument : String) : Option String :=
  (behindFlag? "-o=" argument).or (behindFlag? "--output=" argument)

def childrenPath? (argument : String) : Option String := behindFlag? "--children=" argument

def lastOf (arguments : List String) : Options :=
  ⟨(arguments.filterMap rulesPath?).getLast?, (arguments.filterMap format?).getLast?,
    (arguments.filterMap outputPath?).getLast?, (arguments.filterMap childrenPath?).getLast?⟩

theorem lastOf_append (earlier later : List String) :
    lastOf (earlier ++ later) = (lastOf earlier).merge (lastOf later) := by
  simp only [lastOf, merge, List.filterMap_append, List.getLast?_append]

theorem lastOf_singleton (argument : String) :
    lastOf [argument] =
      ⟨rulesPath? argument, format? argument, outputPath? argument, childrenPath? argument⟩ := by
  have hlast : ∀ {α : Type} (f : String → Option α),
      ([argument].filterMap f).getLast? = f argument := by
    intro α f
    cases h : f argument <;> simp [h]
  simp only [lastOf, hlast]

/-- An argument is valid for one option at most: no flag begins with another. -/
theorem parse_singleton (argument : String) : parse [argument] = lastOf [argument] := by
  rw [lastOf_singleton]
  show none.set (Setting.ofArgument argument) = _
  unfold rulesPath? format? outputPath? childrenPath? Setting.ofArgument
  cases hrules : behindFlag? "--rules=" argument with
  | some path =>
    simp only [behindFlag?_eq_none hrules "--format=" (by decide),
      behindFlag?_eq_none hrules "-o=" (by decide),
      behindFlag?_eq_none hrules "--output=" (by decide),
      behindFlag?_eq_none hrules "--children=" (by decide)]
    rfl
  | none =>
    cases hformat : behindFlag? "--format=" argument with
    | some name =>
      simp only [behindFlag?_eq_none hformat "-o=" (by decide),
        behindFlag?_eq_none hformat "--output=" (by decide),
        behindFlag?_eq_none hformat "--children=" (by decide)]
      show none.set (Setting.ofFormatName name) = ⟨_, Format.ofName? name, _, _⟩
      unfold Setting.ofFormatName
      cases Format.ofName? name <;> rfl
    | none =>
      cases hshort : behindFlag? "-o=" argument with
      | some path =>
        simp only [behindFlag?_eq_none hshort "--children=" (by decide)]
        rfl
      | none =>
        cases hlong : behindFlag? "--output=" argument with
        | some path =>
          simp only [behindFlag?_eq_none hlong "--children=" (by decide)]
          rfl
        | none => cases behindFlag? "--children=" argument <;> rfl

theorem parse_eq_lastOf (arguments : List String) : parse arguments = lastOf arguments := by
  induction arguments with
  | nil => rfl
  | cons argument rest ih =>
    rw [← List.singleton_append, parse_append, lastOf_append, parse_singleton, ih]

end Options

/-! ## The arguments of a command -/

namespace Arguments

/-- An argument on its own, or the flag `-o` with its operand. -/
inductive Part where
  | single (argument : String)
  | output (path : String)
  deriving DecidableEq, Repr

namespace Part

def spelled : Part → String
  | single argument => argument
  | output path => "-o=" ++ path

def isFile : Part → Bool
  | single argument => !isOption argument
  | output _ => false

end Part

/-- The parts of a list of arguments, read from left to right. A flag `-o` that is the last argument
has no operand. -/
def parts : List String → List Part
  | [] => []
  | [argument] => [.single argument]
  | argument :: next :: rest =>
    if argument = "-o" then .output next :: parts rest
    else .single argument :: parts (next :: rest)

def takePart (taken : Arguments) : Part → Arguments
  | .single argument => taken.take argument
  | .output path => taken.takeOutput path

theorem collectFrom_eq_foldl (taken : Arguments) (arguments : List String) :
    collectFrom taken arguments = (parts arguments).foldl takePart taken := by
  fun_induction parts arguments generalizing taken with
  | case1 => rfl
  | case2 argument => rfl
  | case3 next rest ih => rw [collectFrom, if_pos rfl, ih, List.foldl_cons, takePart]
  | case4 argument next rest hflag ih =>
    rw [collectFrom, if_neg hflag, ih, List.foldl_cons, takePart]

def setPart (taken : Arguments) (part : Part) : Arguments :=
  { taken with
    options := taken.options.merge (Options.parse [part.spelled])
    warnings := taken.warnings ++ Options.warnings [part.spelled] }

theorem ofArgument_output (path : String) : Setting.ofArgument ("-o=" ++ path) = .output path := by
  have hflag : behindFlag? "-o=" ("-o=" ++ path) = some path := behindFlag?_eq_some_iff.mpr rfl
  unfold Setting.ofArgument
  simp only [behindFlag?_eq_none hflag "--rules=" (by decide),
    behindFlag?_eq_none hflag "--format=" (by decide), hflag]

theorem setPart_output (taken : Arguments) (path : String) :
    taken.setPart (.output path) = taken.takeOutput path := by
  have hparse : Options.parse ["-o=" ++ path] = Options.none.set (.output path) :=
    congrArg Options.none.set (ofArgument_output path)
  have hwarnings : Options.warnings ["-o=" ++ path] = "" := by
    rw [Options.warnings, List.map_singleton, ofArgument_output]
    rfl
  rw [setPart, Part.spelled, hparse, hwarnings, ← Options.set_eq_merge, String.append_empty,
    takeOutput]

/-- A part is the file if it can be that and none is known yet, and a setting if not. -/
theorem takePart_eq (taken : Arguments) (part : Part) :
    taken.takePart part =
      if part.isFile = true ∧ taken.file = Option.none then
        { taken with file := some part.spelled }
      else taken.setPart part := by
  cases part with
  | single argument =>
    rw [takePart, take, Part.isFile, Part.spelled, setPart, Part.spelled]
    simp only [Bool.and_eq_true, Option.isNone_iff_eq_none]
  | output path => rw [takePart, if_neg (by simp [Part.isFile]), setPart_output]

def settings (known : Bool) (parts : List Part) : List String :=
  (if known then parts else parts.eraseP Part.isFile).map Part.spelled

theorem foldl_takePart (taken : Arguments) (parts : List Part) :
    parts.foldl takePart taken =
      ⟨taken.file.or ((parts.find? Part.isFile).map Part.spelled),
        taken.options.merge (Options.parse (settings taken.file.isSome parts)),
        taken.warnings ++ Options.warnings (settings taken.file.isSome parts)⟩ := by
  induction parts generalizing taken with
  | nil =>
    have hnone : settings taken.file.isSome [] = [] := by
      unfold settings
      split <;> rfl
    rw [hnone]
    simp [Options.parse, Options.warnings]
  | cons part parts ih =>
    rw [List.foldl_cons, ih, takePart_eq]
    cases hfile : taken.file with
    | some path =>
      have hsettings : settings (some path).isSome (part :: parts) =
          part.spelled :: settings true parts := rfl
      rw [hsettings, Options.parse_cons, Options.warnings_cons]
      simp [setPart, hfile, Options.merge_assoc, String.append_assoc]
    | none =>
      by_cases hpart : part.isFile = true
      · have hsettings : settings false (part :: parts) = settings true parts := by
          simp [settings, hpart]
        simp [hpart, hsettings]
      · have hsettings : settings (Option.none : Option String).isSome (part :: parts) =
            part.spelled :: settings false parts := by
          simp [settings, hpart]
        rw [hsettings, Options.parse_cons, Options.warnings_cons]
        simp [setPart, hpart, hfile, Options.merge_assoc, String.append_assoc]

/-- The arguments of a command hold the file, the first part that is no option, and settings, all
other parts in their order. The settings are read as a list of arguments is, in which each option
has its last valid occurrence; so it does not matter how a list is cut into shorter ones. -/
theorem collect_eq_parse (earlier later arguments : List String) :
    Options.parse (earlier ++ later) = (Options.parse earlier).merge (Options.parse later) ∧
      let others := ((parts arguments).eraseP Part.isFile).map Part.spelled
      collect arguments =
          ⟨((parts arguments).find? Part.isFile).map Part.spelled, Options.parse others,
            Options.warnings others⟩ ∧
        Options.parse others = Options.lastOf others := by
  refine ⟨Options.parse_append earlier later, ?_, Options.parse_eq_lastOf _⟩
  rw [collect, collectFrom_eq_foldl, foldl_takePart]
  simp [none, settings]

end Arguments

end StyleRules
