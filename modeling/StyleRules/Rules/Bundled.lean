import StyleRules.Rules.Action

/-!
# The bundled rules

The rules for the legacy layout properties, in the order in which they are numbered.
-/

namespace StyleRules.Bundled

/-- Old and new names. -/
def renames : List (String × String) :=
  [("linear-weight", "--lynx-linear-weight"),
    ("flex-direction", "--flex-direction"),
    ("flex-wrap", "--flex-wrap"),
    ("flex-grow", "--flex-grow"),
    ("flex-shrink", "--flex-shrink"),
    ("flex-basis", "--flex-basis"),
    ("list-main-axis-gap", "--list-main-axis-gap"),
    ("list-cross-axis-gap", "--list-cross-axis-gap"),
    ("flex", "--flex")]

def horizontal : Replacement :=
  [("--lynx-linear-orientation", "horizontal"),
    ("--lynx-linear-orientation-toggle", "var(--lynx-linear-orientation-horizontal)")]

def horizontalReverse : Replacement :=
  [("--lynx-linear-orientation", "horizontal-reverse"),
    ("--lynx-linear-orientation-toggle", "var(--lynx-linear-orientation-horizontal-reverse)")]

def vertical : Replacement :=
  [("--lynx-linear-orientation", "vertical"),
    ("--lynx-linear-orientation-toggle", "var(--lynx-linear-orientation-vertical)")]

def verticalReverse : Replacement :=
  [("--lynx-linear-orientation", "vertical-reverse"),
    ("--lynx-linear-orientation-toggle", "var(--lynx-linear-orientation-vertical-reverse)")]

def gravity (column columnReverse row rowReverse : String) : Replacement :=
  [("--justify-content-column", column), ("--justify-content-column-reverse", columnReverse),
    ("--justify-content-row", row), ("--justify-content-row-reverse", rowReverse)]

def layoutGravity (row column : String) : Replacement :=
  [("--align-self-row", row), ("--align-self-column", column)]

def displayValues : List (String × Replacement) :=
  [("linear",
      [("--lynx-display-toggle", "var(--lynx-display-linear)"), ("--lynx-display", "linear"),
        ("display", "flex")]),
    ("flex",
      [("--lynx-display-toggle", "var(--lynx-display-flex)"), ("--lynx-display", "flex"),
        ("display", "flex")])]

def linearGravityValues : List (String × Replacement) :=
  [("top", gravity "flex-start" "flex-end" "flex-start" "flex-start"),
    ("bottom", gravity "flex-end" "flex-start" "flex-start" "flex-start"),
    ("left", gravity "flex-start" "flex-start" "flex-start" "flex-end"),
    ("right", gravity "flex-start" "flex-start" "flex-end" "flex-start"),
    ("center-vertical", gravity "center" "center" "flex-start" "flex-start"),
    ("center-horizontal", gravity "flex-start" "flex-start" "center" "center"),
    ("start", gravity "flex-start" "flex-start" "flex-start" "flex-start"),
    ("end", gravity "flex-end" "flex-end" "flex-end" "flex-end"),
    ("center", gravity "center" "center" "center" "center"),
    ("space-between", gravity "space-between" "space-between" "space-between" "space-between")]

def linearLayoutGravityValues : List (String × Replacement) :=
  [("none", layoutGravity "auto" "auto"),
    ("stretch", layoutGravity "stretch" "stretch"),
    ("top", layoutGravity "start" "auto"),
    ("bottom", layoutGravity "end" "auto"),
    ("left", layoutGravity "auto" "start"),
    ("right", layoutGravity "auto" "end"),
    ("start", layoutGravity "start" "start"),
    ("end", layoutGravity "end" "end"),
    ("center", layoutGravity "center" "center"),
    ("center-vertical", layoutGravity "center" "start"),
    ("center-horizontal", layoutGravity "start" "center"),
    ("fill-vertical", layoutGravity "stretch" "auto"),
    ("fill-horizontal", layoutGravity "auto" "stretch")]

/-- Names, and for each of their values the declarations that stand instead. -/
def replaces : List (String × List (String × Replacement)) :=
  [("display", displayValues),
    ("direction", [("lynx-rtl", [("direction", "rtl")])]),
    ("linear-orientation",
      [("horizontal", horizontal), ("horizontal-reverse", horizontalReverse),
        ("vertical", vertical), ("vertical-reverse", verticalReverse)]),
    ("linear-direction",
      [("row", horizontal), ("row-reverse", horizontalReverse), ("column", vertical),
        ("column-reverse", verticalReverse)]),
    ("linear-gravity", linearGravityValues),
    ("linear-cross-gravity",
      [("start", [("align-items", "start")]), ("end", [("align-items", "end")]),
        ("center", [("align-items", "center")]), ("stretch", [("align-items", "stretch")])]),
    ("linear-layout-gravity", linearLayoutGravityValues),
    ("justify-content",
      [("start", [("justify-content", "flex-start")]), ("end", [("justify-content", "flex-end")]),
        ("left", [("justify-content", "--lynx-invalid-invalid-invalid")]),
        ("right", [("justify-content", "--lynx-invalid-invalid-invalid")])])]

end StyleRules.Bundled
