import StyleRules.CodeUnit.Folded

/-!
# Special rules

Three properties need more than a look into the table: what is added depends on the value. The
additions come after whatever the table's action emits; some go to the children of the element.
-/

namespace StyleRules

inductive SpecialValue where
  | literal (text : String)
  /-- The value of the declaration that the rule applies to. -/
  | declared
  deriving DecidableEq, Repr

abbrev SpecialDeclarations := List (String × SpecialValue)

inductive SpecialRule where
  /-- A gradient becomes a clipped text background and any other colour resets it, unless the table
  has an action for the declaration. -/
  | color
  /-- A weight other than zero resets the basis. -/
  | linearWeight
  /-- The sum of weights is passed on to the children. -/
  | linearWeightSum
  deriving DecidableEq, Repr

namespace SpecialRule

def all : List SpecialRule := [color, linearWeight, linearWeightSum]

def property : SpecialRule → String
  | color => "color"
  | linearWeight => "linear-weight"
  | linearWeightSum => "linear-weight-sum"

/-- The rule for a property, whose name is compared without regard to case. -/
def forProperty? (name : CodeUnits) : Option SpecialRule :=
  all.find? fun rule => name.equalsFolded rule.property

def gradientColor : SpecialDeclarations :=
  [("color", .literal "transparent"), ("-webkit-background-clip", .literal "text"),
    ("background-clip", .literal "text"), ("--lynx-text-bg-color", .declared)]

def plainColor : SpecialDeclarations :=
  [("--lynx-text-bg-color", .literal "initial"), ("-webkit-background-clip", .literal "initial"),
    ("background-clip", .literal "initial"), ("color", .declared)]

def weightBasis : SpecialDeclarations := [("--lynx-linear-weight-basis", .literal "0")]

def weightSumForChildren : SpecialDeclarations := [("--lynx-linear-weight-sum", .declared)]

def isZero (value : CodeUnits) : Bool := value == [CodeUnit.digitZero]

/-- The declarations added to the element; `hasAction` tells whether the table has an action. -/
def declarations (rule : SpecialRule) (value : CodeUnits) (hasAction : Bool) :
    SpecialDeclarations :=
  match rule with
  | color =>
    if hasAction then []
    else if value.startsWith "linear-gradient" then gradientColor
    else plainColor
  | linearWeight => if isZero value then [] else weightBasis
  | linearWeightSum => []

def children : SpecialRule → SpecialDeclarations
  | linearWeightSum => weightSumForChildren
  | color => []
  | linearWeight => []

end SpecialRule

end StyleRules
