import StyleRules.Command.Error

/-!
# Paths

Where a path leads in a directory without subdirectories. Its components are followed one by one:
an empty one and `.` stay where they are, `..` leaves the directory, and any other is the name of a
file, so that nothing may follow it. Outside the directory no file is known.
-/

namespace StyleRules

/-- What a file is opened for. Writing creates the file if it is not there. -/
inductive Purpose where
  | reading
  | writing
  deriving DecidableEq, Repr

namespace Path

/-- How many bytes a path and a name may have at most. -/
def maxPathLength : Nat := 4095

def maxNameLength : Nat := 255

def lastName (inside : Bool) (name : String) : Except FileFailure String :=
  if maxNameLength < name.utf8ByteSize then .error .nameTooLong
  else if inside then .ok name
  else .error .notFound

def enter (names : List String) (inside : Bool) (name : String) : FileFailure :=
  if maxNameLength < name.utf8ByteSize then .nameTooLong
  else if inside ∧ name ∈ names then .notDirectory
  else .notFound

/-- The file that components lead to; `inside` tells whether they start inside the directory. No
file is created under a name that a slash follows. -/
def walk (names : List String) (purpose : Purpose) (inside : Bool) :
    List String → Except FileFailure String
  | [] => .error .isDirectory
  | component :: rest =>
    if component = "" ∨ component = "." then walk names purpose inside rest
    else if component = ".." then walk names purpose false rest
    else if rest = [] then lastName inside component
    else if purpose = .writing ∧ (∀ follower ∈ rest, follower = "") then .error .isDirectory
    else .error (enter names inside component)

/-- The name of the file that a path leads to, in a directory that holds the files `names`. -/
def locate (names : List String) (purpose : Purpose) (path : String) :
    Except FileFailure String :=
  if '\x00' ∈ path.toList then .error .nulInPath
  else if path = "" then .error .notFound
  else if maxPathLength < path.utf8ByteSize then .error .nameTooLong
  else walk names purpose (path.toList.head? != some '/') (path.splitOn "/")

end Path

end StyleRules
