import StyleRules.Command.Path

/-!
# Files

Commands reach files through `FileAccess`. A directory kept as a value is one such access: what the
commands do to files can be run and stated on it.
-/

namespace StyleRules

/-- How files are read and written. Writing empties or creates the file and fills it with the given
bytes, or fails and leaves all files as they are. -/
structure FileAccess (m : Type → Type) where
  read : String → m (Except FileFailure Bytes)
  write : String → Bytes → m (Except FileFailure Unit)

def utf8Bytes (text : String) : Bytes := text.toUTF8.data.toList

def ofUtf8? (bytes : Bytes) : Option String := String.fromUTF8? ⟨bytes.toArray⟩

/-- Files by name, with the rule by which a path leads to a file, given the names that are there. -/
structure Directory where
  entries : List (String × Bytes)
  locate : List String → Purpose → String → Except FileFailure String

namespace Directory

def names (directory : Directory) : List String := directory.entries.map Prod.fst

def get? (directory : Directory) (name : String) : Option Bytes := directory.entries.lookup name

def put (directory : Directory) (name : String) (contents : Bytes) : Directory :=
  { directory with
    entries := directory.entries.filter (fun entry => entry.1 != name) ++ [(name, contents)] }

def resolve (directory : Directory) (purpose : Purpose) (path : String) :
    Except FileFailure String :=
  directory.locate directory.names purpose path

def read (directory : Directory) (path : String) : Except FileFailure Bytes :=
  match directory.resolve .reading path with
  | .error failure => .error failure
  | .ok name =>
    match directory.get? name with
    | some contents => .ok contents
    | none => .error .notFound

def write (directory : Directory) (path : String) (contents : Bytes) :
    Except FileFailure Unit × Directory :=
  match directory.resolve .writing path with
  | .error failure => (.error failure, directory)
  | .ok name => (.ok (), directory.put name contents)

/-- The directory without subdirectories that holds the given files. -/
def flat (entries : List (String × Bytes)) : Directory := ⟨entries, Path.locate⟩

/-- Access to a directory that is kept as the state. -/
def access : FileAccess (StateM Directory) where
  read path := fun directory => (directory.read path, directory)
  write path contents := fun directory => directory.write path contents

end Directory

end StyleRules
