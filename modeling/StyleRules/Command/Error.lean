import StyleRules.Table.Asset

/-!
# Command errors
-/

namespace StyleRules

inductive FileFailure where
  | notFound
  | permissionDenied
  | notDirectory
  | isDirectory
  | nameTooLong
  /-- The path holds a NUL. -/
  | nulInPath
  /-- Any other cause, as the system words it. -/
  | other (text : String)
  deriving DecidableEq, Repr

namespace FileFailure

def message : FileFailure → String
  | notFound => "No such file or directory (os error 2)"
  | permissionDenied => "Permission denied (os error 13)"
  | notDirectory => "Not a directory (os error 20)"
  | isDirectory => "Is a directory (os error 21)"
  | nameTooLong => "File name too long (os error 36)"
  | nulInPath => "file name contained an unexpected NUL byte"
  | other text => text

end FileFailure

inductive CommandError where
  | notFound (path : String)
  | permissionDenied (path : String)
  | invalidUtf8 (path : String)
  | read (path : String) (cause : FileFailure)
  | write (path : String) (cause : FileFailure)
  | table (path : String) (cause : Table.ReadError)
  | build (cause : Table.BuildError)
  | usage (advice : String)
  deriving DecidableEq, Repr

namespace CommandError

def message : CommandError → String
  | notFound path => "cannot find file '" ++ path ++ "'"
  | permissionDenied path => "permission denied reading '" ++ path ++ "'"
  | invalidUtf8 path => "'" ++ path ++ "' contains invalid UTF-8 data"
  | read path cause => "error reading '" ++ path ++ "': " ++ cause.message
  | write path cause => "error writing '" ++ path ++ "': " ++ cause.message
  | table path cause => "invalid rule table '" ++ path ++ "': " ++ cause.message
  | build cause => "cannot build rule set: " ++ cause.message
  | usage advice => advice

def ofReadFailure (path : String) : FileFailure → CommandError
  | .notFound => .notFound path
  | .permissionDenied => .permissionDenied path
  | cause => .read path cause

end CommandError

end StyleRules
