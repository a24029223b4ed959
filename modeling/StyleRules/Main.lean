import StyleRules.Command.Line

/-!
# The program

Files are those of the system; standard output and standard error get what the transcript holds.
-/

namespace StyleRules.System

def worded (details : String) (code : UInt32) : FileFailure :=
  .other (details ++ " (os error " ++ toString code.toNat ++ ")")

def failure (error : IO.Error) : FileFailure :=
  match error with
  | .noFileOrDirectory .. => .notFound
  | .permissionDenied .. => .permissionDenied
  | .inappropriateType _ 21 _ => .isDirectory
  | .inappropriateType _ code details => worded details code
  | .invalidArgument _ code details => worded details code
  | .resourceExhausted _ code details => worded details code
  | .resourceBusy code details => worded details code
  | .otherError code details => worded details code
  | other => .other (toString other)

def read (path : String) : IO (Except FileFailure Bytes) := do
  try
    let contents ← IO.FS.withFile path .read fun handle => handle.readBinToEnd
    return .ok contents.data.toList
  catch error => return .error (failure error)

def write (path : String) (contents : Bytes) : IO (Except FileFailure Unit) := do
  try
    IO.FS.writeBinFile path ⟨contents.toArray⟩
    return .ok ()
  catch error => return .error (failure error)

def files : FileAccess IO := ⟨read, write⟩

end StyleRules.System

open StyleRules in
def main (arguments : List String) : IO UInt32 := do
  let transcript ← CommandLine.run System.files arguments
  (← IO.getStdout).write ⟨transcript.stdout.toArray⟩
  (← IO.getStderr).putStr transcript.stderr
  return transcript.exitCode
