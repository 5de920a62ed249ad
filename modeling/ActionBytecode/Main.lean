/-
  ActionBytecode — the program.

  The command line, run on the files of the system.
-/
import ActionBytecode.Command.Run

namespace ActionBytecode

/-- The wording of a failed system call. -/
def systemText (error : IO.Error) : String :=
  match error with
  | .noFileOrDirectory _ code details => s!"{details} (os error {code})"
  | .permissionDenied _ code details => s!"{details} (os error {code})"
  | .inappropriateType _ code details => s!"{details} (os error {code})"
  | .invalidArgument _ code details => s!"{details} (os error {code})"
  | error => toString error

/-- Turn a failure into a result. -/
def attempt {α : Type} (call : IO α) : IO (Except String α) := do
  try return .ok (← call)
  catch error => return .error (systemText error)

/-- A directory and those around it, from the innermost outwards. -/
def directoriesAround (directory : String) : List String :=
  let names := directory.splitOn "/"
  (List.range names.length).map fun n => "/".intercalate (names.take (names.length - n))

/-- Access to the files of the system. -/
def systemFiles : Files IO where
  holds path := do
    match ← attempt (IO.FS.Handle.mk path .read) with
    | .ok _ => return true
    | .error _ => return false
  read path := attempt do return (← IO.FS.readBinFile path).toList
  write path bytes := attempt (IO.FS.writeBinFile path ⟨bytes.toArray⟩)
  directories := do return directoriesAround (toString (← IO.currentDir))

end ActionBytecode

open ActionBytecode in
/-- Run the command line. -/
def main (arguments : List String) : IO UInt32 := do
  let outcome ← Command.run systemFiles arguments
  IO.print outcome.output
  IO.eprint outcome.complaint
  return UInt32.ofNat outcome.code
