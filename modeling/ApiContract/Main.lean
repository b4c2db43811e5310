import ApiContract.Command.Run

/-!
# The program

Reads the files that the command names, runs the command and writes what it leaves behind.
-/

open ApiContract

/-- Why a file cannot be read, in the words of the system. -/
def systemReason : IO.Error → String
  | .noFileOrDirectory _ code details => details ++ " (os error " ++ naturalText code.toNat ++ ")"
  | .permissionDenied _ code details => details ++ " (os error " ++ naturalText code.toNat ++ ")"
  | .inappropriateType _ code details => details ++ " (os error " ++ naturalText code.toNat ++ ")"
  | .otherError code details => details ++ " (os error " ++ naturalText code.toNat ++ ")"
  | other => toString other

/-- What is in a file, or why it cannot be read. -/
def readText (path : String) : IO (Except String String) :=
  try
    let bytes ← IO.FS.readBinFile path
    match String.fromUTF8? bytes with
    | some text => return .ok text
    | none => return .error "stream did not contain valid UTF-8"
  catch e => return .error (systemReason e)

/-- The files of some paths. -/
def readFiles (paths : List String) : IO Files := do
  let entries ← paths.mapM fun path => do return (path, ← readText path)
  return fun path =>
    match entries.find? (·.1 == path) with
    | some entry => entry.2
    | none => .error "not read"

def main (arguments : List String) : IO UInt32 := do
  match Command.ofArguments arguments false with
  | .error e =>
    IO.eprintln ("error: " ++ e.message)
    return 2
  | .ok command =>
    let files ← readFiles command.paths
    let outcome := command.run files
    IO.print outcome.output
    match outcome.error with
    | some message => IO.eprintln ("error: " ++ message)
    | none => pure ()
    return UInt32.ofNat outcome.exitCode
