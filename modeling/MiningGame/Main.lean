import MiningGame.Replay

/-!
# The command line

Reads the files that a command line names, replays them and prints the snapshot or, on the error
output, what went wrong.
-/

open MiningGame

/-- What there is under a file name on disk. A name that leads nowhere, be it too long or behind
another file, is that of a missing file. -/
def readContent (name : String) : IO FileContent := do
  match ← (IO.FS.readBinFile name).toBaseIO with
  | .ok bytes =>
    match String.fromUTF8? bytes with
    | some contents => return .text contents
    | none => return .unreadable
  | .error (.noFileOrDirectory ..) => return .missing
  | .error (.invalidArgument ..) => return .missing
  | .error (.inappropriateType (some _) ..) => return .missing
  | .error _ => return .unreadable

/-- The content of every named file, as far as the disk has it. -/
def readFiles (names : List String) : IO Files := do
  let contents ← names.mapM readContent
  return fun name ↦ ((names.zip contents).lookup name).getD .missing

def main (args : List String) : IO UInt32 := do
  let files ← readFiles (Replay.defaultConfigName :: args)
  match Replay.output files (← IO.getEnv "LODE_LOG") args with
  | .ok text =>
    IO.print text
    return 0
  | .error e =>
    IO.eprintln ("Error: " ++ e.message)
    return 1
