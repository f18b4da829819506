import DeltaSlice.Command

/-!
The executable.
-/

open DeltaSlice

/-- The content of a file, if it can be read. -/
def content? (path : String) : IO (Option String) := do
  try
    return some (← IO.FS.readFile path)
  catch _ => return none

/-- The file that the arguments name, if any. -/
def fileOf (args : List String) : Option String :=
  ((Command.parse .default args).toOption.map (·.config)).filter (· ≠ "")

def main (args : List String) : IO UInt32 := do
  let out ← IO.getStdout
  let content ← match fileOf args with
    | some path => content? path
    | none => pure none
  let outcome := Command.outcome args (fun _ => content) (← out.isTty)
  out.putStr outcome.stdout
  (← IO.getStderr).putStr outcome.stderr
  return outcome.exit.toUInt32
