import DiceLaw.CommandLine

/-! The command line with real files and streams. -/

/-- The content of each file that an option names, as far as it can be read. -/
def readConfigs (arguments : List String) : IO (List (String × String)) := do
  let mut found := []
  for path in arguments do
    match ← (IO.FS.readFile path).toBaseIO with
    | .ok text => found := (path, text) :: found
    | .error _ => pure ()
  return found

def main (arguments : List String) : IO UInt32 := do
  let paths := (arguments.zip arguments.tail).filterMap fun p => if p.1 = "--config" then some p.2 else none
  let configs ← readConfigs paths
  let out := DiceLaw.CommandLine.run (fun path => configs.lookup path) arguments
  IO.print out.stdout
  IO.eprint out.stderr
  return out.code
