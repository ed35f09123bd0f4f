import AuthSchema.CommandLine.Run

/-!
The program on a real disk.
-/
namespace AuthSchema

/-- The world that the program runs in. -/
def system : CommandLine.Host IO where
  read path := do
    match ← (IO.FS.readBinFile path).toBaseIO with
    | .ok bytes => return some bytes.toList
    | .error _ => return none
  write path text := do
    match ← (IO.FS.writeFile path text).toBaseIO with
    | .ok _ => return true
    | .error _ => return false
  print text := do
    let out ← IO.getStdout
    match ← (do out.putStr text; out.flush : IO Unit).toBaseIO with
    | .ok () => return .ok ()
    | .error e => return .error (toString e)

end AuthSchema

def main (arguments : List String) : IO UInt32 := do
  let environment ← IO.getEnv "SPICEGEN_CONFIG"
  let outcome ← AuthSchema.CommandLine.execute AuthSchema.system environment arguments
  if let some message := outcome.message then IO.eprintln message
  return outcome.code.toUInt32
