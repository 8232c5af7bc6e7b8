import ShaderBridge.CommandLine.Snapshot

namespace ShaderBridge

/-- Why the system refuses a file. -/
def FileError.ofSystem : IO.Error → FileError
  | .noFileOrDirectory .. => .notFound
  | .inappropriateType .. => .isDirectory
  | e => .other (toString e)

def readFile (path : String) : IO (Except FileError String) := do
  try
    return .ok (← IO.FS.readFile path)
  catch e =>
    return .error (.ofSystem e)

/-- Reads all files that a command may need. -/
partial def readWanted (c : Command) (s : Snapshot) : IO Snapshot := do
  match s.wanted c with
  | [] => return s
  | paths =>
    let files ← paths.mapM fun path => return (path, ← readFile path)
    readWanted c { files := s.files ++ files }

/-- Carries out effects up to the first that fails. -/
def carryOut (succeeded : Bool) : List Effect → IO UInt32
  | [] => return if succeeded then 0 else 1
  | .output text :: rest => do
    IO.print text
    carryOut succeeded rest
  | .complaint text :: rest => do
    IO.eprint text
    carryOut succeeded rest
  | .write path text :: rest => do
    try
      IO.FS.writeFile path text
    catch e =>
      IO.eprint (writeComplaint path (.ofSystem e))
      return 1
    carryOut succeeded rest

end ShaderBridge

open ShaderBridge

def main (words : List String) : IO UInt32 := do
  match Command.ofWords? words with
  | none =>
    IO.eprint usage
    return 2
  | some c =>
    let s ← readWanted c {}
    let (effects, succeeded) := c.plan s.toFiles
    carryOut succeeded effects
