import CatScript.CommandLine

/-!
# The program

Reads the file named on the command line and writes what the command replies.
-/
open CatScript.CommandLine

/-- The text of a file on disk. A directory can be opened and fails when it is read; a path that
leads through a file cannot be opened, and the error names it. -/
def readText (path : String) : IO (Except ReadFault String) := do
  try
    return decode (← IO.FS.readBinFile path)
  catch e =>
    match e with
    | .noFileOrDirectory _ _ _ => return .error .notFound
    | .inappropriateType (some _) _ _ => return .error .notDirectory
    | _ => return .error .isDirectory

def main (args : List String) : IO UInt32 := do
  let reply ← run readText args
  IO.print reply.out
  IO.eprint reply.err
  return reply.status.toUInt32
