import IdlLexis.Command
/-!
The program: reads the file that the arguments name, and writes the report.
-/

namespace IdlLexis

def readContent (path : String) : IO (Except ReadFailure Bytes) := do
  try
    let content ← IO.FS.readBinFile path
    return .ok content.data.toList
  catch failure =>
    match failure with
    | .noFileOrDirectory .. => return .error .missing
    | .permissionDenied .. => return .error .forbidden
    | other => return .error (.other (toString other))

def Report.write (report : Report) : IO UInt32 := do
  IO.print (Report.joinLines report.output)
  IO.eprint (Report.joinLines report.errors)
  return UInt32.ofNat report.exitCode

end IdlLexis

open IdlLexis in
def main (args : List String) : IO UInt32 := do
  let command := Command.ofArguments args
  let content ←
    match command.file? with
    | some path => readContent path
    | none => pure (.error .missing)
  match Report.answer command content with
  | .ok report => report.write
  | .error _ => return 101
