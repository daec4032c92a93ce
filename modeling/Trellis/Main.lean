import Trellis.Command.Run

/-!
# The command line

Reads the one file that a command names, prints what the command prints and logs to standard error.
-/
namespace Trellis

def readSource (path : String) : IO (Except FileFault String) := do
  try
    return .ok (← IO.FS.readFile path)
  catch
    | .noFileOrDirectory .. => return .error .missing
    | .permissionDenied .. => return .error .denied
    | .inappropriateType _ code _ => return .error (if code = 20 then .notDirectory else .directory)
    | .invalidArgument _ 36 _ => return .error .nameTooLong
    | _ => return .error .notText

end Trellis

def main (args : List String) : IO UInt32 := do
  let some command := Trellis.Command.ofArguments? args
    | IO.eprintln "usage: run PROGRAM [--unsafe] [--quota N] [--settle-ms N] [--max-cycles N]"
      IO.eprintln "           [--event EVENT@XID[=VALUE]]..."
      IO.eprintln "       check PROGRAM"
      return 2
  let source ← match command.file? with
    | some path => Trellis.readSource path
    | none => pure (.error .missing)
  let transcript := command.perform source
  for line in transcript.log do
    IO.eprintln line.write
  IO.print transcript.output
  return UInt32.ofNat transcript.status
