import Std.Time.DateTime.Timestamp
import Influence.Digest.Sha256
import Influence.Shell.Program
import Influence.Study.Timestamp

/-!
# The command line

Looks up what a run may ask for, runs the program, and carries its outcome out.
-/

namespace Influence

/-- The reason that the system gives for a failure. -/
def systemReason : IO.Error → String
  | .unexpectedEof => "failed to fill whole buffer"
  | .userError message => message
  | .otherError code details | .resourceBusy code details | .resourceVanished code details
  | .unsupportedOperation code details | .hardwareFault code details
  | .unsatisfiedConstraints code details | .illegalOperation code details
  | .protocolError code details | .timeExpired code details | .alreadyExists _ code details
  | .interrupted _ code details | .noFileOrDirectory _ code details
  | .invalidArgument _ code details | .permissionDenied _ code details
  | .resourceExhausted _ code details | .inappropriateType _ code details
  | .noSuchThing _ code details => details ++ " (os error " ++ code.toNat.repr ++ ")"

/-- What a path leads to. -/
def lookUp (path : String) : IO (Except String FileEntry) := do
  try
    let bytes ← (← IO.FS.Handle.mk path .read).readBinToEnd
    return .ok (match String.fromUTF8? bytes with
      | some text => .file text
      | none => .binary)
  catch e =>
    let reason := systemReason e
    return if reason = FileTree.isDirectory then .ok .directory
      else if [FileTree.missing, FileTree.throughFile, FileTree.tooLong].contains reason then
        .error reason
      else .ok (.sealedOff reason)

/-- Writes the files of an outcome; the first one that cannot be written, with the reason. -/
def writeAll : List (String × String) → IO (Option (String × String))
  | [] => pure none
  | (path, text) :: rest => do
    try
      IO.FS.writeFile path text
      writeAll rest
    catch e => return some (path, systemReason e)

/-- Runs the program, and once more if a file of its outcome cannot be written. -/
def runOn (host : Host) (args : List String) : IO Outcome := do
  let outcome := runProgram host args
  match ← writeAll outcome.written with
  | none => return outcome
  | some (refused, reason) =>
    return runProgram { host with creation := fun path =>
      if path = refused then .error reason else .ok () } args

end Influence

open Influence in
/-- The command line. -/
def main (args : List String) : IO UInt32 := do
  let values ← consultedVariables.mapM fun name => return (name, ← IO.getEnv name)
  let environment (name : String) : Option String := (values.lookup name).join
  let entries ← (consultedPaths environment args).mapM fun path => return (path, ← lookUp path)
  let now := (← Std.Time.Timestamp.now).toNanosecondsSinceUnixEpoch.val.toNat
  let runId := "run-" ++ Sha256.hexText (← IO.getRandomBytes 6).toList
  let outcome ← runOn
    { environment, runId, files := .ofEntries entries, creation := fun _ => .ok (),
      moment := Timestamp.writeExact now, logMoment := Timestamp.write 3 now } args
  IO.print outcome.stdout
  IO.eprint outcome.stderr
  return outcome.exit.toUInt32
