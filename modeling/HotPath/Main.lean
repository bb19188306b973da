/-
  HotPath.Main

  The program `hotpath`: reads the files that the command line names, carries
  it out and writes what comes of it.
-/
import HotPath.Cli.Run

namespace HotPath.Cli

/-- The text of a file, or why it cannot be read. -/
def readText (path : String) : IO (Except FileFault String) := do
  try
    return .ok (← IO.FS.readFile path)
  catch
    | .noFileOrDirectory .. => return .error .missing
    | .permissionDenied .. => return .error .denied
    | .inappropriateType _ _ "Is a directory" => return .error .isDirectory
    | .inappropriateType .. => return .error .notDirectory
    | .invalidArgument .. => return .error .nameTooLong
    | .userError _ => return .error .notText
    | e => return .error (.other (toString e))

/-- The allowance of a run from the command line. -/
def allowance : Nat := 1 <<< 60

/-- Carries out a command on the files it names. -/
def performFiles (c : Command) : IO Reply := do
  let paths := c.file :: c.options.config.toList
  let texts ← paths.mapM (fun path => return (path, ← readText path))
  return c.perform allowance (fun path =>
    match texts.find? (fun t => t.1 == path) with
    | some t => t.2
    | none => .error .missing)

/-- Writes a reply, and gives its exit code. -/
def write (r : Reply) : IO UInt32 := do
  IO.print r.stdout
  IO.eprint r.stderr
  return UInt32.ofNat r.exit

end HotPath.Cli

open HotPath.Cli in
/-- Carries out the command line. -/
def main (args : List String) : IO UInt32 := do
  match Command.ofArgs args with
  | .error stop => write stop.reply
  | .ok c =>
    let start ← IO.monoMsNow
    let reply ← performFiles c
    let code ← write reply
    if c.options.profile && reply.exit == 0 then
      IO.eprintln s!"Total time: {(← IO.monoMsNow) - start}ms"
    return code
