import ComponentAudit.CommandLine.Clock
import ComponentAudit.CommandLine.Run
import Std.Time.DateTime.Timestamp

/-!
# The program

The outer layer: files on disk, the clock, standard streams and the exit code.
-/

namespace ComponentAudit

/-- The reason of a failed access. -/
def readFault : IO.Error → ReadFault
  | .noFileOrDirectory .. => .notFound
  | .inappropriateType .. => .notDirectory
  | e => .refused (toString e)

/-- What a path leads to on disk. -/
def diskKind? (p : Path) : IO (Option EntryKind) := do
  try
    let found ← IO.FS.realPath p.text
    match (← found.metadata).type with
    | .dir => return some .directory
    | .file => return some .file
    | _ => return some .other
  catch _ => return none

/-- The files on disk. They are given all the time that they take. -/
def diskAccess : FileAccess IO where
  kind? := diskKind?
  names p := do
    try
      let found ← IO.FS.realPath p.text
      return (← found.readDir).toList.map (·.fileName)
    catch _ => return []
  read p := do
    try
      if (← diskKind? p) = some .directory then return .error .isDirectory
      return .ok (← IO.FS.readBinFile p.text).toList
    catch e => return .error (readFault e)
  canonical? p := do
    try return some ⟨(← IO.FS.realPath p.text).toString⟩
    catch _ => return none
  clock _ := return .still

/-- The present moment. -/
def now : IO String := do
  let t ← Std.Time.Timestamp.now
  let nanos := t.toNanosecondsSinceUnixEpoch.val
  return CommandLine.momentText (nanos / 1000000000) (nanos % 1000000000).toNat

/-- What is said about a line that is no request. -/
def requestFault (_line : String) : String := "not a request"

/-- Answers requests line by line until the input ends. -/
partial def serveInput (verbose : Bool) (input output : IO.FS.Stream) : IO Unit := do
  let line ← try input.getLine catch _ => pure "\n"
  if line.isEmpty then return ()
  let text := CommandLine.inputLines line
  for request in text do
    let tools tool := do callTool diskAccess verbose (← now) tool
    if let some reply ← handleLine requestFault tools request then
      output.putStrLn reply.line
      output.flush
  serveInput verbose input output

/-- How the program is used. -/
def usageHint : String :=
  "Usage: va-monitor [--verbose] <version|scan|validate|report|serve|catalog> [arguments]"

/-- Runs the program with its arguments and gives its exit code. -/
def runProgram (args : List String) : IO UInt32 := do
  match CommandLine.Invocation.read args with
  | .error fault =>
    if fault = .versionAsked then IO.println s!"va-monitor {programVersion}"
    else if fault = .helpAsked then IO.println usageHint
    else IO.eprintln usageHint
    return fault.exitCode.toUInt32
  | .ok ⟨verbose, .serve⟩ =>
    serveInput verbose (← IO.getStdin) (← IO.getStdout)
    return 0
  | .ok invocation =>
    let shown := (← IO.getEnv "NO_COLOR").isNone
    let outcome ← invocation.run diskAccess requestFault shown (← now) ""
    IO.eprint outcome.stderr
    IO.print outcome.stdout
    return outcome.exitCode.toUInt32

end ComponentAudit

/-- The program. -/
def main (args : List String) : IO UInt32 := ComponentAudit.runProgram args
