import Pinfile.CommandLine.Dispatch

/-!
# The program

Reads the command line, carries out the requests of its operation on the files of the machine, and
ends with an exit code: 0 for success, 1 for a failed operation, and 2 for a command line that was
not understood.
-/

namespace Pinfile

/-! ## Requests -/

/-- The file error that an error of the machine stands for. -/
def FileError.ofMachine : IO.Error → FileError
  | .noFileOrDirectory .. => .notFound
  | .alreadyExists .. => .exists
  | .inappropriateType _ code _ => if code = 21 then .isDirectory else .notDirectory
  | .permissionDenied _ code details => .other code.toNat details
  | .resourceExhausted _ code details => .other code.toNat details
  | .invalidArgument _ code details =>
    if code = 36 then .nameTooLong else .other code.toNat details
  | .otherError code details => .other code.toNat details
  | e => .other 0 (toString e)

/-- Does something at a path, and gives its failure as a value. The machine is not asked about a path
that leads nowhere. -/
def attempt {α : Type} (p : Path) (act : IO α) : IO (Except FileError α) := do
  match p.fault? with
  | some e => return .error e
  | none =>
    try
      return .ok (← act)
    catch e => return .error (.ofMachine e)

/-- What stands at a path of the machine. -/
def kindOnDisk (p : Path) : IO (Option FileTree.Kind) := do
  let start ← IO.currentDir
  match ← attempt p (start / p.text).metadata with
  | .error _ => return none
  | .ok data => return some (if data.type matches .dir then .directory else .file)

/-- The text of a file of the machine. -/
def readOnDisk (p : Path) : IO (Except FileError String) := do
  match ← attempt p (IO.FS.readBinFile p.text) with
  | .error e => return .error e
  | .ok content =>
    match String.fromUTF8? content with
    | some text => return .ok text
    | none => return .error .notText

/-- Carries out a program on the machine. -/
def Program.perform {α : Type} : Program α → IO α
  | .done a => return a
  | .read p next => do (next (← readOnDisk p)).perform
  | .kind p next => do (next (← kindOnDisk p)).perform
  | .makeDir p next => do (next (← attempt p (IO.FS.createDir p.text))).perform
  | .write p text next => do (next (← attempt p (IO.FS.writeBinFile p.text text.toUTF8))).perform
  | .print text next => do
    IO.print text
    next.perform
  | .note text next => do
    IO.eprint text
    next.perform

/-! ## Messages -/

/-- How the program is called. -/
def usage : String :=
  "Usage: pinset [-v] [-m <manifest>] <command>\n\nCommands:\n" ++
  "  check                            Parse and validate the manifest\n" ++
  "  show [-g <group>]... [--json]    Print the resolved environment by group\n" ++
  "  lock [--check]                   Resolve the manifest and write the lockfile\n" ++
  "  merge <file>... [-o <file>]      Merge manifests, lowest priority first\n" ++
  "  export [-g <group>]... [-o <file>]  Write selected groups as a flat requirements list\n"

/-- What is said about a command line that is not carried out. -/
def CommandLine.Refusal.message : CommandLine.Refusal → String
  | .help | .nothingAsked => usage
  | .version => "pinset 0.1.0\n"
  | .missingCommand => "error: a command is required\n\n" ++ usage
  | .unknownCommand => "error: unrecognized command\n\n" ++ usage
  | .unknownArgument => "error: unexpected argument\n\n" ++ usage
  | .missingArgument => "error: a required argument was not provided\n\n" ++ usage
  | .invalidValue => "error: a value is required\n\n" ++ usage
  | .unwantedValue => "error: a value was given that is not wanted\n\n" ++ usage
  | .repeated => "error: an argument cannot be used multiple times\n\n" ++ usage

/-- What is said about a failure. -/
def Failure.text (f : Failure) : String :=
  let problems :=
    match f with
    | .problems report => report.problems.map fun p => "  " ++ p.message ++ "\n"
    | _ => []
  (f.code?.elim "" fun code => code ++ "\n") ++ "error: " ++ f.message ++ "\n" ++
    String.join problems ++ (f.help?.elim "" fun help => "help: " ++ help ++ "\n")

/-! ## The program -/

/-- Carries out a command line that was understood. -/
def CommandLine.Invocation.carryOut (i : CommandLine.Invocation) : IO UInt32 := do
  let cwd ← IO.currentDir
  let home ← IO.getEnv "HOME"
  let profile ← IO.getEnv "USERPROFILE"
  let here : Setting :=
    ⟨Path.ofText cwd.toString, Operation.configFileIn (Operation.userDirectory home profile)⟩
  match ← (i.perform here).run.perform with
  | .ok () => return 0
  | .error f =>
    IO.eprint f.text
    return 1

end Pinfile

/-- Runs the program on its command line. -/
def main (args : List String) : IO UInt32 := do
  match Pinfile.CommandLine.read (← IO.getEnv "PINSET_MANIFEST") args with
  | .ok i => i.carryOut
  | .error r =>
    if r.exitCode = 0 then IO.print r.message else IO.eprint r.message
    return UInt32.ofNat r.exitCode
