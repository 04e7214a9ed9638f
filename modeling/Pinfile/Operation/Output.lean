import Pinfile.Operation.Source

/-!
# Results of operations

A result is printed or written to a file; the directories that lead to the file are made when they
are missing. What an operation does is noted in lines that begin with a short label, so the printed
result can be passed on as it is.
-/

namespace Pinfile.Operation

/-! ## Notes -/

/-- The text, with blanks before it up to the given width. -/
def alignRight (width : Nat) (s : String) : String :=
  String.ofList (List.replicate (width - s.length) ' ') ++ s

/-- The line of a note. -/
def noteLine (label message : String) : String := alignRight 12 label ++ " " ++ message ++ "\n"

/-- Notes what was done. -/
def note (label message : String) : Program Unit := Program.noteText (noteLine label message)

/-! ## Directories -/

/-- The path has no part and does not begin at the root. -/
def isNowhere (p : Path) : Bool := !p.absolute && p.partsBack.isEmpty

/-- The answer to making a directory, which is no failure when there is one now. -/
def settleDirectory (p : Path) (e : FileError) : Program (Except FileError Unit) := do
  if ← Program.isDirectory p then return .ok () else return .error e

/-- Makes a directory and the directories above it, as far as they are missing. -/
def makeDirectories (p : Path) : Program (Except FileError Unit) := do
  if isNowhere p then return .ok ()
  else
    match ← Program.makeDirAt p with
    | .ok () => return .ok ()
    | .error .notFound =>
      match h : p.parent? with
      | none => return .error .notFound
      | some parent =>
        have := Path.length_segments_of_parent? h
        match ← makeDirectories parent with
        | .error e => return .error e
        | .ok () =>
          match ← Program.makeDirAt p with
          | .ok () => return .ok ()
          | .error e => settleDirectory p e
    | .error e => settleDirectory p e
termination_by p.segments.length

/-- Makes the directory of a file, unless something stands there already. -/
def prepareDirectory (p : Path) : Program (Except FileError Unit) := do
  match p.parent? with
  | none => return .ok ()
  | some parent =>
    if parent.text.isEmpty || (← Program.kindAt parent).isSome then return .ok ()
    else makeDirectories parent

/-! ## Files -/

/-- Writes a text to a file. -/
def saveText (p : Path) (text : String) : Operation Unit := do
  orFail .output (← prepareDirectory p)
  orFail .output (← Program.writeAt p text)

/-- Prints a result, or writes it to a file and says so. -/
def deliver (target : Option Path) (text : String) (done : Path → Program Unit) :
    Operation Unit := do
  match target with
  | some p => do
    saveText p text
    done p
  | none => Program.printText text

example : noteLine "Locked" "x" = "      Locked x\n" := by decide +kernel

end Pinfile.Operation
