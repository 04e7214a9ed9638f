import Pinfile.CommandLine.Basic
import Pinfile.Operation.Commands

/-!
# Reading and carrying out command lines

A level is read argument by argument. A switch that takes a value gets it from its own argument,
`--output=x`, `-ox` or `-o=x`, or from the next one, which must not look like a switch. Short
switches may be joined, `-vm x`. After `--` every argument is a word. At the program's own level the
first argument that names a command ends the level, and the rest is read at the command's level.

The values of a switch are *pending* until the next argument that is no value of it; only then is it
checked whether the switch was given before and whether its values are fit. Faults are found in this
order: at the command's level first, and at each level from the first argument to the last, then the
pending values, then the value that the environment gives for the manifest, then what is missing.

A command line that was read stands for an operation. Its paths are texts, and are taken from the
working directory like those of the operations.
-/

namespace Pinfile.CommandLine

/-- What a level has set so far, in order. -/
abbrev Settings := List (Field × List String)

/-- Where the reading of a level stands. -/
structure ReadState where
  settings : Settings := []
  /-- The field that was named last, with its values so far. -/
  pending : Option (Field × List String) := none
  /-- A double dash has been met. -/
  wordsOnly : Bool := false
deriving DecidableEq, Repr

/-! ## Settings -/

namespace Settings

/-- The field has been set. -/
def has (s : Settings) (f : Field) : Bool := s.any fun e => e.1 == f

/-- The values of a field in order. -/
def values (s : Settings) (f : Field) : List String :=
  s.flatMap fun e => if e.1 = f then e.2 else []

/-- The value of a field that is set once. -/
def value? (s : Settings) (f : Field) : Option String := (s.values f).head?

/-- Sets a field. -/
def set (s : Settings) (f : Field) (values : List String) : Except Refusal Settings :=
  if f.takesValue && values.isEmpty then .error .invalidValue
  else if !f.isRepeatable && s.has f then .error .repeated
  else if f.isPath && values.contains "" then .error .invalidValue
  else .ok (s ++ [(f, values)])

end Settings

namespace ReadState

/-! ## One argument -/

/-- Sets the pending field. -/
def settle (s : ReadState) : Except Refusal ReadState :=
  match s.pending with
  | none => .ok s
  | some (f, values) =>
    (s.settings.set f values).map fun settings => { s with settings, pending := none }

/-- The next argument is the value of the switch before it. -/
def awaitsValue (s : ReadState) : Bool := s.pending.any fun p => p.2.isEmpty

/-- Sets a field at once. -/
def give (s : ReadState) (f : Field) (values : List String) : Except Refusal ReadState := do
  let s ← s.settle
  let settings ← s.settings.set f values
  return { s with settings }

/-- Makes a field pending. -/
def await (s : ReadState) (f : Field) (values : List String) : Except Refusal ReadState := do
  let s ← s.settle
  return { s with pending := some (f, values) }

/-- Ends the reading with the answer that a switch asks for. -/
def answer (s : ReadState) (r : Refusal) : Except Refusal ReadState := do
  let _ ← s.settle
  throw r

/-- Takes a long switch, with its value if one is joined to it. -/
def takeLong (l : Level) (s : ReadState) (name : String) (joined : Option String) :
    Except Refusal ReadState :=
  match l.long? name with
  | none => .error .unknownArgument
  | some (.set f) =>
    if f.takesValue then
      match joined with
      | some v => s.give f [v]
      | none => s.await f []
    else if joined.isSome then .error .unwantedValue
    else s.give f []
  | some .help => if joined.isSome then .error .unwantedValue else s.answer .help
  | some .version => if joined.isSome then .error .unwantedValue else s.answer .version

/-- The value in what follows a short switch: an equals sign before it is left out. -/
def joinedValue : List Char → String
  | '=' :: rest => String.ofList rest
  | cs => String.ofList cs

/-- Takes joined short switches. -/
def takeShorts (l : Level) (s : ReadState) : List Char → Except Refusal ReadState
  | [] => .ok s
  | c :: rest =>
    match l.short? c with
    | none => .error .unknownArgument
    | some (.set f) =>
      if f.takesValue then
        if rest.isEmpty then s.await f [] else s.give f [joinedValue rest]
      else (s.give f []).bind fun s => takeShorts l s rest
    | some .help => s.answer .help
    | some .version => s.answer .version

/-- The refusal of a word that a level has no use for. -/
def strayWord (l : Level) (s : ReadState) (word : String) : Refusal :=
  match l with
  | .program =>
    if s.wordsOnly && ((CommandName.ofWord? word).isSome || word == helpWord) then .unknownArgument
    else .unknownCommand
  | .command _ => .unknownArgument

/-- Takes a word. -/
def takeWord (l : Level) (s : ReadState) (word : String) : Except Refusal ReadState :=
  match l.wordField? with
  | none => .error (s.strayWord l word)
  | some f =>
    match s.pending with
    | some (g, values) =>
      if g = f then .ok { s with pending := some (f, values ++ [word]) } else s.await f [word]
    | none => s.await f [word]

/-- Cuts a long switch into its name and the value joined to it. -/
def cutLong (cs : List Char) : String × Option String :=
  match cs.dropWhile (· != '=') with
  | [] => (String.ofList cs, none)
  | _ :: value => (String.ofList (cs.takeWhile (· != '=')), some (String.ofList value))

/-- Takes an argument that is no command. -/
def take (l : Level) (s : ReadState) (arg : String) : Except Refusal ReadState :=
  if s.wordsOnly then s.takeWord l arg
  else
    match arg.toList with
    | ['-', '-'] => .ok { s with wordsOnly := true }
    | '-' :: '-' :: rest =>
      let (name, joined) := cutLong rest
      s.takeLong l name joined
    | '-' :: c :: rest => s.takeShorts l (c :: rest)
    | _ =>
      match s.pending with
      | some (f, []) => .ok { s with pending := some (f, [arg]) }
      | _ => s.takeWord l arg

end ReadState

/-! ## A level -/

/-- What ends the program's own level: a command with the arguments after it. -/
abbrev Followed := Option (CommandName × List String)

/-- The answer to a request for help on a command: a chain of more than one word leads nowhere. -/
def helpOn : List String → Refusal
  | [] => .help
  | [word] =>
    if (CommandName.ofWord? word).isSome || word == helpWord then .help else .unknownCommand
  | _ => .unknownCommand

/-- Reads a level up to a command or the end. -/
def readLevel (l : Level) (s : ReadState) : List String → Except Refusal (ReadState × Followed)
  | [] => .ok (s, none)
  | arg :: rest =>
    if l = .program && !s.wordsOnly && !s.awaitsValue then
      if arg = helpWord then .error (helpOn rest)
      else
        match CommandName.ofWord? arg with
        | some name => .ok (s, some (name, rest))
        | none => (s.take l arg).bind fun s => readLevel l s rest
    else (s.take l arg).bind fun s => readLevel l s rest

/-- The settings of a level, and the manifest that the environment names where the level does
not. -/
structure LevelSettings where
  settings : Settings
  fromEnvironment : Option String
deriving DecidableEq, Repr

/-- Ends a level: settles what is pending, and looks at the environment for a manifest. -/
def finishLevel (environment : Option String) (s : ReadState) : Except Refusal LevelSettings := do
  let s ← s.settle
  if s.settings.has .manifest then return ⟨s.settings, none⟩
  else if environment = some "" then throw .invalidValue
  else return ⟨s.settings, environment⟩

/-! ## The whole line -/

/-- The command of a level's settings. -/
def commandOf (name : CommandName) (s : Settings) : Except Refusal Command :=
  match name with
  | .check => .ok .check
  | .showEnvironment => .ok (.showEnvironment (s.values .groups) (s.has .json))
  | .lock => .ok (.lock (s.has .checkOnly))
  | .merge =>
    if s.has .inputs then .ok (.merge (s.values .inputs) (s.value? .output))
    else .error .missingArgument
  | .exportRequirements =>
    .ok (.exportRequirements (s.values .groups) (s.value? .output))

/-- Reads the arguments of a command. -/
def readCommand (environment : Option String) (name : CommandName) (args : List String) :
    Except Refusal (Command × LevelSettings) := do
  let (s, _) ← readLevel (.command name) {} args
  let inner ← finishLevel environment s
  return (← commandOf name inner.settings, inner)

/-- The refusal of a line without a command. -/
def withoutCommand (outer : LevelSettings) : Refusal :=
  if outer.settings.isEmpty && outer.fromEnvironment.isNone then .nothingAsked else .missingCommand

/-- Reads a command line. The manifest named closest to the end counts, and one that the environment
names counts least. -/
def read (environment : Option String) (args : List String) : Except Refusal Invocation := do
  let (s, followed) ← readLevel .program {} args
  match followed with
  | none => do
    let outer ← finishLevel environment s
    throw (withoutCommand outer)
  | some (name, rest) => do
    let (command, inner) ← readCommand environment name rest
    let outer ← finishLevel environment s
    return {
      command
      verbose := inner.settings.has .verbose || outer.settings.has .verbose
      manifest := inner.settings.value? .manifest <|> outer.settings.value? .manifest <|>
        environment }

example : (read none ["-vma", "check", "-m", "b"]).toOption =
    some ⟨.check, true, some "b"⟩ := by decide +kernel
example : (read none ["merge", "a", "-o=x", "--", "-b"]).toOption =
    some ⟨.merge ["a", "-b"] (some "x"), false, none⟩ := by decide +kernel
example : (read (some "e") ["show", "-gA", "--group", "B", "--json"]).toOption =
    some ⟨.showEnvironment ["A", "B"] true, false, some "e"⟩ := by decide +kernel

/-! ## Carrying out -/

/-- The operation of a command, for the manifest that was named. -/
def Command.perform (here : Setting) (named : Option Path) (verbose : Bool) :
    Command → Operation Unit
  | .check => Operation.check here named verbose
  | .showEnvironment groups json => Operation.showEnvironment here named groups json
  | .lock checkOnly =>
    if checkOnly then Operation.checkLock here named else Operation.lock here named
  | .merge inputs output =>
    Operation.mergeFiles here (inputs.map Path.ofText) (output.map Path.ofText)
  | .exportRequirements groups output =>
    Operation.exportRequirements here named groups (output.map Path.ofText)

/-- The operation of a command line. -/
def Invocation.perform (here : Setting) (i : Invocation) : Operation Unit :=
  i.command.perform here (i.manifest.map Path.ofText) i.verbose

end Pinfile.CommandLine
