/-!
# Command lines

What a command line may hold. It has two levels, the program's own and that of a command. Each level
knows certain switches; the program's own are known at both. A command may take further words, as
`merge` takes its inputs. Why a command line is refused, or only asks for help, is told by its kind
alone.
-/

namespace Pinfile.CommandLine

/-! ## What is asked for -/

/-- A command with what was said about it. -/
inductive Command where
  | check
  | showEnvironment (groups : List String) (json : Bool)
  | lock (checkOnly : Bool)
  | merge (inputs : List String) (output : Option String)
  | exportRequirements (groups : List String) (output : Option String)
deriving DecidableEq, Repr

/-- A command line that was understood. -/
structure Invocation where
  command : Command
  verbose : Bool := false
  manifest : Option String := none
deriving DecidableEq, Repr

/-- Why a command line is not carried out. -/
inductive Refusal where
  /-- Help was asked for. -/
  | help
  /-- The version was asked for. -/
  | version
  /-- Nothing at all was asked for, so help is due. -/
  | nothingAsked
  /-- Something was said, but no command given. -/
  | missingCommand
  | unknownCommand
  | unknownArgument
  | missingArgument
  /-- A switch without its value, or a path that is empty. -/
  | invalidValue
  /-- A value for a switch that takes none. -/
  | unwantedValue
  /-- A switch given twice. -/
  | repeated
deriving DecidableEq, Repr

/-- The exit code: asking for help or the version is no failure. -/
def Refusal.exitCode : Refusal → Nat
  | .help | .version => 0
  | _ => 2

/-! ## Fields and switches -/

/-- What the switches and words of a command line set. -/
inductive Field where
  | verbose
  | manifest
  | groups
  | json
  | checkOnly
  | output
  | inputs
deriving DecidableEq, Repr

/-- The field takes values. -/
def Field.takesValue : Field → Bool
  | .manifest | .groups | .output | .inputs => true
  | .verbose | .json | .checkOnly => false

/-- The field may be set more than once. -/
def Field.isRepeatable : Field → Bool
  | .groups | .inputs => true
  | _ => false

/-- The values of the field are paths, which are not empty. -/
def Field.isPath : Field → Bool
  | .manifest | .output | .inputs => true
  | _ => false

/-- What a switch does. -/
inductive Effect where
  | set (f : Field)
  | help
  | version
deriving DecidableEq, Repr

/-- A switch with its spellings. -/
structure Switch where
  short : Option Char
  long : String
  effect : Effect
deriving DecidableEq, Repr

/-! ## Levels -/

/-- The names of the commands. -/
inductive CommandName where
  | check
  | showEnvironment
  | lock
  | merge
  | exportRequirements
deriving DecidableEq, Repr

namespace CommandName

/-- Every command with the word for it. -/
def words : List (String × CommandName) :=
  [("check", .check), ("show", .showEnvironment), ("lock", .lock), ("merge", .merge),
    ("export", .exportRequirements)]

/-- The command that a word names. -/
def ofWord? (word : String) : Option CommandName := words.lookup word

end CommandName

/-- The word that asks for help on a command. -/
def helpWord : String := "help"

/-- The program's own level, or that of a command. -/
inductive Level where
  | program
  | command (name : CommandName)
deriving DecidableEq, Repr

/-- The switches that both levels know. -/
def sharedSwitches : List Switch :=
  [⟨some 'v', "verbose", .set .verbose⟩, ⟨some 'm', "manifest", .set .manifest⟩,
    ⟨some 'h', "help", .help⟩]

/-- The switch that names a group. -/
def groupSwitch : Switch := ⟨some 'g', "group", .set .groups⟩

/-- The switch that names an output file. -/
def outputSwitch : Switch := ⟨some 'o', "output", .set .output⟩

namespace Level

/-- The switches that a level knows besides the shared ones. -/
def ownSwitches : Level → List Switch
  | program => [⟨some 'V', "version", .version⟩]
  | command .check => []
  | command .showEnvironment => [groupSwitch, ⟨none, "json", .set .json⟩]
  | command .lock => [⟨none, "check", .set .checkOnly⟩]
  | command .merge => [outputSwitch]
  | command .exportRequirements => [groupSwitch, outputSwitch]

/-- The switches that a level knows. -/
def switches (l : Level) : List Switch := sharedSwitches ++ l.ownSwitches

/-- What the switch with a short spelling does. -/
def short? (l : Level) (c : Char) : Option Effect :=
  (l.switches.find? fun s => s.short == some c).map Switch.effect

/-- What the switch with a long spelling does. -/
def long? (l : Level) (word : String) : Option Effect :=
  (l.switches.find? fun s => s.long == word).map Switch.effect

/-- The field that further words set. -/
def wordField? : Level → Option Field
  | command .merge => some .inputs
  | _ => none

end Level
end Pinfile.CommandLine
