import ConditionalTags.Program.Logging
import ConditionalTags.Text.Cut

/-! # Command line arguments

What the arguments ask for, or why they ask for nothing. Options may stand before or after a
command's operand, and an option's value beside it or behind an equals sign. A value that stands
beside its option is looked at only when the next option or operand is taken, or at the end.
-/
namespace ConditionalTags

inductive Command
  | parse (value : String) (json : Bool)
  | tags (baseKey : String) (file : Option String)
  | format (value : String)
  deriving DecidableEq, Repr

structure Request where
  logLevel : Option LogLevel
  command : Command
  deriving DecidableEq, Repr

/-- Why arguments are no request: help or the version is wanted, or they are misused. -/
inductive Refusal
  | helpWanted
  | versionWanted
  | nothingGiven
  | commandMissing
  | commandUnknown
  | argumentUnknown
  | operandMissing
  | optionRepeated
  | valueUnexpected
  | valueMissing
  | levelUnknown
  deriving DecidableEq, Repr

def Refusal.exitCode : Refusal → UInt32
  | helpWanted | versionWanted => 0
  | _ => 2

namespace Arguments
open Text

inductive CommandName
  | parse
  | tags
  | format
  deriving DecidableEq, Repr

def CommandName.ofWord? : String → Option CommandName
  | "parse" => some parse
  | "tags" => some tags
  | "format" => some format
  | _ => none

inductive Switch
  | help
  | version
  | json
  deriving DecidableEq, Repr

inductive Setting
  | logLevel
  | file
  deriving DecidableEq, Repr

/-- The options behind a command, or in front of it where there is no command yet. -/
def longOption? (command : Option CommandName) : String → Option (Switch ⊕ Setting)
  | "help" => some (.inl .help)
  | "log-level" => some (.inr .logLevel)
  | "version" => if command = none then some (.inl .version) else none
  | "json" => if command = some .parse then some (.inl .json) else none
  | "file" => if command = some .tags then some (.inr .file) else none
  | _ => none

def shortOption? (command : Option CommandName) : Char → Option Switch
  | 'h' => some .help
  | 'V' => if command = none then some .version else none
  | _ => none

/-- What has been given so far on one side of the command. -/
structure Given where
  logLevel : Option LogLevel := none
  file : Option String := none
  json : Bool := false
  operand : Option String := none
  /-- An option that is not settled yet, with the value beside it once that has come. -/
  waiting : Option (Setting × Option String) := none
  /-- Whether two hyphens have ended the options. -/
  optionsEnded : Bool := false
  deriving DecidableEq, Repr

namespace Given

def accept (given : Given) (setting : Setting) (value : String) : Except Refusal Given :=
  match setting with
  | .logLevel =>
    if given.logLevel.isSome then .error .optionRepeated
    else
      match LogLevel.read? value with
      | some level => .ok { given with logLevel := some level }
      | none => .error .levelUnknown
  | .file =>
    if given.file.isSome then .error .optionRepeated
    else if value.isEmpty then .error .valueMissing
    else .ok { given with file := some value }

def settle (given : Given) : Except Refusal Given :=
  match given.waiting with
  | none => .ok given
  | some (_, none) => .error .valueMissing
  | some (setting, some value) => { given with waiting := none }.accept setting value

def switch (given : Given) (switch : Switch) : Except Refusal Given := do
  let given ← given.settle
  match switch with
  | .help => throw .helpWanted
  | .version => throw .versionWanted
  | .json => if given.json then throw .optionRepeated else return { given with json := true }

def long (command : Option CommandName) (given : Given) (name : String) (value : Option String) :
    Except Refusal Given :=
  match longOption? command name, value with
  | none, _ => .error .argumentUnknown
  | some (.inl _), some _ => .error .valueUnexpected
  | some (.inl switch), none => given.switch switch
  | some (.inr setting), some value => do (← given.settle).accept setting value
  | some (.inr setting), none => do return { ← given.settle with waiting := some (setting, none) }

def short (command : Option CommandName) (given : Given) (letter : Char) : Except Refusal Given :=
  match shortOption? command letter with
  | some switch => given.switch switch
  | none => .error .argumentUnknown

/-- Takes an option or the value beside one. Any other argument is a plain word. -/
def option? (command : Option CommandName) (given : Given) (argument : String) :
    Option (Except Refusal Given) :=
  if given.optionsEnded then none
  else
    match argument.toList, given.waiting with
    | ['-', '-'], _ => some (.ok { given with optionsEnded := true })
    | '-' :: '-' :: text, _ =>
      let (name, value) := cut '=' text
      some (given.long command (String.ofList name) (value.map String.ofList))
    | '-' :: letter :: _, _ => some (given.short command letter)
    | _, some (setting, none) => some (.ok { given with waiting := some (setting, some argument) })
    | _, _ => none

def operandWord (given : Given) (word : String) : Except Refusal Given :=
  if given.operand.isSome then .error .argumentUnknown
  else do return { ← given.settle with operand := some word }

def step (command : CommandName) (given : Given) (argument : String) : Except Refusal Given :=
  (given.option? (some command) argument).getD (given.operandWord argument)

def command (name : CommandName) (given : Given) : Except Refusal Command :=
  match given.operand, name with
  | none, _ => .error .operandMissing
  | some value, .parse => .ok (.parse value given.json)
  | some baseKey, .tags => .ok (.tags baseKey given.file)
  | some value, .format => .ok (.format value)

end Given

def readCommand (name : CommandName) (arguments : List String) : Except Refusal Request := do
  let given ← (← arguments.foldlM (Given.step name) {}).settle
  return ⟨given.logLevel, ← given.command name⟩

def isCommandWord (word : String) : Bool :=
  word == "help" || (CommandName.ofWord? word).isSome

def help : List String → Refusal
  | [] => .helpWanted
  | [word] => if isCommandWord word then .helpWanted else .commandUnknown
  | _ => .commandUnknown

/-- The arguments from the first one that `given` does not hold. -/
def readFrom (given : Given) : List String → Except Refusal Request
  | [] => do
    if (← given.settle).logLevel.isSome then throw .commandMissing else throw .nothingGiven
  | argument :: rest =>
    match given.option? none argument, CommandName.ofWord? argument with
    | some next, _ => do readFrom (← next) rest
    | none, name? =>
      if given.optionsEnded then
        .error (if isCommandWord argument then .argumentUnknown else .commandUnknown)
      else if argument = "help" then .error (help rest)
      else
        match name? with
        | none => .error .commandUnknown
        | some name => do
          let request ← readCommand name rest
          let outer ← given.settle
          return { request with logLevel := request.logLevel.or outer.logLevel }

end Arguments

/-- A level behind the command takes the place of one in front of it. -/
def Request.ofArguments (arguments : List String) : Except Refusal Request :=
  Arguments.readFrom {} arguments

def versionText : String := "condres 0.1.0\n"

end ConditionalTags
