import ConditionalTags.Fault
import ConditionalTags.Text.Blank

/-! # Log levels, settings and notes

How much the program tells about its work, and what it tells. The level comes from an environment
variable, a level on the command line takes its place, and without either only warnings are told.
Records have a level, and are shown from that level on; a diagnostic and the report of a failure are
always shown.
-/
namespace ConditionalTags

inductive LogLevel
  | trace
  | debug
  | info
  | warn
  | error
  deriving DecidableEq, Repr

namespace LogLevel

def all : List LogLevel := [trace, debug, info, warn, error]

def name : LogLevel → String
  | trace => "trace"
  | debug => "debug"
  | info => "info"
  | warn => "warn"
  | error => "error"

def label : LogLevel → String
  | trace => "TRACE"
  | debug => "DEBUG"
  | info => " INFO"
  | warn => " WARN"
  | error => "ERROR"

/-- Zero is the most talkative level. -/
def rank : LogLevel → Nat
  | trace => 0
  | debug => 1
  | info => 2
  | warn => 3
  | error => 4

def variableName : String := "CONDRES_LOG_LEVEL"

/-- Reads a level, in capitals or not, with blanks around it or not. -/
def read? (text : String) : Option LogLevel :=
  let wanted := String.ofList ((Text.trim text.toList).map Char.toLower)
  if wanted = "warning" then some warn else all.find? fun level => level.name == wanted

end LogLevel

structure UnknownLevel where
  text : String
  deriving DecidableEq, Repr

namespace UnknownLevel

def detail (unknown : UnknownLevel) : String :=
  "unknown log level '" ++ unknown.text ++ "' in " ++ LogLevel.variableName ++ " or --log-level"

def description (unknown : UnknownLevel) : String :=
  "invalid configuration: " ++ unknown.detail

end UnknownLevel

def LogLevel.read (text : String) : Except UnknownLevel LogLevel :=
  match read? text with
  | some level => .ok level
  | none => .error ⟨text⟩

/-- What the environment has for a variable. Its bytes need not be text. -/
inductive Variable
  | unset
  | notText
  | text (content : String)
  deriving DecidableEq, Repr

/-- A variable that does not hold text is taken for one that is not set. -/
def Variable.text? : Variable → Option String
  | text content => some content
  | unset | notText => none

structure Settings where
  logLevel : LogLevel := .warn
  deriving DecidableEq, Repr

namespace Settings

def ofVariable (environment : Variable) : Except UnknownLevel Settings :=
  match environment.text? with
  | some text => do return ⟨← LogLevel.read text⟩
  | none => .ok {}

def override (settings : Settings) (level : Option LogLevel) : Settings :=
  ⟨level.getD settings.logLevel⟩

end Settings

inductive Note
  | record (severity : LogLevel) (target message : String)
  | diagnostic (value : String) (fault : Fault)
  | failure (report : String)
  deriving DecidableEq, Repr

namespace Note

def isShown (level : LogLevel) : Note → Bool
  | record severity .. => level.rank ≤ severity.rank
  | diagnostic .. | failure _ => true

def written : Note → String
  | record severity target message =>
    severity.label ++ " " ++ target ++ ": " ++ message ++ "\n"
  | diagnostic value fault => fault.diagnostic value
  | failure report => report

def shown (level : LogLevel) (notes : List Note) : String :=
  String.ofList ((notes.filter (isShown level)).flatMap fun note => note.written.toList)

end Note

end ConditionalTags
