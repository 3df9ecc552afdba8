import ConditionalTags.Json.Basic
import ConditionalTags.Json.TagObject
import ConditionalTags.Outline
import ConditionalTags.Program.Arguments

/-! # Sessions

What the program does with a request. A session is over at once, or it waits for the contents of a
source of tags; the settings are judged before any source is asked for. Nothing is printed before
the whole value has been accepted. How a failure is reported is left to the caller.
-/
namespace ConditionalTags

inductive TagSource
  | standardInput
  | file (path : String)
  deriving DecidableEq, Repr

def TagSource.name : TagSource → String
  | standardInput => "stdin"
  | file path => path

/-- What can go wrong before there is a value to judge. -/
inductive Failure
  | levelUnknown (unknown : UnknownLevel)
  | unreadable (source : TagSource)
  | noTagObject
  deriving DecidableEq, Repr

def Failure.message : Failure → String
  | levelUnknown unknown => unknown.description
  | unreadable source => "failed to read tags from " ++ source.name
  | noTagObject => "tags must be a JSON object of string values"

structure Report where
  exitCode : UInt32
  output : String
  errors : String
  deriving DecidableEq, Repr

/-- What a command comes to, whatever the log level. -/
structure Transcript where
  succeeded : Bool
  output : String
  notes : List Note
  deriving DecidableEq, Repr

namespace Transcript

def readerTarget : String := "conditional_restrictions::parser::clause"

def programTarget : String := "condres::cli"

/-- The records of reading a value: each clause as it is completed, then their number. -/
def readingNotes (value : String) : List Note :=
  match value.toList with
  | [] => []
  | text =>
    let scan := Clause.scan 0 text
    scan.entries.map (fun entry =>
      .record .trace readerTarget ("parsed clause `" ++ toString entry.clause ++ "`")) ++
    match scan.verdict with
    | .ok clauses =>
      [.record .debug readerTarget
        ("parsed " ++ toString clauses.length ++ " clause(s) from `" ++ value ++ "`")]
    | .error _ => []

def rejected (value : String) (fault : Fault) : Transcript where
  succeeded := false
  output := ""
  notes := readingNotes value ++
    [.record .debug programTarget ("rejected conditional value error=" ++ toString fault),
      .diagnostic value fault]

def accepted (value : String) (output : String) (notes : List Note) : Transcript where
  succeeded := true
  output := output
  notes := readingNotes value ++ notes

def failed (printed : Failure → String) (failure : Failure) : Transcript :=
  ⟨false, "", [.failure (printed failure)]⟩

def parse (value : String) (json : Bool) : Transcript :=
  match Clause.readAll (some value) with
  | .error fault => rejected value fault
  | .ok clauses =>
    accepted value
      (if json then (Clause.allToJson clauses).document else Clause.outlineText clauses)
      [.record .info programTarget
        ("parsed conditional value clauses=" ++ toString clauses.length)]

def format (value : String) : Transcript :=
  match Clause.readAll (some value) with
  | .error fault => rejected value fault
  | .ok clauses => accepted value ((Restriction.mk none clauses).written ++ "\n") []

def tags (baseKey : String) (tags : Tags) : Transcript :=
  let value := (tags.value? (Restriction.conditionalKey baseKey)).getD ""
  match Restriction.read baseKey tags with
  | .error fault => rejected value fault
  | .ok restriction =>
    accepted value restriction.toJson.document
      [.record .info programTarget ("parsed conditional restrictions base_key=" ++ baseKey ++
        " clauses=" ++ toString restriction.exceptions.length)]

/-- `contents` is missing if the source could not be read. -/
def tagsFrom (printed : Failure → String) (baseKey : String) (source : TagSource)
    (contents : Option ByteArray) : Transcript :=
  match contents.bind String.fromUTF8? with
  | none => failed printed (.unreadable source)
  | some text =>
    match Tags.read? text.toList with
    | none => failed printed .noTagObject
    | some read => tags baseKey read

def configured (settings : Settings) : Note :=
  .record .debug programTarget ("configured condres config=CliConfig \x7b log_level: " ++
    settings.logLevel.name.capitalize ++ " \x7d")

def report (transcript : Transcript) (settings : Settings) : Report where
  exitCode := if transcript.succeeded then 0 else 1
  output := transcript.output
  errors := Note.shown settings.logLevel (configured settings :: transcript.notes)

end Transcript

inductive Session
  | finished (report : Report)
  | awaiting (source : TagSource) (resume : Option ByteArray → Report)

namespace Session

def start (printed : Failure → String) (environment : Variable) (request : Request) : Session :=
  match Settings.ofVariable environment with
  | .error unknown => .finished ⟨1, "", printed (.levelUnknown unknown)⟩
  | .ok settings =>
    let settings := settings.override request.logLevel
    match request.command with
    | .parse value json => .finished ((Transcript.parse value json).report settings)
    | .format value => .finished ((Transcript.format value).report settings)
    | .tags baseKey file =>
      let source := file.elim .standardInput .file
      .awaiting source fun contents =>
        (Transcript.tagsFrom printed baseKey source contents).report settings

def report (contents : TagSource → Option ByteArray) : Session → Report
  | finished report => report
  | awaiting source resume => resume (contents source)

end Session

end ConditionalTags
