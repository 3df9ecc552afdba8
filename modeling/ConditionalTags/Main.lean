import ConditionalTags.Program.Session

/-! # The command line program -/
namespace ConditionalTags

def usage : List String :=
  ["Usage: condres [--log-level LEVEL] COMMAND",
    "",
    "Inspect conditional restriction tag values.",
    "",
    "Commands:",
    "  parse [--json] VALUE         Print the clauses of a conditional value",
    "  tags [--file FILE] BASE_KEY  Print a tag and its conditional variant from a JSON object",
    "  format VALUE                 Print the canonical form of a conditional value",
    "  help [COMMAND]               Print this text",
    "",
    "Levels: trace, debug, info, warn, error"]

def usageText : String :=
  String.join (usage.map (· ++ "\n"))

def Refusal.message : Refusal → String
  | helpWanted => usageText
  | versionWanted => versionText
  | nothingGiven => usageText
  | commandMissing => "error: a command is required\n"
  | commandUnknown => "error: unknown command\n"
  | argumentUnknown => "error: unexpected argument\n"
  | operandMissing => "error: a required argument is missing\n"
  | optionRepeated => "error: an option is given more than once\n"
  | valueUnexpected => "error: an option that takes no value was given one\n"
  | valueMissing => "error: an option needs a value\n"
  | levelUnknown => "error: unknown log level\n"

def Failure.report (failure : Failure) : String :=
  "Error: " ++ failure.message ++ "\n"

/-- The runtime puts replacement characters into a variable that does not hold text. A text that has one
of its own cannot be told from that here. -/
def environmentVariable (name : String) : IO Variable := do
  match ← IO.getEnv name with
  | none => return .unset
  | some content => return if content.contains '\uFFFD' then .notText else .text content

def contents : TagSource → IO (Option ByteArray)
  | .standardInput => do
    try return some (← (← IO.getStdin).readBinToEnd) catch _ => return none
  | .file path => do
    try return some (← IO.FS.readBinFile path) catch _ => return none

end ConditionalTags

open ConditionalTags in
def main (arguments : List String) : IO UInt32 := do
  match Request.ofArguments arguments with
  | .error refusal =>
    if refusal.exitCode = 0 then IO.print refusal.message else IO.eprint refusal.message
    return refusal.exitCode
  | .ok request =>
    let environment ← environmentVariable LogLevel.variableName
    let report ← match Session.start Failure.report environment request with
      | .finished report => pure report
      | .awaiting source resume => resume <$> contents source
    IO.print report.output
    IO.eprint report.errors
    return report.exitCode
