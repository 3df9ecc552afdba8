import ConditionalTags.Program.Session
import Mathlib.Data.List.Infix

/-! # Reports of failures

A failure is reported by its message, with details on lines of their own behind it. The message quotes
a path or the text given for a level, and those may hold anything; apart from what is quoted, no
diagnostic is found in such a report.
-/
namespace ConditionalTags

def Text.unlines (lines : List (List Char)) : List Char :=
  lines.flatMap (· ++ ['\n'])

namespace Failure
open Text Fault

/-- A line of details is blank, a heading, or indented. -/
def isDetail (line : List Char) : Bool :=
  line.isEmpty || line == "Caused by:".toList || line == "Location:".toList ||
    "   ".toList.isPrefixOf line

/-- Failures are reported by a label and their message, and details behind them. -/
def Reports (printed : Failure → String) : Prop :=
  ∀ failure, ∃ details : List (List Char), (∀ line ∈ details, '\n' ∉ line ∧ isDetail line = true) ∧
    (printed failure).toList =
      "Error: ".toList ++ failure.message.toList ++ '\n' :: unlines details

/-- What a failure's message says in words that are not its own. -/
def quoted : Failure → String
  | levelUnknown unknown => unknown.text
  | unreadable source => source.name
  | noTagObject => ""

def opening : Failure → String
  | levelUnknown _ => "Error: invalid configuration: unknown log level '"
  | unreadable _ => "Error: failed to read tags from "
  | noTagObject => "Error: tags must be a JSON object of string values"

def closing : Failure → String
  | levelUnknown _ => "' in CONDRES_LOG_LEVEL or --log-level"
  | unreadable _ | noTagObject => ""

variable {printed : Failure → String} {failure : Failure}

theorem message_unreadable (source : TagSource) :
    (unreadable source).message = "failed to read tags from " ++ source.name := rfl

end Failure

end ConditionalTags
