import ConditionalTags.Condition.Reader
import ConditionalTags.Text.Cut

/-! # Clauses and restrictions

A clause gives a value and the condition under which it holds. In writing the two are parted by `@`,
the condition always stands in brackets, and clauses are parted by a semicolon and a space. A scan
reads clause after clause until the text ends or a condition is at fault. What it has read is judged
afterwards: there must be a clause, every clause needs a value, and no text may be left over.

A restriction is a tag read together with its conditional variant: the tag gives the default, the
variant the exceptions to it.
-/
namespace ConditionalTags

structure Clause where
  value : String
  condition : Option Condition
  deriving DecidableEq, Repr

namespace Clause

def writtenCondition : Condition → List Char
  | .leaf text => Condition.bracketed (Condition.leaf text).written
  | condition => condition.written

def written (clause : Clause) : List Char :=
  match clause.condition with
  | some condition => clause.value.toList ++ " @ ".toList ++ writtenCondition condition
  | none => clause.value.toList

def writtenAll (clauses : List Clause) : List Char :=
  List.intercalate "; ".toList (clauses.map written)

instance : ToString Clause := ⟨fun clause => String.ofList clause.written⟩

open Text

structure Entry where
  clause : Clause
  sign : Nat
  deriving DecidableEq, Repr

inductive Ending
  | failed (fault : Fault)
  | settled
  /-- A last value has no condition. `mark` is the position of its first character that is not blank. -/
  | dangling (mark : Option Nat)
  deriving DecidableEq, Repr

structure Scan where
  entries : List Entry
  ending : Ending
  deriving DecidableEq, Repr

def firstMark (position : Nat) (text : List Char) : Option Nat :=
  (text.findIdx? fun c => !isBlank c).map (position + ·)

theorem length_next_lt {text value after skipped next : List Char} {position : Nat}
    {stop : Condition.Stop} (hv : cut '@' text = (value, some after))
    (hr : Condition.read position (after.dropWhile (· == ' ')) = .ok stop)
    (hs : cut ';' stop.rest = (skipped, some next)) : next.length < text.length := by
  have hrest := (Condition.rest_suffix_of_read hr).length_le
  have hbody := (List.dropWhile_suffix (· == ' ') : after.dropWhile (· == ' ') <:+ after).length_le
  have htext := congrArg List.length (eq_of_cut_eq_some hv).1
  have hnext := congrArg List.length (eq_of_cut_eq_some hs).1
  simp only [List.length_append, List.length_cons] at htext hnext
  omega

/-- Reads the clauses of `text`; `position` is that of its first character. Only plain spaces are
skipped after the `@`, and whatever stands between a condition and the next semicolon is skipped. -/
def scan (position : Nat) (text : List Char) : Scan :=
  match hv : cut '@' text with
  | (value, none) => ⟨[], .dangling (firstMark position value)⟩
  | (value, some after) =>
    let sign := position + value.length
    let spaces := after.takeWhile (· == ' ')
    let body := after.dropWhile (· == ' ')
    if body.isEmpty then ⟨[], .dangling (firstMark position value)⟩
    else
      match hr : Condition.read (sign + 1 + spaces.length) body with
      | .error fault => ⟨[], .failed fault⟩
      | .ok stop =>
        let entry : Entry := ⟨⟨String.ofList (trim value), some stop.condition⟩, sign⟩
        match hs : cut ';' stop.rest with
        | (_, none) => ⟨[entry], .settled⟩
        | (skipped, some next) =>
          have : next.length < text.length := length_next_lt hv hr hs
          let later := scan (stop.position + skipped.length + 1) next
          { later with entries := entry :: later.entries }
termination_by text.length

def Scan.verdict (scan : Scan) : Except Fault (List Clause) :=
  match scan.ending, scan.entries, scan.entries.find? fun entry => entry.clause.value.isEmpty with
  | .failed fault, _, _ => .error fault
  | _, [], _ => .error ⟨.noConditions, none⟩
  | _, _, some entry => .error ⟨.noValue, some entry.sign⟩
  | .dangling (some mark), _, none => .error ⟨.unfinishedClause, some mark⟩
  | _, entries, none => .ok (entries.map Entry.clause)

/-- The clauses of a tag's value. An absent tag and an empty value have none. -/
def readAll (value : Option String) : Except Fault (List Clause) :=
  match (value.getD "").toList with
  | [] => .ok []
  | text => (scan 0 text).verdict

end Clause

/-- Keys and values in the order they were given. Of several values under one key the last counts. -/
abbrev Tags := List (String × String)

def Tags.value? (tags : Tags) (key : String) : Option String :=
  tags.reverse.lookup key

structure Restriction where
  defaultValue : Option String
  exceptions : List Clause
  deriving DecidableEq, Repr

namespace Restriction

def conditionalSuffix : String := ":conditional"

def conditionalKey (baseKey : String) : String :=
  baseKey ++ conditionalSuffix

def written (restriction : Restriction) : String :=
  String.ofList (Clause.writtenAll restriction.exceptions)

def read (baseKey : String) (tags : Tags) : Except Fault Restriction := do
  return ⟨tags.value? baseKey, ← Clause.readAll (tags.value? (conditionalKey baseKey))⟩

end Restriction

end ConditionalTags
