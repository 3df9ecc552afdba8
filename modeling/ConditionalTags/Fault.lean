/-! # Faults of a conditional value

Why a conditional value is rejected, and the character it is rejected at. Positions count characters
from zero. Only a value without any condition has no position to blame. A rejected value is shown
under its fault, with carets below what is at fault.
-/
namespace ConditionalTags

inductive FaultKind
  | tooDeep
  | unclosedBracket
  | unopenedBracket
  | emptyGroup
  | mixedConnectives
  | noConditions
  | noValue
  | unfinishedClause
  deriving DecidableEq, Repr

def FaultKind.message : FaultKind → String
  | .tooDeep => "Too many opening brackets"
  | .unclosedBracket => "Expected a closing bracket"
  | .unopenedBracket => "Unexpected closing bracket"
  | .emptyGroup => "Empty group"
  | .mixedConnectives => "mix of AND/OR without braces"
  | .noConditions => "No conditions"
  | .noValue => "No conditional value"
  | .unfinishedClause => "Unexpected end of input"

instance : ToString FaultKind := ⟨FaultKind.message⟩

structure Fault where
  kind : FaultKind
  position : Option Nat
  deriving DecidableEq, Repr

namespace Fault

def message (fault : Fault) : String :=
  fault.kind.message

def description (fault : Fault) : String :=
  match fault.position with
  | none => fault.message
  | some position => fault.message ++ " at character " ++ toString position ++ " (zero-based)"

instance : ToString Fault := ⟨description⟩

theorem lineBreak_not_mem_message (fault : Fault) : '\n' ∉ fault.message.toList := by
  rw [message]
  cases fault.kind <;> decide

/-- The carets below a value of `width` characters; one may stand just behind its end. -/
def marker (width : Nat) : Option Nat → List Char
  | some position => List.replicate (min position width) ' ' ++ ['^']
  | none => List.replicate (max width 1) '^'

theorem lineBreak_not_mem_marker (width : Nat) (position : Option Nat) :
    '\n' ∉ marker width position := by
  cases position <;> simp [marker]

def diagnostic (fault : Fault) (value : String) : String :=
  "error: " ++ fault.message ++ "\n  | " ++ value ++ "\n  | " ++
    String.ofList (marker value.length fault.position) ++ "\n"

end Fault

end ConditionalTags
