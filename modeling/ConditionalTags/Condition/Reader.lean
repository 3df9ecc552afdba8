import ConditionalTags.Condition.Written
import ConditionalTags.Fault
import ConditionalTags.Text.Blank

/-! # Reading a condition

A condition is read one character at a time. Every bracket pair is a level of its own, with its own
members and its own connective; the levels around the innermost one wait on a stack. Reading stops
at the semicolon or the closing bracket that ends the condition, or where the text ends.
-/
namespace ConditionalTags.Condition
open Text

def maxDepth : Nat := 20

structure Level where
  members : List Condition := []
  /-- Text that belongs to no member yet, newest character first. -/
  pending : List Char := []
  /-- Whether the pending text begins at a bracket, or where the condition begins. -/
  afterBracket : Bool := true
  connective : Option Connective := none
  deriving DecidableEq, Repr

namespace Level

def push (level : Level) (c : Char) : Level :=
  { level with pending := c :: level.pending }

/-- Makes the pending text a member, unless it is blank. -/
def settle (level : Level) : Level :=
  match trim level.pending.reverse with
  | [] => { level with pending := [] }
  | text => { level with members := level.members ++ [leaf (String.ofList text)], pending := [] }

/-- Takes in the bracket pair that has just been closed. The text in front of it comes after it. -/
def enter (level : Level) (inner : Condition) : Level :=
  { settle { level with members := level.members ++ [inner] } with afterBracket := true }

def connect (level : Level) (connective : Connective) (position : Nat) : Except Fault Level :=
  if level.connective.all (· == connective) then
    .ok { level.settle with afterBracket := false, connective := some connective }
  else
    .error ⟨.mixedConnectives, some position⟩

def close (level : Level) (position : Nat) : Except Fault Condition :=
  match group? (level.connective.getD .and) level.settle.members with
  | some condition => .ok condition
  | none => .error ⟨.emptyGroup, some position⟩

/-- The pending text in front of the keyword, if `c` completes the keyword. -/
def beforeKeyword? (level : Level) (c : Char) (next : Option Char) : Option (List Char) :=
  match Keyword.strip? (c :: level.pending) with
  | some before =>
    if before.head?.elim level.afterBracket (· == ' ') && Keyword.mayPrecede next then some before
    else none
  | none => none

end Level

/-- The innermost level, and the levels around it with the positions of their opened brackets. -/
structure Reading where
  level : Level := {}
  enclosing : List (Level × Nat) := []
  deriving DecidableEq, Repr

inductive Progress
  | more (reading : Reading)
  | complete (condition : Condition)
  deriving DecidableEq, Repr

/-- A condition that has been read, and the text from the position where reading stopped. -/
structure Stop where
  condition : Condition
  position : Nat
  rest : List Char
  deriving DecidableEq, Repr

namespace Reading

def openBracket (reading : Reading) (position : Nat) : Except Fault Progress :=
  if reading.enclosing.length < maxDepth then
    .ok (.more ⟨{}, (reading.level, position) :: reading.enclosing⟩)
  else
    .error ⟨.tooDeep, some position⟩

def closeBracket (reading : Reading) (position : Nat) : Except Fault Progress :=
  match reading.enclosing with
  | [] => .error ⟨.unopenedBracket, some position⟩
  | (around, _) :: enclosing => do
    let inner ← reading.level.close position
    let level := around.enter inner
    if enclosing.isEmpty then return .complete (← level.close position)
    else return .more ⟨level, enclosing⟩

def semicolon (reading : Reading) (position : Nat) : Except Fault Progress := do
  if reading.enclosing.isEmpty then return .complete (← reading.level.close position)
  else return .more { reading with level := ← reading.level.connect .or position }

def letter (reading : Reading) (position : Nat) (c : Char) (next : Option Char) :
    Except Fault Progress :=
  match reading.level.beforeKeyword? c next with
  | some before => do
    let level ← { reading.level with pending := before }.connect .and (position - 2)
    return .more { reading with level }
  | none => return .more { reading with level := reading.level.push c }

def step (reading : Reading) (position : Nat) (c : Char) (next : Option Char) :
    Except Fault Progress :=
  match c with
  | '(' => reading.openBracket position
  | ')' => reading.closeBracket position
  | ';' => reading.semicolon position
  | _ => reading.letter position c next

/-- Where the text ends, only the outermost level may be open. -/
def finish (reading : Reading) (position : Nat) : Except Fault Condition :=
  match reading.enclosing with
  | [] => reading.level.close position
  | (_, opened) :: _ => .error ⟨.unclosedBracket, some opened⟩

def run (reading : Reading) (position : Nat) : List Char → Except Fault Stop
  | [] => do return ⟨← reading.finish position, position, []⟩
  | c :: rest => do
    match ← reading.step position c rest.head? with
    | .more reading => reading.run (position + 1) rest
    | .complete condition => return ⟨condition, position, c :: rest⟩

end Reading

/-- Reads the condition that `text` begins with; `position` is that of its first character. -/
def read (position : Nat) (text : List Char) : Except Fault Stop :=
  Reading.run {} position text

namespace Reading

theorem rest_suffix_of_run {reading : Reading} {position : Nat} {text : List Char} {stop : Stop}
    (h : reading.run position text = .ok stop) : stop.rest <:+ text := by
  induction text generalizing reading position with
  | nil =>
    cases hf : reading.finish position with
    | error fault => simp [run, hf, bind, Except.bind] at h
    | ok condition =>
      simp [run, hf, bind, Except.bind, pure, Except.pure] at h
      simp [← h]
  | cons c rest ih =>
    cases hs : reading.step position c rest.head? with
    | error fault => simp [run, hs, bind, Except.bind] at h
    | ok progress =>
      cases progress with
      | more next =>
        simp [run, hs, bind, Except.bind] at h
        exact (ih h).trans (List.suffix_cons c rest)
      | complete condition =>
        simp [run, hs, bind, Except.bind, pure, Except.pure] at h
        simp [← h]

end Reading

theorem rest_suffix_of_read {position : Nat} {text : List Char} {stop : Stop}
    (h : read position text = .ok stop) : stop.rest <:+ text :=
  Reading.rest_suffix_of_run h

end ConditionalTags.Condition
