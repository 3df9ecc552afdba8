import ConditionalTags.Clause

/-! # Outlines

Clauses as indented lines. A clause shows its value; below it stands its condition, where a join
shows its connective and its members one step further in.
-/
namespace ConditionalTags

structure OutlineLine where
  depth : Nat
  text : List Char
  deriving DecidableEq, Repr

def OutlineLine.written (line : OutlineLine) : List Char :=
  List.replicate (2 * line.depth) ' ' ++ line.text ++ ['\n']

namespace Condition

mutual

def outline (depth : Nat) : Condition → List OutlineLine
  | leaf text => [⟨depth, text.toList⟩]
  | join connective first second others =>
    ⟨depth, connective.name.toList⟩ ::
      (first.outline (depth + 1) ++ second.outline (depth + 1) ++ outlineAll (depth + 1) others)
termination_by structural c => c

def outlineAll (depth : Nat) : List Condition → List OutlineLine
  | [] => []
  | c :: rest => c.outline depth ++ outlineAll depth rest
termination_by structural cs => cs

end

theorem outlineAll_eq_flatMap (depth : Nat) (cs : List Condition) :
    outlineAll depth cs = cs.flatMap (outline depth) := by
  induction cs with
  | nil => rfl
  | cons c rest ih => rw [outlineAll, ih, List.flatMap_cons]

theorem outline_join (depth : Nat) (connective : Connective) (first second : Condition)
    (others : List Condition) :
    (join connective first second others).outline depth =
      ⟨depth, connective.name.toList⟩ ::
        (first :: second :: others).flatMap (outline (depth + 1)) := by
  simp [outline, outlineAll_eq_flatMap]

end Condition

namespace Clause

def outline (clause : Clause) : List OutlineLine :=
  ⟨0, clause.value.toList ++ " @".toList⟩ :: (clause.condition.map (Condition.outline 1)).getD []

def outlineText (clauses : List Clause) : String :=
  String.ofList ((clauses.flatMap outline).flatMap OutlineLine.written)

end Clause

end ConditionalTags
