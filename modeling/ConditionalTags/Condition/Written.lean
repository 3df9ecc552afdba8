import ConditionalTags.Condition.Basic

/-! # The keyword, and the written form of a condition

Three letters, in capitals or not, join conditions. Text that is being read is kept with its newest
character first, so the keyword is taken off the front.

In writing a join stands in brackets, its members separated by its connective. Two things keep a leaf
from being read as the keyword: a tab in front of one that opens with it, which reading takes off
again, and brackets around a member of an AND join that closes with it.
-/
namespace ConditionalTags

namespace Keyword

def spells (a n d : Char) : Bool :=
  a.toLower == 'a' && n.toLower == 'n' && d.toLower == 'd'

/-- The text before the keyword's letters, for text with its newest character first. -/
def strip? : List Char → Option (List Char)
  | d :: n :: a :: before => if spells a n d then some before else none
  | _ => none

def mayPrecede : Option Char → Bool
  | some c => c == ' ' || c == '('
  | none => false

def opens : List Char → Bool
  | a :: n :: d :: ' ' :: _ => spells a n d
  | _ => false

/-- The keyword comes last, alone or after a space. -/
def closes (text : List Char) : Bool :=
  match strip? text.reverse with
  | some before => before.head?.all (· == ' ')
  | none => false

theorem strip?_eq_some_iff {text before : List Char} :
    strip? text = some before ↔ ∃ a n d, text = d :: n :: a :: before ∧ spells a n d = true := by
  constructor
  · intro h
    match text with
    | [] | [_] | [_, _] => cases h
    | d :: n :: a :: rest =>
      by_cases hs : spells a n d = true
      · simp only [strip?, hs, ↓reduceIte, Option.some.injEq] at h
        exact ⟨a, n, d, by rw [h], hs⟩
      · simp [strip?, hs] at h
  · rintro ⟨a, n, d, rfl, hs⟩
    simp only [strip?, hs, ↓reduceIte]

end Keyword

namespace Condition

def bracketed (text : List Char) : List Char :=
  '(' :: text ++ [')']

def writtenLeaf (text : List Char) : List Char :=
  if Keyword.opens text then '\t' :: text else text

/-- A leaf that would lend its last word to the AND behind it. -/
def needsBrackets (connective : Connective) : Condition → Bool
  | leaf text => connective == .and && Keyword.closes text.toList
  | join .. => false

def guarded (connective : Connective) (member : Condition) (text : List Char) : List Char :=
  if member.needsBrackets connective then bracketed text else text

mutual

def written : Condition → List Char
  | leaf text => writtenLeaf text.toList
  | join connective first second others =>
    bracketed (guarded connective first first.written ++ connective.separator ++
      guarded connective second second.written ++ writtenOthers connective others)
termination_by structural c => c

def writtenOthers (connective : Connective) : List Condition → List Char
  | [] => []
  | c :: rest =>
    connective.separator ++ guarded connective c c.written ++ writtenOthers connective rest
termination_by structural cs => cs

end

instance : ToString Condition := ⟨fun c => String.ofList c.written⟩

end Condition

end ConditionalTags
