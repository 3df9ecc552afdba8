/-! # Conditions

A condition is a piece of text that is left uninterpreted, or two or more conditions under one
connective. `group?` is how conditions are put together: nothing makes nothing, and one condition
needs no connective.
-/
namespace ConditionalTags

inductive Connective
  | and
  | or
  deriving DecidableEq, Repr

namespace Connective

def name : Connective → String
  | and => "AND"
  | or => "OR"

/-- What stands between two members in writing. -/
def separator : Connective → List Char
  | and => " AND ".toList
  | or => [';']

instance : ToString Connective := ⟨name⟩

theorem eq_of_name {connective other : Connective} (h : connective.name = other.name) :
    connective = other := by
  cases connective <;> cases other <;> first | rfl | exact absurd h (by decide)

end Connective

inductive Condition
  | leaf (text : String)
  | join (connective : Connective) (first second : Condition) (others : List Condition)
  deriving Repr

namespace Condition

mutual

def decEq : (a b : Condition) → Decidable (a = b)
  | leaf s, leaf t =>
    if h : s = t then isTrue (by rw [h]) else isFalse fun e => h (Condition.leaf.inj e)
  | leaf _, join .. => isFalse nofun
  | join .., leaf _ => isFalse nofun
  | join c a b os, join c' a' b' os' =>
    if hc : c = c' then
      match decEq a a', decEq b b', decEqAll os os' with
      | isTrue ha, isTrue hb, isTrue ho => isTrue (by rw [hc, ha, hb, ho])
      | isFalse ha, _, _ => isFalse fun e => ha (by cases e; rfl)
      | _, isFalse hb, _ => isFalse fun e => hb (by cases e; rfl)
      | _, _, isFalse ho => isFalse fun e => ho (by cases e; rfl)
    else isFalse fun e => hc (by cases e; rfl)

def decEqAll : (a b : List Condition) → Decidable (a = b)
  | [], [] => isTrue rfl
  | [], _ :: _ => isFalse nofun
  | _ :: _, [] => isFalse nofun
  | a :: as, b :: bs =>
    match decEq a b, decEqAll as bs with
    | isTrue ha, isTrue hs => isTrue (by rw [ha, hs])
    | isFalse ha, _ => isFalse fun e => ha (by cases e; rfl)
    | _, isFalse hs => isFalse fun e => hs (by cases e; rfl)

end

instance : DecidableEq Condition := decEq

@[elab_as_elim]
theorem induct {P : Condition → Prop} (leaf : ∀ text, P (.leaf text))
    (join : ∀ connective first second others, P first → P second → (∀ c ∈ others, P c) →
      P (.join connective first second others)) (c : Condition) : P c :=
  @Condition.rec P (fun cs => ∀ c ∈ cs, P c) leaf join nofun
    (fun _ _ ha hs => List.forall_mem_cons.2 ⟨ha, hs⟩) c

def group? (connective : Connective) : List Condition → Option Condition
  | [] => none
  | [only] => some only
  | first :: second :: others => some (.join connective first second others)

def connective? : Condition → Option Connective
  | leaf _ => none
  | join connective .. => some connective

def members : Condition → List Condition
  | leaf _ => []
  | join _ first second others => first :: second :: others

/-- A condition that says nothing: an empty leaf. -/
def isEmpty : Condition → Bool
  | leaf text => text.isEmpty
  | join .. => false

mutual

def leaves : Condition → List String
  | leaf text => [text]
  | join _ first second others => first.leaves ++ second.leaves ++ leavesAll others
termination_by structural c => c

def leavesAll : List Condition → List String
  | [] => []
  | c :: rest => c.leaves ++ leavesAll rest
termination_by structural cs => cs

end

theorem leavesAll_eq_flatMap (cs : List Condition) : leavesAll cs = cs.flatMap leaves := by
  induction cs with
  | nil => rfl
  | cons c rest ih => simp [leavesAll, ih]

theorem leaves_join (connective : Connective) (first second : Condition) (others : List Condition) :
    (join connective first second others).leaves =
      (join connective first second others).members.flatMap leaves := by
  simp [leaves, members, leavesAll_eq_flatMap]

theorem group?_eq_none_iff (connective : Connective) (cs : List Condition) :
    group? connective cs = none ↔ cs = [] := by
  rcases cs with _ | ⟨a, _ | ⟨b, rest⟩⟩ <;> simp [group?]

end Condition

end ConditionalTags
