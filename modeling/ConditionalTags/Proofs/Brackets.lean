import ConditionalTags.Proofs.TokenReader

/-! # The condition that the brackets of a text give

The tokens of a text are gathered from right to left: a closing bracket begins a level, and the
opening bracket that matches it makes the level a piece of the level around. What a level means is
then read off its pieces. The reader, which goes from left to right with levels on a stack and a
single buffer, arrives at the same condition.
-/
namespace ConditionalTags.Condition
open Text

/-- A piece of a level: text between the cuts, a cut, or all that is inside a bracket pair. -/
inductive Piece
  | text (chars : List Char)
  | semicolon
  | keyword
  | pair (pieces : List Piece)

namespace Piece

def addChar (c : Char) : List Piece → List Piece
  | text chars :: rest => text (c :: chars) :: rest
  | pieces => text [c] :: pieces

/-- The pieces of the innermost level, and of the levels whose opening brackets are further left. -/
def gather : List Token → Option (List Piece × List (List Piece))
  | [] => some ([], [])
  | .closing :: rest => (gather rest).map fun r => ([], r.1 :: r.2)
  | .opening :: rest =>
    match gather rest with
    | some (inner, level :: around) => some (pair inner :: level, around)
    | _ => none
  | .semicolon :: rest => (gather rest).map fun r => (semicolon :: r.1, r.2)
  | .keyword :: rest => (gather rest).map fun r => (keyword :: r.1, r.2)
  | .text c :: rest => (gather rest).map fun r => (addChar c r.1, r.2)

def leaf? (chars : List Char) : Option Condition :=
  if (trim chars).isEmpty then none else some (leaf (String.ofList (trim chars)))

def isSemicolon : Piece → Bool
  | semicolon => true
  | _ => false

/-- A level with a semicolon of its own is an OR. -/
def connective (pieces : List Piece) : Connective :=
  if pieces.any isSemicolon then .or else .and

mutual

def condition? : Piece → Option Condition
  | text chars => leaf? chars
  | semicolon => none
  | keyword => none
  | pair pieces => group? (connective pieces) (conditions pieces)
termination_by structural p => p

/-- The conditions that the pieces give, in order; but text right in front of a bracket pair comes
after the pair. -/
def conditions : List Piece → List Condition
  | text chars :: pair inner :: rest =>
    (condition? (pair inner)).toList ++ (leaf? chars).toList ++ conditions rest
  | piece :: rest => (condition? piece).toList ++ conditions rest
  | [] => []
termination_by structural ps => ps

end

end Piece

/-- The condition that the brackets of `text` give, unless they do not match or a pair is empty. -/
def ofBrackets? (text : List Char) : Option Condition :=
  match Piece.gather ((tokens none 0 text).map Prod.fst) with
  | some (pieces, []) => group? (Piece.connective pieces) (Piece.conditions pieces)
  | _ => none

example : ofBrackets? ['a', '(', 'b', ';', ' ', ')'] =
    some (join .and (leaf "b") (leaf "a") []) := by decide

/-- The text that was read from `position` on, with the bracket that ended it. -/
def Stop.consumed (stop : Stop) (position : Nat) (text : List Char) : List Char :=
  text.take (stop.position - position) ++ if stop.rest.head? = some ')' then [')'] else []

namespace Piece

def addText (chars : List Char) (pieces : List Piece) : List Piece :=
  chars.foldr addChar pieces

variable {chars : List Char} {pieces rest : List Piece}

theorem addText_append (first second : List Char) (pieces : List Piece) :
    addText (first ++ second) pieces = addText first (addText second pieces) :=
  List.foldr_append

theorem addText_eq (hc : chars ≠ []) (hp : ∀ other rest, pieces ≠ text other :: rest) :
    addText chars pieces = text chars :: pieces := by
  induction chars with
  | nil => exact absurd rfl hc
  | cons c chars ih =>
    rw [addText, List.foldr_cons]
    by_cases hn : chars = []
    · subst hn
      rw [List.foldr_nil]
      unfold addChar
      split
      · next other rest => exact absurd rfl (hp other rest)
      · rfl
    · have hr := ih hn
      rw [addText] at hr
      rw [hr, addChar]

@[simp] theorem leaf?_nil : leaf? [] = none := rfl

@[simp] theorem conditions_nil : conditions [] = [] := rfl

@[simp] theorem conditions_semicolon : conditions (semicolon :: rest) = conditions rest := rfl

@[simp] theorem conditions_keyword : conditions (keyword :: rest) = conditions rest := rfl

@[simp] theorem conditions_pair {inner : List Piece} :
    conditions (pair inner :: rest) = (condition? (pair inner)).toList ++ conditions rest := rfl

theorem conditions_addText (ht : ∀ other rest, pieces ≠ text other :: rest)
    (hp : ∀ inner rest, pieces ≠ pair inner :: rest) :
    conditions (addText chars pieces) = (leaf? chars).toList ++ conditions pieces := by
  by_cases hc : chars = []
  · subst hc
    rfl
  · rw [addText_eq hc ht, conditions]
    · rfl
    · exact fun _ inner rest _ he => hp inner rest he

theorem conditions_addText_pair {inner : List Piece} :
    conditions (addText chars (pair inner :: rest)) =
      (condition? (pair inner)).toList ++ (leaf? chars).toList ++ conditions rest := by
  by_cases hc : chars = []
  · subst hc
    rw [leaf?_nil, Option.toList_none, List.append_nil]
    rfl
  · rw [addText_eq hc (by simp)]
    rfl

@[simp] theorem connective_addText : connective (addText chars pieces) = connective pieces := by
  have hadd : ∀ (c : Char) (pieces : List Piece),
      (addChar c pieces).any isSemicolon = pieces.any isSemicolon := by
    intro c pieces
    unfold addChar
    split <;> rfl
  have htext : (addText chars pieces).any isSemicolon = pieces.any isSemicolon := by
    induction chars with
    | nil => rfl
    | cons c chars ih => exact (hadd c _).trans ih
  rw [connective, htext, connective]

end Piece

namespace Level
open Piece

variable {level next : Level} {position : Nat} {condition : Condition}

theorem settle_members :
    level.settle.members = level.members ++ (leaf? level.pending.reverse).toList := by
  rw [leaf?]
  by_cases h : trim level.pending.reverse = []
  · rw [settle_of_trim_eq_nil h, if_pos (List.isEmpty_iff.2 h)]
    exact (List.append_nil _).symm
  · rw [settle_of_trim_ne_nil h, if_neg fun he => h (List.isEmpty_iff.1 he)]
    rfl

/-- What the level comes to if `pieces` are still to follow. -/
def close? (level : Level) (pieces : List Piece) : Option Condition :=
  group? (if level.connective = some .or then .or else Piece.connective pieces)
    (level.members ++ conditions (addText level.pending.reverse pieces))

theorem close?_nil_of_close (h : level.close position = .ok condition) :
    level.close? [] = some condition := by
  have hc : level.connective.getD .and =
      if level.connective = some .or then .or else Piece.connective [] := by
    rcases level.connective with _ | _ | _ <;> rfl
  rw [close, settle_members, hc] at h
  rw [close?, conditions_addText (by simp) (by simp), conditions_nil, List.append_nil]
  split at h
  · next hg => rw [hg, Except.ok.inj h]
  · cases h

theorem close?_push (c : Char) (pieces : List Piece) :
    (level.push c).close? pieces = level.close? (addChar c pieces) := by
  have hp : addText (level.push c).pending.reverse pieces =
      addText level.pending.reverse (addChar c pieces) := by
    rw [push, List.reverse_cons, addText_append]
    rfl
  have hc : Piece.connective (addText [c] pieces) = Piece.connective pieces := connective_addText
  rw [close?, close?, hp, ← hc]
  rfl

theorem close?_of_connect_or (h : level.connect .or position = .ok next) (pieces : List Piece) :
    next.close? pieces = level.close? (semicolon :: pieces) := by
  obtain ⟨-, rfl⟩ := connect_eq_ok_iff.1 h
  rw [close?, close?, @conditions_addText _ (semicolon :: pieces) (by simp) (by simp)]
  simp only [settle_members, settle_pending, List.reverse_nil, conditions_semicolon,
    List.append_assoc]
  have hc : Piece.connective (semicolon :: pieces) = .or := rfl
  rw [hc, if_pos trivial, ite_self]
  rfl

theorem close?_of_connect_and (h : level.connect .and position = .ok next)
    (pieces : List Piece) : next.close? pieces = level.close? (keyword :: pieces) := by
  obtain ⟨hl, rfl⟩ := connect_eq_ok_iff.1 h
  have hn : level.connective ≠ some .or := by
    intro he
    rw [he] at hl
    cases hl
  rw [close?, close?, @conditions_addText _ (keyword :: pieces) (by simp) (by simp)]
  simp only [settle_members, settle_pending, List.reverse_nil, conditions_keyword,
    List.append_assoc]
  rw [if_neg hn, if_neg nofun]
  rfl

theorem close?_enter {inner : List Piece} (h : Piece.condition? (pair inner) = some condition)
    (pieces : List Piece) :
    (level.enter condition).close? pieces = level.close? (pair inner :: pieces) := by
  simp only [close?, enter, settle_members, settle_pending, settle_connective, List.reverse_nil,
    conditions_addText_pair, h, Option.toList_some, List.append_assoc]
  rfl

end Level

namespace Reading
open Piece

/-- What the reading comes to if `pieces` are still to follow in the innermost level, and the others
in the levels around it. -/
def wind? : Level → List (Level × Nat) → List Piece → List (List Piece) → Option Condition
  | level, [], pieces, [] => level.close? pieces
  | level, (around, _) :: enclosing, pieces, outer :: others =>
    (level.close? pieces).bind fun inner => wind? (around.enter inner) enclosing outer others
  | _, _, _, _ => none

theorem wind?_congr {level other : Level} {pieces others : List Piece}
    (h : level.close? pieces = other.close? others) (enclosing : List (Level × Nat))
    (around : List (List Piece)) :
    wind? level enclosing pieces around = wind? other enclosing others around := by
  cases enclosing with
  | nil =>
    cases around with
    | nil => exact h
    | cons => rfl
  | cons outer enclosing =>
    cases around with
    | nil => rfl
    | cons => rw [wind?, wind?, h]

/-- The bracket that ends a condition belongs to it; a semicolon does not. -/
def lastToken : List (Token × Nat) → List Token
  | (.closing, _) :: _ => [.closing]
  | _ => []

/-- The reading winds up as the pieces of what is still read say. -/
def Foretold (reading : Reading) (condition : Condition) (read : List Token) : Prop :=
  ∃ pieces around, gather read = some (pieces, around) ∧
    wind? reading.level reading.enclosing pieces around = some condition

variable {reading next : Reading} {position ends : Nat} {condition : Condition} {token : Token}
  {read : List Token} {more rest : List (Token × Nat)}

theorem foretold_of_more (h : reading.onToken position token = .ok (.more next))
    (hn : next.Foretold condition read) : reading.Foretold condition (token :: read) := by
  obtain ⟨pieces, around, hg, hw⟩ := hn
  cases token with
  | opening =>
    obtain ⟨-, he⟩ := opening_cases h
    cases he
    cases around with
    | nil => cases hw
    | cons outer around =>
      obtain ⟨inner, hi, hw⟩ := Option.bind_eq_some_iff.1 hw
      refine ⟨pair pieces :: outer, around, by rw [gather, hg], ?_⟩
      rw [← hw]
      exact (wind?_congr (Level.close?_enter hi outer) _ _).symm
  | closing =>
    obtain ⟨outer, opened, enclosing, inner, hl, hi, ⟨-, he⟩ | ⟨-, _, -, he⟩⟩ := closing_cases h
    · cases he
      refine ⟨[], pieces :: around, by rw [gather, hg]; rfl, ?_⟩
      rw [hl, wind?, Level.close?_nil_of_close hi]
      exact hw
    · cases he
  | semicolon =>
    obtain ⟨-, level, hl, he⟩ | ⟨-, _, -, he⟩ := semicolon_cases h
    · cases he
      refine ⟨Piece.semicolon :: pieces, around, by rw [gather, hg]; rfl, ?_⟩
      rw [← hw]
      exact (wind?_congr (Level.close?_of_connect_or hl pieces) _ _).symm
    · cases he
  | keyword =>
    obtain ⟨level, hl, he⟩ := keyword_cases h
    cases he
    refine ⟨keyword :: pieces, around, by rw [gather, hg]; rfl, ?_⟩
    rw [← hw]
    exact (wind?_congr (Level.close?_of_connect_and hl pieces) _ _).symm
  | text c =>
    cases h
    refine ⟨addChar c pieces, around, by rw [gather, hg]; rfl, ?_⟩
    rw [← hw]
    exact (wind?_congr (Level.close?_push c pieces) _ _).symm

theorem foretold_of_complete (h : reading.onToken position token = .ok (.complete condition)) :
    reading.Foretold condition (lastToken ((token, position) :: more)) := by
  cases token with
  | opening =>
    obtain ⟨-, he⟩ := opening_cases h
    cases he
  | closing =>
    obtain ⟨outer, opened, enclosing, inner, hl, hi, ⟨-, he⟩ | ⟨hn, c, hc, he⟩⟩ := closing_cases h
    · cases he
    · cases he
      subst hn
      refine ⟨[], [[]], rfl, ?_⟩
      rw [hl, wind?, Level.close?_nil_of_close hi]
      exact Level.close?_nil_of_close hc
  | semicolon =>
    obtain ⟨-, level, hl, he⟩ | ⟨hn, c, hc, he⟩ := semicolon_cases h
    · cases he
    · cases he
      refine ⟨[], [], rfl, ?_⟩
      rw [hn]
      exact Level.close?_nil_of_close hc
  | keyword =>
    obtain ⟨level, -, he⟩ := keyword_cases h
    cases he
  | text c => cases h

theorem foretold_of_consume (h : reading.consume ends more = .ok (condition, rest)) :
    ∃ used, more = used ++ rest ∧
      reading.Foretold condition (used.map Prod.fst ++ lastToken rest) := by
  induction more generalizing reading with
  | nil =>
    rw [consume] at h
    cases hf : reading.finish ends with
    | error fault => rw [hf] at h; cases h
    | ok result =>
      rw [hf] at h
      cases h
      refine ⟨[], rfl, [], [], rfl, ?_⟩
      unfold finish at hf
      split at hf
      · next he =>
        rw [he]
        exact Level.close?_nil_of_close hf
      · cases hf
  | cons head more ih =>
    obtain ⟨token, position⟩ := head
    cases ht : reading.onToken position token with
    | error fault => rw [consume_of_error ht] at h; cases h
    | ok progress =>
      cases progress with
      | more next =>
        rw [consume_of_more ht] at h
        obtain ⟨used, hu, hr⟩ := ih h
        exact ⟨(token, position) :: used, by rw [hu]; rfl, foretold_of_more ht hr⟩
      | complete result =>
        rw [consume_of_complete ht] at h
        cases h
        exact ⟨[], rfl, foretold_of_complete ht⟩

end Reading

theorem map_fst_tokens (previous : Option Char) (position other : Nat) (text : List Char) :
    (tokens previous position text).map Prod.fst = (tokens previous other text).map Prod.fst := by
  induction previous, text using token_induct generalizing position other with
  | nil => rfl
  | keyword previous a n d rest hs ih =>
    rw [tokens_of_starts hs, tokens_of_starts hs, List.map_cons, List.map_cons, ih]
  | char previous c rest hs ih =>
    rw [tokens_of_not_starts hs, tokens_of_not_starts hs, List.map_cons, List.map_cons, ih]

theorem map_fst_tokens_consumed {position : Nat} {text before : List Char} {stop : Stop}
    (h : read position text = .ok stop) (ht : text = before ++ stop.rest)
    (hp : stop.position = position + before.length) :
    (tokens none 0 (stop.consumed position text)).map Prod.fst =
      (tokens none position before).map Prod.fst ++
        Reading.lastToken (tokens none stop.position stop.rest) := by
  have hb : text.take (stop.position - position) = before := by
    rw [hp, ht, Nat.add_sub_cancel_left, List.take_left]
  rw [Stop.consumed, hb]
  rcases rest_of_read h with hr | ⟨c, rest, hr, rfl | rfl⟩
  · rw [hr, map_fst_tokens none 0 position]
    simp [Reading.lastToken]
  · rw [hr, List.head?_cons, if_pos rfl, tokens_append (parted_of_ends (.inl rfl) before []),
      tokens_of_isMark rfl, tokens_of_isMark rfl, List.map_append, map_fst_tokens none 0 position]
    rfl
  · rw [hr, List.head?_cons, if_neg (by decide), List.append_nil, tokens_of_isMark rfl,
      map_fst_tokens none 0 position]
    exact (List.append_nil _).symm

/-- Whatever the reader accepts, its condition is the one that the brackets of the text give. -/
theorem ofBrackets?_consumed {position : Nat} {text : List Char} {stop : Stop}
    (h : read position text = .ok stop) :
    ofBrackets? (stop.consumed position text) = some stop.condition := by
  obtain ⟨before, ht, hp, hs⟩ := tokens_split_of_read h
  have hc := consume_eq_read position text
  rw [h] at hc
  obtain ⟨used, hu, pieces, around, hg, hw⟩ := Reading.foretold_of_consume hc
  have he : used = tokens none position before := List.append_cancel_right (hu.symm.trans hs)
  rw [he, ← map_fst_tokens_consumed h ht hp] at hg
  rw [ofBrackets?, hg]
  cases around with
  | nil => exact hw
  | cons => cases hw

/-- Text in front of a bracket pair, both connectives, and a keyword that is text. -/
theorem ofBrackets?_consumed_juxtaposed :
    let inner := join .and (leaf "a") (join .or (leaf "b") (leaf "and") []) []
    let stop : Stop := ⟨join .and inner (leaf "x") [], 21, [')', ';', 'y']⟩
    read 4 "x (a AND (b;and) );y".toList = .ok stop ∧
      ofBrackets? (stop.consumed 4 "x (a AND (b;and) );y".toList) = some stop.condition := by
  intro inner stop
  have h : read 4 "x (a AND (b;and) );y".toList = .ok stop := by rfl
  exact ⟨h, ofBrackets?_consumed h⟩

end ConditionalTags.Condition
