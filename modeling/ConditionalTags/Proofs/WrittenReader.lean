import ConditionalTags.Proofs.Chunks

/-! # Reading a written condition

The written form of a plain condition is read part by part: a leaf becomes pending text, a separator
makes it a member, and a bracket pair comes to the condition inside.
-/
namespace ConditionalTags.Condition
open Text

/-- What may follow a member of a join: its closing bracket or the next separator. -/
def EndsMember (connective : Connective) (after : List Char) : Prop :=
  ∃ c rest, after = c :: rest ∧ (c = ')' ∨ connective.separator.head? = some c)

variable {position : Nat} {text after : List Char} {connective : Connective}

namespace Reading

variable {level : Level} {enclosing : List (Level × Nat)} {chunk : List Char}
  {members : List Condition} {joined : Option Connective}

theorem reads_leaf {text : String} (h : level.Awaits members joined) (hp : PlainLeaf text)
    (hb : Keyword.closes text.toList = false ∨ after.head? ≠ some ' ')
    (ha : ∃ c rest, after = c :: rest ∧ (c = ')' ∨ c = ';' ∨ c = ' ')) :
    Reads level enclosing (writtenLeaf text.toList) after fun next =>
      next.Holds (members ++ [leaf text]) joined := by
  have hm := unmarked_writtenLeaf hp
  apply reads_of_advances (unbracketed_of_unmarked hm)
  intro previous position
  exact ⟨_, advances_of_quiet hm (quiet_writtenLeaf hp hb ha), h.holds_leaf hp⟩

theorem reads_separator (h : level.Holds members joined) (hj : joined.all (· == connective) = true)
    (he : enclosing ≠ []) :
    Reads level enclosing connective.separator after fun next =>
      next.Awaits members (some connective) := by
  apply reads_of_advances (unbracketed_separator connective)
  intro previous position
  cases connective with
  | or =>
    have hc : level.connect .or position =
        .ok { level.settle with afterBracket := false, connective := some .or } :=
      Level.connect_eq_ok_iff.2 ⟨by rw [h.connective]; exact hj, rfl⟩
    exact ⟨_, advances_semicolon he hc, h.members, by simp, rfl⟩
  | and =>
    have hs : (level.push ' ').settle = level.settle := Level.settle_push_of_isBlank (by decide)
    have hc : (level.push ' ').connect .and (position + 1) =
        .ok { level.settle with afterBracket := false, connective := some .and } := by
      rw [← hs]
      exact Level.connect_eq_ok_iff.2 ⟨by rw [← hj, ← h.connective]; rfl, rfl⟩
    let joined : Level := { level.settle with afterBracket := false, connective := some .and }
    have hfirst : Advances ⟨level, enclosing⟩ previous position [' ']
        ⟨level.push ' ', enclosing⟩ (['A', 'N', 'D'] ++ [' '] ++ after) :=
      advances_char rfl (Keyword.starts_eq_false_of_ne (by decide) _ _)
    have hsecond : Advances ⟨level.push ' ', enclosing⟩ (some ' ') (position + 1) ['A', 'N', 'D']
        ⟨joined, enclosing⟩ ([' '] ++ after) :=
      advances_keyword rfl hc
    have hthird : Advances ⟨joined, enclosing⟩ (some 'D') (position + 1 + 3) [' ']
        ⟨joined.push ' ', enclosing⟩ after :=
      advances_char rfl (Keyword.starts_eq_false_of_ne (by decide) _ _)
    refine ⟨joined.push ' ', hfirst.trans (hsecond.trans hthird), h.members, ?_, rfl⟩
    intro c hm
    have hp : joined.pending = [] := Level.settle_pending
    rw [Level.push, hp] at hm
    rw [List.mem_singleton.1 hm]
    decide

theorem reads_pair {inner : Condition} (ha : level.Awaits members joined) (hm : Matched chunk)
    (h : ∀ around, around ≠ [] → Reads {} around chunk (')' :: after) fun next =>
      ∀ position, next.close position = .ok inner) (he : enclosing ≠ []) :
    Reads level enclosing (bracketed chunk) after fun next =>
      next.Holds (members ++ [inner]) joined := by
  intro previous position
  obtain ⟨hreach, hover⟩ := reads_inside hm h level enclosing previous position
  constructor
  · intro hn
    obtain ⟨next, hadv, hclose⟩ := hreach hn
    refine ⟨level.enter inner, ?_, ha.holds_enter⟩
    apply hadv.trans
    intro ends
    change consume _ ends (tokens _ _ (')' :: after)) = _
    rw [tokens_of_isMark rfl]
    apply consume_of_more
    change closeBracket ⟨next, (level, position) :: enclosing⟩ _ = _
    simp only [closeBracket, hclose, bind, Except.bind]
    rw [if_neg (by simpa using he)]
    rfl
  · intro hn
    exact (hover hn).append

/-- What is written for a condition is read as the condition, inside the brackets around it. -/
def ReadsBack (condition : Condition) : Prop :=
  ∀ enclosing after, enclosing ≠ [] → Reads {} enclosing condition.body (')' :: after) fun next =>
    ∀ position, next.close position = .ok condition

theorem reads_guarded {member : Condition} (ha : level.Awaits members joined)
    (hp : member.Plain) (hr : ReadsBack member) (hend : EndsMember connective after)
    (he : enclosing ≠ []) :
    Reads level enclosing (guarded connective member member.written) after fun next =>
      next.Holds (members ++ [member]) joined := by
  rcases guarded_cases connective member with ⟨text, rfl, hn, hg⟩ | hg
  · rw [hg]
    obtain ⟨c, rest, rfl, hc⟩ := hend
    have hcloses : Keyword.closes text.toList = false ∨ (c :: rest).head? ≠ some ' ' := by
      cases connective with
      | and => exact .inl hn
      | or =>
        right
        rcases hc with rfl | hc
        · simp
        · cases hc
          simp
    apply reads_leaf ha (plain_leaf.1 hp) hcloses
    refine ⟨c, rest, rfl, ?_⟩
    rcases hc with hc | hc
    · exact .inl hc
    · cases connective with
      | and => exact .inr (.inr (Option.some.inj hc).symm)
      | or => exact .inr (.inl (Option.some.inj hc).symm)
  · rw [hg]
    exact reads_pair ha (matched_body hp) (fun around hn => hr around after hn) he

theorem reads_separator_guarded {member : Condition} (h : level.Holds members joined)
    (hj : joined.all (· == connective) = true) (hp : member.Plain) (hr : ReadsBack member)
    (hend : EndsMember connective after) (he : enclosing ≠ []) :
    Reads level enclosing
      (connective.separator ++ guarded connective member member.written) after fun next =>
        next.Holds (members ++ [member]) (some connective) := by
  apply (reads_separator h hj he).append
    (matched_of_unbracketed (unbracketed_separator connective))
  intro next ha
  exact reads_guarded ha hp hr hend he

theorem endsMember_writtenOthers (others : List Condition) (rest : List Char) :
    EndsMember connective (writtenOthers connective others ++ ')' :: rest) := by
  cases others with
  | nil => exact ⟨')', rest, rfl, .inl rfl⟩
  | cons c cs =>
    rw [writtenOthers, List.append_assoc, List.append_assoc]
    cases connective with
    | and => exact ⟨' ', _, rfl, .inr rfl⟩
    | or => exact ⟨';', _, rfl, .inr rfl⟩

theorem reads_writtenOthers {member : Condition} {others : List Condition}
    (h : level.Holds members joined) (hj : joined.all (· == connective) = true)
    (hp : ∀ c ∈ member :: others, c.Plain ∧ ReadsBack c) (he : enclosing ≠ [])
    (rest : List Char) :
    Reads level enclosing (writtenOthers connective (member :: others)) (')' :: rest) fun next =>
      next.Holds (members ++ member :: others) (some connective) := by
  induction others generalizing level members joined member with
  | nil =>
    obtain ⟨hm, hr⟩ := hp member List.mem_cons_self
    have hone := reads_separator_guarded h hj hm hr (endsMember_writtenOthers [] rest) he
    rw [writtenOthers, writtenOthers, List.append_nil]
    exact hone
  | cons second others ih =>
    obtain ⟨⟨hm, hr⟩, ho⟩ := List.forall_mem_cons.1 hp
    have hs := matched_of_unbracketed (unbracketed_separator connective)
    rw [writtenOthers]
    apply (reads_separator_guarded h hj hm hr (endsMember_writtenOthers _ rest) he).append
      (hs.append (matched_guarded hm (matched_body hm)))
    intro next hn
    have hall := @ih next (members ++ [member]) (some connective) second hn (by simp) ho
    rw [List.append_assoc] at hall
    exact hall

theorem readsBack_of_plain {condition : Condition} (hp : condition.Plain) :
    ReadsBack condition := by
  induction condition using Condition.induct with
  | leaf text =>
    intro enclosing after he
    apply (reads_leaf Level.awaits_empty (plain_leaf.1 hp) (.inr (by simp))
      ⟨')', after, rfl, .inl rfl⟩).imp
    intro next hn position
    exact hn.close rfl position
  | join connective first second others ih₁ ih₂ iho =>
    intro enclosing after he
    obtain ⟨h₁, h₂, ho⟩ := plain_join.1 hp
    rw [body]
    apply (reads_guarded Level.awaits_empty h₁ (ih₁ h₁) (endsMember_writtenOthers _ after) he).append
      (matched_guarded h₁ (matched_body h₁))
    intro next hn
    have hall : ∀ c ∈ second :: others, c.Plain ∧ ReadsBack c := by
      intro c hc
      rcases List.mem_cons.1 hc with rfl | hc
      · exact ⟨h₂, ih₂ h₂⟩
      · exact ⟨ho c hc, iho c hc (ho c hc)⟩
    apply (reads_writtenOthers hn rfl hall he after).imp
    intro last hl position
    exact hl.close rfl position

end Reading

/-- What reading tokens comes to tells what reading the text comes to: the rest of a text is given
by its length. -/
theorem read_eq_of_consume {condition : Condition} {stopped : Nat} {rest : List Char}
    (hs : rest <:+ text) (hl : stopped + rest.length = position + text.length)
    (h : Reading.consume {} (position + text.length) (tokens none position text) =
      .ok (condition, tokens none stopped rest)) :
    read position text = .ok ⟨condition, stopped, rest⟩ := by
  rw [consume_eq_read] at h
  cases hr : read position text with
  | error fault => rw [hr] at h; cases h
  | ok stop =>
    obtain ⟨result, stops, left⟩ := stop
    rw [hr] at h
    have hpos := position_add_length_of_read hr
    have hp := Prod.mk.inj (Except.ok.inj h)
    have hat : stops = stopped := position_eq_of_tokens_eq hp.2 (hpos.trans hl.symm)
    subst hat
    dsimp only at hpos
    have hlen : left.length = rest.length := by omega
    have hleft : left <:+ text := rest_suffix_of_read hr
    obtain rfl : left = rest :=
      (List.suffix_of_suffix_length_le hleft hs (Nat.le_of_eq hlen)).eq_of_length hlen
    obtain rfl : result = condition := hp.1
    rfl

/-- The written form of a plain condition is read as the condition, whatever follows it, unless its
brackets nest deeper than reading allows. -/
theorem read_writtenCondition {condition : Condition} (hp : condition.Plain)
    (position : Nat) (after : List Char) :
    (NestsWithin maxDepth (Clause.writtenCondition condition) →
      read position (Clause.writtenCondition condition ++ after) =
        .ok ⟨condition, position + (condition.body.length + 1), ')' :: after⟩) ∧
    (¬NestsWithin maxDepth (Clause.writtenCondition condition) →
      ∃ opened, read position (Clause.writtenCondition condition ++ after) =
        .error ⟨.tooDeep, some opened⟩) := by
  have htext : Clause.writtenCondition condition ++ after =
      '(' :: condition.body ++ ')' :: after := by
    rw [writtenCondition_eq, bracketed, List.append_assoc]
    rfl
  obtain ⟨hreach, hover⟩ := Reading.reads_inside (matched_body hp)
    (fun around hn => Reading.readsBack_of_plain hp around after hn) {} [] none position
  rw [htext, writtenCondition_eq]
  constructor
  · intro hn
    obtain ⟨next, hadv, hclose⟩ := hreach hn
    apply read_eq_of_consume
    · exact List.suffix_append _ _
    · simp only [List.length_append, List.length_cons]
      omega
    · rw [hadv, tokens_of_isMark rfl, tokens_of_isMark rfl]
      apply Reading.consume_of_complete
      have hlast : ∀ position, Level.close (Level.enter {} condition) position = .ok condition :=
        Level.awaits_empty.holds_enter.close rfl
      change Reading.closeBracket ⟨next, [({}, position)]⟩ _ = _
      simp only [Reading.closeBracket, hclose, bind, Except.bind]
      rw [List.isEmpty_nil, if_pos rfl, hlast]
      rfl
  · intro hn
    obtain ⟨opened, ho⟩ := hover hn
    refine ⟨opened, ?_⟩
    have hc := consume_eq_read position ('(' :: condition.body ++ ')' :: after)
    rw [ho] at hc
    cases hr : read position ('(' :: condition.body ++ ')' :: after) with
    | error fault => rw [hr] at hc; cases hc; rfl
    | ok stop => rw [hr] at hc; cases hc

end ConditionalTags.Condition
