import ConditionalTags.Proofs.Pending

/-! # Reading a condition token by token

The reader takes one character at a time. Reading tokens instead knows no pending keyword. The two agree:
no keyword begins in pending text, and only such text is taken back.
-/
namespace ConditionalTags.Condition
open Text

namespace Reading

def onToken (reading : Reading) (position : Nat) : Token → Except Fault Progress
  | .opening => reading.openBracket position
  | .closing => reading.closeBracket position
  | .semicolon => reading.semicolon position
  | .keyword => do
    return .more { reading with level := ← reading.level.connect .and position }
  | .text c => return .more { reading with level := reading.level.push c }

/-- Reads tokens until the condition ends. `ends` is where the text ends, and the tokens from the one
that ended the condition are left. -/
def consume (reading : Reading) (ends : Nat) :
    List (Token × Nat) → Except Fault (Condition × List (Token × Nat))
  | [] => do return (← reading.finish ends, [])
  | (token, position) :: rest => do
    match ← reading.onToken position token with
    | .more reading => reading.consume ends rest
    | .complete condition => return (condition, (token, position) :: rest)

variable {reading next : Reading} {position : Nat} {c : Char} {rest past text : List Char}
  {fault : Fault} {condition : Condition}

theorem run_of_error (h : reading.step position c rest.head? = .error fault) :
    reading.run position (c :: rest) = .error fault := by
  simp only [run, h, bind, Except.bind]

theorem run_of_more (h : reading.step position c rest.head? = .ok (.more next)) :
    reading.run position (c :: rest) = next.run (position + 1) rest := by
  simp only [run, h, bind, Except.bind]

theorem run_of_complete (h : reading.step position c rest.head? = .ok (.complete condition)) :
    reading.run position (c :: rest) = .ok ⟨condition, position, c :: rest⟩ := by
  simp only [run, h, bind, Except.bind, pure, Except.pure]

variable {ends : Nat} {token : Token} {more : List (Token × Nat)}

theorem consume_of_error (h : reading.onToken position token = .error fault) :
    reading.consume ends ((token, position) :: more) = .error fault := by
  simp only [consume, h, bind, Except.bind]

theorem consume_of_more (h : reading.onToken position token = .ok (.more next)) :
    reading.consume ends ((token, position) :: more) = next.consume ends more := by
  simp only [consume, h, bind, Except.bind]

theorem consume_of_complete (h : reading.onToken position token = .ok (.complete condition)) :
    reading.consume ends ((token, position) :: more) =
      .ok (condition, (token, position) :: more) := by
  simp only [consume, h, bind, Except.bind, pure, Except.pure]

theorem step_eq_onToken (h : reading.level.Follows past (c :: rest)) (position : Nat) :
    reading.step position c rest.head? = reading.onToken position (.ofChar c) := by
  unfold step
  split
  · rfl
  · rfl
  · rfl
  · next ho hc hs =>
    rw [Token.ofChar_of_not_isMark (isMark_eq_false_iff.2 ⟨ho, hc, hs⟩), letter,
      h.beforeKeyword?_eq_none]
    rfl

theorem step_of_unmarked (h : isMark c = false) (position : Nat) (next : Option Char) :
    reading.step position c next = reading.letter position c next := by
  obtain ⟨ho, hc, hs⟩ := isMark_eq_false_iff.1 h
  unfold step
  split <;> first | rfl | contradiction

theorem step_of_toLower (hm : isMark c.toLower = false) (hd : c.toLower ≠ 'd') (position : Nat)
    (next : Option Char) :
    reading.step position c next =
      .ok (.more { reading with level := reading.level.push c }) := by
  rw [step_of_unmarked (isMark_eq_false_of_toLower hm), letter,
    Level.beforeKeyword?_eq_none_of_ne hd]
  rfl

/-- The three letters of a keyword amount to its token. -/
theorem run_of_starts {a n d : Char} (h : reading.level.Follows past (a :: n :: d :: rest))
    (hs : Keyword.starts past.head? (a :: n :: d :: rest) = true) (position : Nat) :
    reading.run position (a :: n :: d :: rest) =
      (reading.level.connect .and position >>= fun level =>
        run { reading with level } (position + 3) rest) := by
  have hk := h.beforeKeyword?_eq_some hs
  rw [Keyword.starts, Bool.and_eq_true, Keyword.leads, Bool.and_eq_true,
    Keyword.spells_eq_true_iff] at hs
  obtain ⟨-, ⟨ha, hn, hd⟩, -⟩ := hs
  have hmd := isMark_eq_false_of_toLower (c := d) (by rw [hd]; decide)
  rw [run_of_more (step_of_toLower (by rw [ha]; decide) (by rw [ha]; decide) _ _),
    run_of_more (step_of_toLower (by rw [hn]; decide) (by rw [hn]; decide) _ _)]
  cases hc : reading.level.connect .and position with
  | error fault =>
    refine run_of_error ((step_of_unmarked hmd _ _).trans ?_)
    rw [letter, hk]
    exact congrArg (do return Progress.more { reading with level := ← · }) hc
  | ok level =>
    refine run_of_more ((step_of_unmarked hmd _ _).trans ?_)
    rw [letter, hk]
    exact congrArg (do return Progress.more { reading with level := ← · }) hc

variable {progress : Progress}

theorem opening_cases (h : reading.onToken position .opening = .ok progress) :
    reading.enclosing.length < maxDepth ∧
      progress = .more ⟨{}, (reading.level, position) :: reading.enclosing⟩ := by
  rw [onToken, openBracket] at h
  split at h
  · next hd => exact ⟨hd, (Except.ok.inj h).symm⟩
  · cases h

theorem closing_cases (h : reading.onToken position .closing = .ok progress) :
    ∃ around opened enclosing inner, reading.enclosing = (around, opened) :: enclosing ∧
      reading.level.close position = .ok inner ∧
      ((enclosing ≠ [] ∧ progress = .more ⟨around.enter inner, enclosing⟩) ∨
        (enclosing = [] ∧ ∃ condition, (around.enter inner).close position = .ok condition ∧
          progress = .complete condition)) := by
  rw [onToken, closeBracket] at h
  cases he : reading.enclosing with
  | nil => simp [he] at h
  | cons around enclosing =>
    obtain ⟨around, opened⟩ := around
    rw [he] at h
    cases hi : reading.level.close position with
    | error fault => simp [hi, bind, Except.bind] at h
    | ok inner =>
      refine ⟨around, opened, enclosing, inner, rfl, rfl, ?_⟩
      simp only [hi, bind, Except.bind, List.isEmpty_iff] at h
      by_cases hn : enclosing = []
      · rw [if_pos hn] at h
        cases hc : (around.enter inner).close position with
        | error fault => simp [hc] at h
        | ok condition =>
          rw [hc] at h
          exact .inr ⟨hn, condition, rfl, (Except.ok.inj h).symm⟩
      · rw [if_neg hn] at h
        exact .inl ⟨hn, (Except.ok.inj h).symm⟩

theorem semicolon_cases (h : reading.onToken position .semicolon = .ok progress) :
    (reading.enclosing ≠ [] ∧ ∃ level, reading.level.connect .or position = .ok level ∧
      progress = .more { reading with level }) ∨
    (reading.enclosing = [] ∧ ∃ condition, reading.level.close position = .ok condition ∧
      progress = .complete condition) := by
  simp only [onToken, semicolon, List.isEmpty_iff] at h
  by_cases hn : reading.enclosing = []
  · rw [if_pos hn] at h
    cases hc : reading.level.close position with
    | error fault => simp [hc, bind, Except.bind] at h
    | ok condition =>
      rw [hc] at h
      exact .inr ⟨hn, condition, rfl, (Except.ok.inj h).symm⟩
  · rw [if_neg hn] at h
    cases hc : reading.level.connect .or position with
    | error fault => simp [hc, bind, Except.bind] at h
    | ok level =>
      rw [hc] at h
      exact .inl ⟨hn, level, rfl, (Except.ok.inj h).symm⟩

theorem keyword_cases (h : reading.onToken position .keyword = .ok progress) :
    ∃ level, reading.level.connect .and position = .ok level ∧
      progress = .more { reading with level } := by
  rw [onToken] at h
  cases hc : reading.level.connect .and position with
  | error fault => simp [hc, bind, Except.bind] at h
  | ok level =>
    rw [hc] at h
    exact ⟨level, rfl, (Except.ok.inj h).symm⟩

theorem letter_cases {following : Option Char}
    (h : reading.letter position c following = .ok progress) :
    (∃ before level, reading.level.beforeKeyword? c following = some before ∧
      Level.connect { reading.level with pending := before } .and (position - 2) = .ok level ∧
      progress = .more { reading with level }) ∨
    (reading.level.beforeKeyword? c following = none ∧
      progress = .more { reading with level := reading.level.push c }) := by
  rw [letter] at h
  cases hb : reading.level.beforeKeyword? c following with
  | none =>
    rw [hb] at h
    exact .inr ⟨rfl, (Except.ok.inj h).symm⟩
  | some before =>
    simp only [hb] at h
    cases hc : Level.connect { reading.level with pending := before } .and (position - 2) with
    | error fault => simp [hc, bind, Except.bind] at h
    | ok level =>
      rw [hc] at h
      exact .inl ⟨before, level, rfl, hc, (Except.ok.inj h).symm⟩

theorem follows_of_onToken (h : reading.level.Follows past (c :: rest))
    (hs : Keyword.starts past.head? (c :: rest) = false)
    (ht : reading.onToken position (.ofChar c) = .ok (.more next)) :
    next.level.Follows (c :: past) rest := by
  unfold Token.ofChar at ht
  split at ht
  · obtain ⟨-, hn⟩ := opening_cases ht
    cases hn
    exact Level.follows_of_pending_eq_nil rfl rfl
  · obtain ⟨around, opened, enclosing, inner, -, -, ⟨-, hn⟩ | ⟨-, condition, -, hn⟩⟩ :=
      closing_cases ht
    · cases hn
      exact Level.follows_of_pending_eq_nil Level.enter_pending rfl
    · cases hn
  · obtain ⟨-, level, hl, hn⟩ | ⟨-, condition, -, hn⟩ := semicolon_cases ht
    · obtain ⟨-, rfl⟩ := Level.connect_eq_ok_iff.1 hl
      cases hn
      exact Level.follows_of_pending_eq_nil Level.settle_pending rfl
    · cases hn
  · next ho hc hs' =>
    cases ht
    exact h.push (isMark_eq_false_iff.2 ⟨ho, hc, hs'⟩) hs

theorem isMark_of_complete
    (h : reading.onToken position (.ofChar c) = .ok (.complete condition)) : isMark c = true := by
  rw [← Bool.not_eq_false]
  intro hm
  rw [Token.ofChar_of_not_isMark hm] at h
  cases h

theorem follows_of_connect {a n d : Char} {level : Level}
    (hs : Keyword.starts past.head? (a :: n :: d :: rest) = true)
    (hc : reading.level.connect .and position = .ok level) :
    level.Follows (d :: n :: a :: past) rest := by
  obtain ⟨-, rfl⟩ := Level.connect_eq_ok_iff.1 hc
  refine Level.follows_of_pending_eq_nil Level.settle_pending ?_
  rw [Keyword.starts, Bool.and_eq_true, Keyword.leads, Bool.and_eq_true,
    Keyword.spells_eq_true_iff] at hs
  have hd := hs.2.1.2.2
  have hm := isMark_eq_false_iff.1 (isMark_eq_false_of_toLower (c := d) (by rw [hd]; decide))
  have hb : d ≠ ' ' := fun he => absurd hd (by rw [he]; decide)
  simp [Keyword.mayFollow, hm.1, hm.2.1, hb]

/-- Reading characters and reading tokens come to the same. -/
theorem consume_tokens (h : reading.level.Follows past text) (position : Nat) :
    reading.consume (position + text.length) (tokens past.head? position text) =
      (reading.run position text).map fun stop =>
        (stop.condition, tokens none stop.position stop.rest) := by
  induction hp : past.head?, text using token_induct generalizing reading past position with
  | nil =>
    rw [tokens_nil, consume, run, List.length_nil, Nat.add_zero]
    cases reading.finish position <;> rfl
  | keyword previous a n d rest hs ih =>
    rw [tokens_of_starts hs, run_of_starts h (hp ▸ hs)]
    cases hc : reading.level.connect .and position with
    | error fault =>
      refine consume_of_error ?_
      rw [onToken, hc]
      rfl
    | ok level =>
      have ht : reading.onToken position .keyword = .ok (.more { reading with level }) := by
        rw [onToken, hc]
        rfl
      have hf : level.Follows (d :: n :: a :: past) rest := follows_of_connect (hp ▸ hs) hc
      have hr := @ih { reading with level } _ hf (position + 3) rfl
      rw [consume_of_more ht, show position + (a :: n :: d :: rest).length =
        position + 3 + rest.length by simp only [List.length_cons]; omega]
      exact hr
  | char previous c rest hs ih =>
    have he := step_eq_onToken h position
    rw [tokens_of_not_starts hs]
    cases ht : reading.onToken position (.ofChar c) with
    | error fault => rw [consume_of_error ht, run_of_error (he.trans ht)]; rfl
    | ok progress =>
      cases progress with
      | more next =>
        have hr := ih (follows_of_onToken h (hp ▸ hs) ht) (position + 1) rfl
        rw [consume_of_more ht, run_of_more (he.trans ht), ← hr, List.length_cons]
        congr 1
        omega
      | complete condition =>
        rw [consume_of_complete ht, run_of_complete (he.trans ht)]
        change _ = Except.ok (condition, tokens none position (c :: rest))
        rw [tokens_of_isMark (isMark_of_complete ht)]

theorem ends_of_complete {following : Option Char}
    (h : reading.step position c following = .ok (.complete condition)) : c = ')' ∨ c = ';' := by
  unfold step at h
  split at h
  · rw [openBracket] at h
    split at h <;> cases h
  · exact .inl rfl
  · exact .inr rfl
  · obtain ⟨before, level, -, -, hp⟩ | ⟨-, hp⟩ := letter_cases h <;> cases hp

theorem position_add_length_of_run {stop : Stop} (h : reading.run position text = .ok stop) :
    stop.position + stop.rest.length = position + text.length := by
  induction text generalizing reading position with
  | nil =>
    rw [run] at h
    cases hf : reading.finish position with
    | error fault => rw [hf] at h; cases h
    | ok condition => rw [hf] at h; cases h; rfl
  | cons c rest ih =>
    cases hs : reading.step position c rest.head? with
    | error fault => rw [run_of_error hs] at h; cases h
    | ok progress =>
      cases progress with
      | more next =>
        rw [run_of_more hs] at h
        rw [ih h, List.length_cons]
        omega
      | complete condition => rw [run_of_complete hs] at h; cases h; rfl

/-- Reading stops where the text ends, or in front of a closing bracket or a semicolon. -/
theorem rest_of_run {stop : Stop} (h : reading.run position text = .ok stop) :
    stop.rest = [] ∨ ∃ c rest, stop.rest = c :: rest ∧ (c = ')' ∨ c = ';') := by
  induction text generalizing reading position with
  | nil =>
    rw [run] at h
    cases hf : reading.finish position with
    | error fault => rw [hf] at h; cases h
    | ok condition => rw [hf] at h; cases h; exact .inl rfl
  | cons c rest ih =>
    cases hs : reading.step position c rest.head? with
    | error fault => rw [run_of_error hs] at h; cases h
    | ok progress =>
      cases progress with
      | more next => rw [run_of_more hs] at h; exact ih h
      | complete condition =>
        rw [run_of_complete hs] at h
        cases h
        exact .inr ⟨c, rest, rfl, ends_of_complete hs⟩

end Reading

variable {position : Nat} {text : List Char} {stop : Stop}

theorem consume_eq_read (position : Nat) (text : List Char) :
    Reading.consume {} (position + text.length) (tokens none position text) =
      (read position text).map fun stop =>
        (stop.condition, tokens none stop.position stop.rest) :=
  @Reading.consume_tokens {} [] text (Level.follows_of_pending_eq_nil rfl rfl) position

theorem position_add_length_of_read (h : read position text = .ok stop) :
    stop.position + stop.rest.length = position + text.length :=
  Reading.position_add_length_of_run h

theorem rest_of_read (h : read position text = .ok stop) :
    stop.rest = [] ∨ ∃ c rest, stop.rest = c :: rest ∧ (c = ')' ∨ c = ';') :=
  Reading.rest_of_run h

theorem tokens_split_of_read (h : read position text = .ok stop) :
    ∃ before, text = before ++ stop.rest ∧ stop.position = position + before.length ∧
      tokens none position text =
        tokens none position before ++ tokens none stop.position stop.rest := by
  obtain ⟨before, ht⟩ := rest_suffix_of_read h
  have hl := position_add_length_of_read h
  rw [← ht, List.length_append] at hl
  have hp : stop.position = position + before.length := by omega
  refine ⟨before, ht.symm, hp, ?_⟩
  rcases rest_of_read h with hr | ⟨c, rest, hr, hc⟩
  · rw [← ht, hr, List.append_nil, tokens_nil, List.append_nil]
  · have hm : isMark c = true := by rcases hc with rfl | rfl <;> rfl
    rw [← ht, hr, tokens_append (parted_of_ends hc before rest), hp, tokens_of_isMark hm,
      tokens_of_isMark hm]

end ConditionalTags.Condition
