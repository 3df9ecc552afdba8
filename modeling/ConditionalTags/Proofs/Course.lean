import ConditionalTags.Proofs.Acceptance

/-! # The course of a reading

A reading is followed from token to token: the states it comes to, with the position of each, and how
it halts. What every token keeps then holds of all these states, and how the reading ends is seen from
the last of them. From character to character there are two states more in each keyword, behind its
first two letters.
-/
namespace ConditionalTags.Condition

namespace Reading

/-- The reading of `text` comes to the state `reading`, with the text in front of position `i` read.
`position` is that of the text. -/
inductive Reached (text : List Char) (position : Nat) : Nat → Reading → Prop
  | start : Reached text position 0 {}
  | keyword {i : Nat} {reading : Reading} {level : Level} : Reached text position i reading →
      KeywordAt text i → reading.level.connect .and (position + i) = .ok level →
      Reached text position (i + 3) { reading with level }
  | char {i : Nat} {reading next : Reading} {c : Char} : Reached text position i reading →
      text[i]? = some c → ¬KeywordAt text i →
      reading.onToken (position + i) (.ofChar c) = .ok (.more next) →
      Reached text position (i + 1) next

/-- How a reading halts at position `i`: where the text ends, or at a token that is at fault or
completes the condition. -/
inductive Halts (text : List Char) (position i : Nat) (reading : Reading) :
    Except Fault Condition → Prop
  | finished : i = text.length →
      Halts text position i reading (reading.finish (position + text.length))
  | keyword {fault : Fault} : KeywordAt text i →
      reading.level.connect .and (position + i) = .error fault →
      Halts text position i reading (.error fault)
  | failed {c : Char} {fault : Fault} : text[i]? = some c →
      reading.onToken (position + i) (.ofChar c) = .error fault →
      Halts text position i reading (.error fault)
  | completed {c : Char} {condition : Condition} : text[i]? = some c →
      reading.onToken (position + i) (.ofChar c) = .ok (.complete condition) →
      Halts text position i reading (.ok condition)

variable {text : List Char} {position i : Nat} {reading : Reading} {condition : Condition}

theorem Reached.scanned (h : Reached text position i reading) :
    Scanned text position i reading := by
  induction h with
  | start => exact scanned_zero text position
  | keyword _ hk hc ih => exact ih.keyword hk hc
  | char _ hc hk ht ih => exact ih.onToken hc hk ht

theorem Reached.le_length (h : Reached text position i reading) : i ≤ text.length := by
  induction h with
  | start => exact Nat.zero_le _
  | keyword _ hk =>
    obtain ⟨_, _, _, -, -, hd, -⟩ := hk.letters
    exact lt_length_of_getElem? hd
  | char _ hc => exact lt_length_of_getElem? hc

theorem Reached.exists_halts {rest : List Char} (h : Reached text position i reading)
    (hr : text.drop i = rest) :
    ∃ j last, Reached text position j last ∧
      Halts text position j last ((reading.consume (position + text.length)
        (tokens (text.take i).getLast? (position + i) rest)).map Prod.fst) := by
  induction hp : (text.take i).getLast?, rest using token_induct generalizing reading i with
  | nil =>
    have hi : i = text.length := Nat.le_antisymm h.le_length (List.drop_eq_nil_iff.1 hr)
    refine ⟨i, reading, h, ?_⟩
    have hf : Halts text position i reading _ := .finished hi
    simp only [tokens_nil, consume]
    cases he : reading.finish (position + text.length) <;> rw [he] at hf <;> exact hf
  | keyword previous a n d rest hs ih =>
    have hk : KeywordAt text i := by simpa only [KeywordAt, hp, hr] using hs
    rw [tokens_of_starts hs]
    cases hc : reading.level.connect .and (position + i) with
    | error fault =>
      have ht : reading.onToken (position + i) .keyword = .error fault := by
        simp only [onToken, hc, bind, Except.bind]
      rw [consume_of_error ht]
      exact ⟨i, reading, h, .keyword hk hc⟩
    | ok level =>
      have ht : reading.onToken (position + i) .keyword = .ok (.more { reading with level }) := by
        simp only [onToken, hc, bind, Except.bind, pure, Except.pure]
      rw [consume_of_more ht]
      exact ih (h.keyword hk hc) (drop_of_drop_eq_keyword hr)
        (getLast?_take_succ (getElem?_of_drop_eq_keyword hr))
  | char previous c rest hs ih =>
    have hc : text[i]? = some c := by rw [← List.head?_drop, hr]; rfl
    have hk : ¬KeywordAt text i := by simp [KeywordAt, hp, hr, hs]
    rw [tokens_of_not_starts hs]
    cases ht : reading.onToken (position + i) (.ofChar c) with
    | error fault =>
      rw [consume_of_error ht]
      exact ⟨i, reading, h, .failed hc ht⟩
    | ok progress =>
      cases progress with
      | more next =>
        have hd : text.drop (i + 1) = rest := by simp [← List.drop_drop, hr]
        rw [consume_of_more ht]
        exact ih (h.char hc hk ht) hd (getLast?_take_succ hc)
      | complete condition =>
        rw [consume_of_complete ht]
        exact ⟨i, reading, h, .completed hc ht⟩

theorem exists_halts (text : List Char) (position : Nat) :
    ∃ i reading, Reached text position i reading ∧
      Halts text position i reading ((read position text).map Stop.condition) := by
  obtain ⟨i, reading, hr, hh⟩ := (Reached.start : Reached text position 0 {}).exists_halts rfl
  refine ⟨i, reading, hr, ?_⟩
  have hc := consume_eq_read position text
  simp only [List.take_zero, List.getLast?_nil, Nat.add_zero, List.drop_zero] at hh
  rw [hc] at hh
  cases hread : read position text <;> rw [hread] at hh <;> exact hh

theorem exists_completes {stop : Stop} (h : read position text = .ok stop) :
    ∃ reading, Reached text position (stopIndex text) reading ∧
      (stopIndex text = text.length ∧
          reading.finish (position + text.length) = .ok stop.condition ∨
        ∃ c, text[stopIndex text]? = some c ∧
          reading.onToken (position + stopIndex text) (.ofChar c) =
            .ok (.complete stop.condition)) := by
  obtain ⟨i, reading, hr, hh⟩ := exists_halts text position
  have hs := hr.scanned
  generalize hx : (read position text).map Stop.condition = result at hh
  rw [h] at hx
  cases hh with
  | finished hi =>
    subst hi
    obtain ⟨hstop, -⟩ := hs.of_finish hx.symm
    exact ⟨reading, hstop ▸ hr, .inl ⟨hstop, hx.symm⟩⟩
  | keyword => cases hx
  | failed => cases hx
  | completed hc ht =>
    cases hx
    obtain ⟨he, -⟩ := hs.onToken_complete hc ht
    have hstop := stopIndex_eq he hs.unended
    exact ⟨reading, hstop ▸ hr, .inr ⟨_, hstop ▸ hc, hstop ▸ ht⟩⟩

theorem Reached.follows (h : Reached text position i reading) :
    reading.level.Follows (text.take i).reverse (text.drop i) := by
  induction h with
  | start => exact Level.follows_of_pending_eq_nil rfl rfl
  | @keyword i reading level _ hk hc ih =>
    obtain ⟨a, n, d, ha, hn, hd, -⟩ := hk.letters
    rw [reverse_take_succ hd, reverse_take_succ hn, reverse_take_succ ha]
    exact follows_of_connect (hk.starts ha hn hd) hc
  | @char i reading next c _ hc hk ht ih =>
    rw [drop_eq_cons hc] at ih
    rw [reverse_take_succ hc]
    refine follows_of_onToken ih ?_ ht
    rw [List.head?_reverse, ← drop_eq_cons hc]
    exact Bool.eq_false_iff.2 hk

theorem Reached.beforeKeyword?_eq_some {a n d : Char} (h : Reached text position i reading)
    (hk : KeywordAt text i) (ha : text[i]? = some a) (hn : text[i + 1]? = some n)
    (hd : text[i + 2]? = some d) :
    ((reading.level.push a).push n).beforeKeyword? d text[i + 3]? = some reading.level.pending := by
  have hf := h.follows
  rw [drop_eq_cons ha, drop_eq_cons hn, drop_eq_cons hd] at hf
  rw [← List.head?_drop]
  exact hf.beforeKeyword?_eq_some (hk.starts ha hn hd)

/-- The state with the text in front of position `i` read, if the reading comes that far. `position` is
that of the text. -/
def stateAt (text : List Char) (position : Nat) : Nat → Option Reading
  | 0 => some {}
  | i + 1 =>
    match stateAt text position i, text[i]? with
    | some reading, some c =>
      match reading.step (position + i) c text[i + 1]? with
      | .ok (.more next) => some next
      | _ => none
    | _, _ => none

variable {next : Reading} {c : Char}

theorem stateAt_succ_cases (h : stateAt text position (i + 1) = some next) :
    ∃ reading c, stateAt text position i = some reading ∧ text[i]? = some c ∧
      reading.step (position + i) c text[i + 1]? = .ok (.more next) := by
  rw [stateAt] at h
  split at h
  · next reading c hr hc =>
    split at h
    · next hs => exact ⟨reading, c, hr, hc, Option.some.inj h ▸ hs⟩
    · cases h
  · cases h

theorem read_eq_run_of_stateAt (h : stateAt text position i = some reading) :
    read position text = reading.run (position + i) (text.drop i) := by
  induction i generalizing reading with
  | zero =>
    cases h
    rfl
  | succ i ih =>
    obtain ⟨earlier, c, he, hc, hs⟩ := stateAt_succ_cases h
    rw [← List.head?_drop] at hs
    rw [ih he, drop_eq_cons hc, run_of_more hs, Nat.add_assoc]

theorem exists_stateAt_of_read {stop : Stop} (h : read position text = .ok stop)
    (hi : position + i ≤ stop.position) : ∃ reading, stateAt text position i = some reading := by
  induction i with
  | zero => exact ⟨{}, rfl⟩
  | succ i ih =>
    obtain ⟨reading, hr⟩ := ih (by omega)
    rw [read_eq_run_of_stateAt hr] at h
    have hl := position_add_length_of_run h
    cases hd : text.drop i with
    | nil =>
      rw [hd, List.length_nil] at hl
      omega
    | cons c rest =>
      have hc : text[i]? = some c := by rw [← List.head?_drop, hd]; rfl
      have hn : text[i + 1]? = rest.head? := by
        rw [← List.head?_drop, ← List.tail_drop, hd, List.tail_cons]
      rw [hd] at h
      cases hs : reading.step (position + i) c rest.head? with
      | error fault => rw [run_of_error hs] at h; cases h
      | ok progress =>
        cases progress with
        | more next => exact ⟨next, by simp only [stateAt, hr, hc, hn, hs]⟩
        | complete condition =>
          rw [run_of_complete hs] at h
          cases h
          exact absurd hi (Nat.not_succ_le_self (position + i))

/-- A state that is reached from character to character: in front of a token, or inside a keyword,
whose letters so far are pending. -/
inductive Amid (text : List Char) (position : Nat) : Nat → Reading → Prop
  | whole {i : Nat} {reading : Reading} : Reached text position i reading →
      Amid text position i reading
  | first {i : Nat} {reading : Reading} {a : Char} : Reached text position i reading →
      stateAt text position i = some reading → KeywordAt text i → text[i]? = some a →
      Amid text position (i + 1) { reading with level := reading.level.push a }
  | second {i : Nat} {reading : Reading} {a n : Char} : Reached text position i reading →
      stateAt text position i = some reading → KeywordAt text i → text[i]? = some a →
      text[i + 1]? = some n →
      Amid text position (i + 2) { reading with level := (reading.level.push a).push n }

theorem amid_of_stateAt (h : stateAt text position i = some reading) :
    Amid text position i reading := by
  induction i generalizing reading with
  | zero =>
    cases h
    exact .whole .start
  | succ i ih =>
    obtain ⟨earlier, c, he, hc, hs⟩ := stateAt_succ_cases h
    cases ih he with
    | whole hr =>
      by_cases hk : KeywordAt text i
      · have hla := hk.toLower_eq.1 c hc
        rw [step_of_toLower (by rw [hla]; decide) (by rw [hla]; decide)] at hs
        cases hs
        exact .first hr he hk hc
      · have hf := hr.follows
        rw [drop_eq_cons hc] at hf
        rw [← List.head?_drop, step_eq_onToken hf] at hs
        exact .whole (hr.char hc hk hs)
    | @first i reading a hr hst hk ha =>
      have hln := hk.toLower_eq.2.1 c hc
      rw [step_of_toLower (by rw [hln]; decide) (by rw [hln]; decide)] at hs
      cases hs
      exact .second hr hst hk ha hc
    | @second i reading a n hr hst hk ha hn =>
      have hld := hk.toLower_eq.2.2 c hc
      rw [step_of_unmarked (isMark_eq_false_of_toLower (by rw [hld]; decide))] at hs
      have hb := hr.beforeKeyword?_eq_some hk ha hn hc
      obtain ⟨before, level, hb', hl, hp⟩ | ⟨hb', -⟩ := letter_cases hs
      · cases hb'.symm.trans hb
        cases hp
        exact .whole (hr.keyword hk hl)
      · cases hb'.symm.trans hb

end Reading

variable {text : List Char} {position : Nat} {stop : Stop}

theorem rest_eq_drop_of_read (h : read position text = .ok stop) :
    stop.rest = text.drop (stopIndex text) := by
  obtain ⟨-, hp⟩ := wellFormed_of_read h
  obtain ⟨before, ht, hb, -⟩ := tokens_split_of_read h
  have hl : stopIndex text = before.length := by omega
  rw [hl, ht, List.drop_left]

end ConditionalTags.Condition
