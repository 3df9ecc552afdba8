import ConditionalTags.Proofs.Scanned

/-! # Which texts are read

A text is read exactly if, up to the position where its condition stops, its brackets match and do
not nest too deep, no bracket pair has both connectives, and none is without text. All of this is said
of positions. A reader that goes on has scanned such a text, and in such a text no token is at fault.
-/
namespace ConditionalTags.Condition
open Text

/-- What makes the text up to `stop` a condition. -/
structure WellFormed (text : List Char) (stop : Nat) : Prop where
  opened : ∀ i ≤ stop, text[i]? = some ')' → openAt text i ≠ []
  closed : openAt text (stop + 1) = []
  shallow : ∀ i ≤ stop + 1, depthAt text i ≤ maxDepth
  /-- A semicolon at `stop` ends the condition and parts nothing. -/
  unmixed : ∀ i j, i < stop → j < stop → text[i]? = some ';' → KeywordAt text j →
    (openAt text i).head? ≠ (openAt text j).head?
  filled : ∀ p ≤ stop, text[p]? = some '(' → ∃ i < stop, TextAt text i ∧ p ∈ openAt text i
  nonblank : ∃ i < stop, TextAt text i

namespace Reading

variable {text : List Char} {position i : Nat} {reading : Reading} {c : Char}
  {condition : Condition} {around : Level} {opened : Nat} {inner : Condition}

theorem Scanned.wellFormed_of_closing (h : Scanned text position i reading)
    (hc : text[i]? = some ')') (he : reading.enclosing = [(around, opened)])
    (hcl : reading.level.close (position + i) = .ok inner) :
    EndsAt text i ∧ WellFormed text i := by
  obtain ⟨p, outer, ho, -, hd, hds⟩ := h.exists_openAt_eq he
  obtain rfl : outer = [] := List.length_eq_zero_iff.1 hds.length_eq.symm
  have hs : openAt text (i + 1) = [] := by rw [openAt_succ_of_closing hc, ho, List.tail_cons]
  refine ⟨.inr ⟨hc, by rw [depthAt, ho]; rfl⟩, ?_, hs, ?_, h.unmixed, ?_, ?_⟩
  · intro j hj hcj
    rcases Nat.lt_or_eq_of_le hj with hj | rfl
    · exact h.opened j hj hcj
    · rw [ho]
      exact List.cons_ne_nil p []
  · intro j hj
    rcases Nat.lt_or_eq_of_le hj with hj | rfl
    · exact h.shallow j (Nat.le_of_lt_succ hj)
    · rw [depthAt, hs]
      exact Nat.zero_le _
  · intro q hq hcq
    exact (h.filled_of_closing hc ho hd hcl (Nat.lt_succ_of_le hq) hcq).resolve_left List.not_mem_nil
  · obtain ⟨j, hj, ht, -⟩ := hd.content_iff.1 (Level.exists_close_iff.1 ⟨inner, hcl⟩)
    exact ⟨j, hj, ht⟩

theorem Scanned.wellFormed_of_outermost (h : Scanned text position i reading)
    (hc : text[i]? = some ';' ∨ text[i]? = none) (hn : reading.enclosing = [])
    (hcl : reading.level.close (position + i) = .ok condition) : WellFormed text i := by
  have ho := h.enclosing_eq_nil_iff.1 hn
  have hb : text[i]? ≠ some '(' ∧ text[i]? ≠ some ')' := by
    rcases hc with hc | hc <;> rw [hc] <;> decide
  have hs : openAt text (i + 1) = [] := by
    rcases openAt_succ_cases text i with ⟨hi, -⟩ | ⟨hi, -⟩ | ⟨-, -, he⟩
    · exact absurd hi hb.1
    · exact absurd hi hb.2
    · exact he.trans ho
  refine ⟨?_, hs, ?_, h.unmixed, ?_, ?_⟩
  · intro j hj hcj
    rcases Nat.lt_or_eq_of_le hj with hj | rfl
    · exact h.opened j hj hcj
    · exact absurd hcj hb.2
  · intro j hj
    rcases Nat.lt_or_eq_of_le hj with hj | rfl
    · exact h.shallow j (Nat.le_of_lt_succ hj)
    · rw [depthAt, hs]
      exact Nat.zero_le _
  · intro q hq hcq
    rcases Nat.lt_or_eq_of_le hq with hq | rfl
    · refine (h.filled q hq hcq).resolve_left ?_
      rw [ho]
      exact List.not_mem_nil
    · exact absurd hcq hb.1
  · have hd := h.described.innermost
    obtain ⟨j, hj, ht, -⟩ := hd.content_iff.1 (Level.exists_close_iff.1 ⟨condition, hcl⟩)
    exact ⟨j, hj, ht⟩

theorem Scanned.onToken_complete (h : Scanned text position i reading) (hc : text[i]? = some c)
    (ht : reading.onToken (position + i) (.ofChar c) = .ok (.complete condition)) :
    EndsAt text i ∧ WellFormed text i := by
  unfold Token.ofChar at ht
  split at ht
  · obtain ⟨-, hn⟩ := opening_cases ht
    cases hn
  · obtain ⟨around, opened, enclosing, inner, he, hcl, ⟨-, hp⟩ | ⟨hn, _, -, -⟩⟩ :=
      closing_cases ht
    · cases hp
    · exact h.wellFormed_of_closing hc (hn ▸ he) hcl
  · obtain ⟨-, level, -, hp⟩ | ⟨hn, _, hcl, -⟩ := semicolon_cases ht
    · cases hp
    · refine ⟨.inl ⟨hc, ?_⟩, h.wellFormed_of_outermost (.inl hc) hn hcl⟩
      rw [depthAt, h.enclosing_eq_nil_iff.1 hn]
      rfl
  · cases ht

theorem Scanned.le_stopIndex (h : Scanned text position i reading) (hl : i ≤ text.length) :
    i ≤ stopIndex text :=
  Condition.le_stopIndex hl h.unended

theorem Scanned.lt_stopIndex (h : Scanned text position i reading) (hl : i < text.length)
    (he : ¬EndsAt text i) : i < stopIndex text :=
  Condition.le_stopIndex hl (Nat.forall_lt_succ_right.2 ⟨h.unended, he⟩)

theorem Scanned.exists_close_of_outermost (h : Scanned text position i reading)
    (hw : WellFormed text i) (hn : reading.enclosing = []) :
    ∃ condition, reading.level.close (position + i) = .ok condition := by
  obtain ⟨j, hj, ht⟩ := hw.nonblank
  have hd := h.described.innermost
  rw [h.enclosing_eq_nil_iff.1 hn] at hd
  exact Level.exists_close_iff.2 (hd.content_iff.2 ⟨j, hj, ht, nofun⟩)

theorem Scanned.hasContent_of_closing {p : Nat} {outer : List Nat}
    (h : Scanned text position i reading) (hc : text[i]? = some ')')
    (ho : openAt text i = p :: outer) (hd : reading.level.Describes text i (some p))
    (hw : WellFormed text (stopIndex text)) : reading.level.HasContent := by
  have hi := h.le_stopIndex (Nat.le_of_lt (lt_length_of_getElem? hc))
  have hp := innermost_bracket ho
  obtain ⟨j, -, ht, hm⟩ := hw.filled p (Nat.le_trans (Nat.le_of_lt hp.1) hi) hp.2
  have hji : j < i := by
    refine Nat.lt_of_not_le fun hij => ?_
    rcases Nat.lt_or_eq_of_le hij with hij | rfl
    · exact not_mem_openAt (not_mem_openAt_succ hc ho) (Nat.lt_succ_of_lt hp.1) hij hm
    · obtain ⟨x, hx, hmx, -⟩ := ht
      cases hc.symm.trans hx
      cases hmx
  exact hd.content_iff.2 ⟨j, hji, ht, fun q hq => by cases hq; exact hm⟩

theorem Scanned.exists_closing (h : Scanned text position i reading) (hc : text[i]? = some ')')
    (hw : WellFormed text (stopIndex text)) :
    ∃ progress, reading.closeBracket (position + i) = .ok progress := by
  have hi := h.le_stopIndex (Nat.le_of_lt (lt_length_of_getElem? hc))
  cases he : reading.enclosing with
  | nil => exact absurd (h.enclosing_eq_nil_iff.1 he) (hw.opened i hi hc)
  | cons outside enclosing =>
    obtain ⟨around, opened⟩ := outside
    obtain ⟨p, outer, ho, -, hd, -⟩ := h.exists_openAt_eq he
    obtain ⟨inner, hcl⟩ : ∃ inner, reading.level.close (position + i) = .ok inner :=
      Level.exists_close_iff.2 (h.hasContent_of_closing hc ho hd hw)
    obtain ⟨condition, hcc⟩ :
        ∃ condition, (around.enter inner).close (position + i) = .ok condition :=
      Level.exists_close_iff.2 (Level.hasContent_enter inner)
    rw [closeBracket, he]
    simp only [hcl, bind, Except.bind]
    by_cases hn : enclosing.isEmpty = true
    · rw [if_pos hn, hcc]
      exact ⟨_, rfl⟩
    · rw [if_neg hn]
      exact ⟨_, rfl⟩

theorem Scanned.exists_semicolon (h : Scanned text position i reading)
    (hc : text[i]? = some ';') (hw : WellFormed text (stopIndex text)) :
    ∃ progress, reading.semicolon (position + i) = .ok progress := by
  rw [Reading.semicolon]
  by_cases hn : reading.enclosing = []
  · have he : EndsAt text i := .inl ⟨hc, by rw [depthAt, h.enclosing_eq_nil_iff.1 hn]; rfl⟩
    rw [stopIndex_eq he h.unended] at hw
    obtain ⟨condition, hcl⟩ := h.exists_close_of_outermost hw hn
    rw [if_pos (by rw [hn]; rfl), hcl]
    exact ⟨_, rfl⟩
  · have hends : ¬EndsAt text i := by
      rintro (⟨-, hz⟩ | ⟨he, -⟩)
      · exact hn (h.enclosing_eq_nil_iff.2 (List.length_eq_zero_iff.1 hz))
      · rw [hc] at he
        cases he
    have hi := h.lt_stopIndex (lt_length_of_getElem? hc) hends
    have hall : reading.level.connective.all (· == .or) = true := by
      rcases hl : reading.level.connective with _ | _ | _
      · rfl
      · obtain ⟨j, hj, hkey, hp⟩ := h.described.innermost.and_iff.1 hl
        exact absurd hp.symm (hw.unmixed i j hi (Nat.lt_trans hj hi) hc hkey)
      · rfl
    rw [if_neg (by simpa using hn), Level.connect_eq_ok_iff.2 ⟨hall, rfl⟩]
    exact ⟨_, rfl⟩

theorem Scanned.exists_keyword (h : Scanned text position i reading) (hk : KeywordAt text i)
    (hw : WellFormed text (stopIndex text)) :
    ∃ level, reading.level.connect .and (position + i) = .ok level := by
  obtain ⟨c, hc, hm⟩ := hk.unmarked (Nat.le_refl i) (by omega)
  obtain ⟨-, hcl, hs⟩ := isMark_eq_false_iff.1 hm
  have hends : ¬EndsAt text i := by
    rw [EndsAt, hc]
    simp [hcl, hs]
  have hi := h.lt_stopIndex (lt_length_of_getElem? hc) hends
  have hall : reading.level.connective.all (· == .and) = true := by
    rcases hl : reading.level.connective with _ | _ | _
    · rfl
    · rfl
    · obtain ⟨j, hj, hsj, hp⟩ := h.described.innermost.or_iff.1 hl
      exact absurd hp (hw.unmixed j i (Nat.lt_trans hj hi) hi hsj hk)
  exact ⟨_, Level.connect_eq_ok_iff.2 ⟨hall, rfl⟩⟩

theorem Scanned.exists_onToken (h : Scanned text position i reading) (hc : text[i]? = some c)
    (hw : WellFormed text (stopIndex text)) :
    ∃ progress, reading.onToken (position + i) (.ofChar c) = .ok progress := by
  unfold Token.ofChar
  split
  · have hl := lt_length_of_getElem? hc
    have hs := hw.shallow (i + 1) (Nat.succ_le_succ (h.le_stopIndex (Nat.le_of_lt hl)))
    rw [depthAt, openAt_succ_of_opening hc, List.length_cons, ← depthAt,
      ← h.enclosing_length] at hs
    exact ⟨_, if_pos hs⟩
  · exact h.exists_closing hc hw
  · exact h.exists_semicolon hc hw
  · exact ⟨_, rfl⟩

theorem Scanned.of_finish (h : Scanned text position text.length reading)
    (hf : reading.finish (position + text.length) = .ok condition) :
    stopIndex text = text.length ∧ WellFormed text (stopIndex text) := by
  have hs : stopIndex text = text.length :=
    Nat.le_antisymm (stopIndex_le text) (h.le_stopIndex (Nat.le_refl _))
  unfold finish at hf
  split at hf
  · next hn =>
    rw [hs]
    exact ⟨rfl, h.wellFormed_of_outermost (.inr (List.getElem?_eq_none (Nat.le_refl _))) hn hf⟩
  · cases hf

theorem getElem?_of_drop_eq_keyword {a n d : Char} {rest : List Char}
    (hr : text.drop i = a :: n :: d :: rest) : text[i + 2]? = some d := by
  rw [← List.getElem?_drop, hr]
  rfl

theorem drop_of_drop_eq_keyword {a n d : Char} {rest : List Char}
    (hr : text.drop i = a :: n :: d :: rest) : text.drop (i + 3) = rest := by
  rw [← List.drop_drop, hr]
  rfl

/-- If the reader goes on to a condition, the text is well formed and it has stopped in time. -/
theorem Scanned.of_consume {rest : List Char} {result : Condition × List (Token × Nat)}
    (h : Scanned text position i reading) (hl : i ≤ text.length) (hr : text.drop i = rest)
    (hc : reading.consume (position + text.length)
      (tokens (text.take i).getLast? (position + i) rest) = .ok result) :
    WellFormed text (stopIndex text) ∧
      result.2 = tokens none (position + stopIndex text) (text.drop (stopIndex text)) := by
  induction hp : (text.take i).getLast?, rest using token_induct generalizing reading i with
  | nil =>
    obtain rfl : i = text.length := Nat.le_antisymm hl (List.drop_eq_nil_iff.1 hr)
    rw [tokens_nil, consume] at hc
    cases hf : reading.finish (position + text.length) with
    | error fault => rw [hf] at hc; cases hc
    | ok condition =>
      obtain ⟨hs, hw⟩ := h.of_finish hf
      rw [hf] at hc
      cases hc
      rw [hs, List.drop_length]
      exact ⟨hs ▸ hw, rfl⟩
  | keyword previous a n d rest hs ih =>
    have hk : KeywordAt text i := by rw [KeywordAt, hp, hr]; exact hs
    have hd := getElem?_of_drop_eq_keyword hr
    rw [hp, tokens_of_starts hs] at hc
    cases ht : reading.onToken (position + i) .keyword with
    | error fault => rw [consume_of_error ht] at hc; cases hc
    | ok progress =>
      obtain ⟨level, hcl, rfl⟩ := keyword_cases ht
      rw [consume_of_more ht] at hc
      have hlast := getLast?_take_succ hd
      refine ih (h.keyword hk hcl) (lt_length_of_getElem? hd) (drop_of_drop_eq_keyword hr) ?_ hlast
      rw [hlast]
      exact hc
  | char previous c rest hs ih =>
    have hc' : text[i]? = some c := by rw [← List.head?_drop, hr]; rfl
    have hk : ¬KeywordAt text i := by rw [KeywordAt, hp, hr, hs]; exact Bool.false_ne_true
    rw [hp, tokens_of_not_starts hs] at hc
    cases ht : reading.onToken (position + i) (.ofChar c) with
    | error fault => rw [consume_of_error ht] at hc; cases hc
    | ok progress =>
      cases progress with
      | more next =>
        rw [consume_of_more ht] at hc
        have hlast := getLast?_take_succ hc'
        refine ih (h.onToken hc' hk ht) (lt_length_of_getElem? hc') ?_ ?_ hlast
        · rw [← List.drop_drop, hr]
          rfl
        · rw [hlast]
          exact hc
      | complete condition =>
        obtain ⟨he, hw⟩ := h.onToken_complete hc' ht
        rw [consume_of_complete ht] at hc
        cases hc
        rw [stopIndex_eq he h.unended, hr, tokens_of_isMark (isMark_of_complete ht)]
        exact ⟨hw, rfl⟩

/-- In a well-formed text the reader goes on to a condition. -/
theorem Scanned.exists_consume {rest : List Char} (h : Scanned text position i reading)
    (hl : i ≤ text.length) (hr : text.drop i = rest) (hw : WellFormed text (stopIndex text)) :
    ∃ result, reading.consume (position + text.length)
      (tokens (text.take i).getLast? (position + i) rest) = .ok result := by
  induction hp : (text.take i).getLast?, rest using token_induct generalizing reading i with
  | nil =>
    obtain rfl : i = text.length := Nat.le_antisymm hl (List.drop_eq_nil_iff.1 hr)
    have hs : stopIndex text = text.length :=
      Nat.le_antisymm (stopIndex_le text) (h.le_stopIndex (Nat.le_refl _))
    rw [hs] at hw
    have hn : reading.enclosing = [] := by
      rw [h.enclosing_eq_nil_iff, ← openAt_succ_of_none (List.getElem?_eq_none (Nat.le_refl _))]
      exact hw.closed
    obtain ⟨condition, hcl⟩ := h.exists_close_of_outermost hw hn
    refine ⟨(condition, []), ?_⟩
    rw [tokens_nil, consume, finish, hn]
    simp only [hcl, bind, Except.bind, pure, Except.pure]
  | keyword previous a n d rest hs ih =>
    have hk : KeywordAt text i := by rw [KeywordAt, hp, hr]; exact hs
    have hd := getElem?_of_drop_eq_keyword hr
    have hlast := getLast?_take_succ hd
    obtain ⟨level, hcl⟩ := h.exists_keyword hk hw
    have ht : reading.onToken (position + i) .keyword = .ok (.more { reading with level }) := by
      rw [Reading.onToken, hcl]
      rfl
    obtain ⟨result, hc⟩ := ih (h.keyword hk hcl) (lt_length_of_getElem? hd)
      (drop_of_drop_eq_keyword hr) hlast
    exact ⟨result, by rw [tokens_of_starts hs, consume_of_more ht]; exact hc⟩
  | char previous c rest hs ih =>
    have hc : text[i]? = some c := by rw [← List.head?_drop, hr]; rfl
    have hk : ¬KeywordAt text i := by rw [KeywordAt, hp, hr, hs]; exact Bool.false_ne_true
    obtain ⟨progress, ht⟩ := h.exists_onToken hc hw
    rw [tokens_of_not_starts hs]
    cases progress with
    | more next =>
      have hlast := getLast?_take_succ hc
      have hd : text.drop (i + 1) = rest := by
        rw [← List.drop_drop, hr]
        rfl
      obtain ⟨result, hcr⟩ := ih (h.onToken hc hk ht) (lt_length_of_getElem? hc) hd hlast
      exact ⟨result, by rw [consume_of_more ht]; exact hcr⟩
    | complete condition => exact ⟨_, consume_of_complete ht⟩

end Reading

variable {position : Nat} {text : List Char} {stop : Stop}

theorem wellFormed_of_read (h : read position text = .ok stop) :
    WellFormed text (stopIndex text) ∧ stop.position = position + stopIndex text := by
  have hc := consume_eq_read position text
  rw [h] at hc
  obtain ⟨hw, he⟩ := (Reading.scanned_zero text position).of_consume (Nat.zero_le _) rfl hc
  have hl := position_add_length_of_read h
  have hs := stopIndex_le text
  refine ⟨hw, position_eq_of_tokens_eq he ?_⟩
  rw [hl, List.length_drop]
  omega

theorem exists_read_of_wellFormed (position : Nat) (h : WellFormed text (stopIndex text)) :
    ∃ stop, read position text = .ok stop := by
  obtain ⟨result, hr⟩ :=
    (Reading.scanned_zero text position).exists_consume (Nat.zero_le _) rfl h
  have hc := consume_eq_read position text
  cases hread : read position text with
  | ok stop => exact ⟨stop, rfl⟩
  | error fault =>
    rw [hread] at hc
    cases hc.symm.trans hr

/-- A text is read exactly if it is well formed up to the position where its condition stops. That is
where reading stops, behind some text. -/
theorem exists_read_iff (position : Nat) (text : List Char) :
    ((∃ stop, read position text = .ok stop) ↔ WellFormed text (stopIndex text)) ∧
      ∀ stop, read position text = .ok stop →
        stop.position = position + stopIndex text ∧ stop.rest = text.drop (stopIndex text) ∧
          1 ≤ stopIndex text := by
  refine ⟨⟨fun ⟨stop, h⟩ => (wellFormed_of_read h).1, exists_read_of_wellFormed position⟩, ?_⟩
  intro stop h
  obtain ⟨hw, hp⟩ := wellFormed_of_read h
  obtain ⟨before, ht, hb, -⟩ := tokens_split_of_read h
  refine ⟨hp, ?_, ?_⟩
  · have hl : stopIndex text = before.length := by omega
    rw [hl, ht, List.drop_left]
  · obtain ⟨i, hi, -⟩ := hw.nonblank
    omega

/-- Nested brackets, both connectives in different pairs, and a semicolon behind them. -/
theorem exists_read_iff_nested :
    let text := "(a and (b;And c) ) ;x".toList
    let inner := join .or (leaf "b") (leaf "And c") []
    let stop : Stop := ⟨join .and (leaf "a") inner [], 24, [')', ' ', ';', 'x']⟩
    read 7 text = .ok stop ∧ WellFormed text (stopIndex text) ∧
      stop.position = 7 + stopIndex text ∧ stop.rest = text.drop (stopIndex text) ∧
      1 ≤ stopIndex text := by
  intro text inner stop
  have h : read 7 text = .ok stop := by rfl
  have hw := (exists_read_iff 7 text).1.1 ⟨stop, h⟩
  have hs := (exists_read_iff 7 text).2 stop h
  exact ⟨h, hw, hs⟩

end ConditionalTags.Condition
