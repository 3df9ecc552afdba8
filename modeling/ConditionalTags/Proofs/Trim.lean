import ConditionalTags.Text.Blank

/-! # Text and the blanks around it

Trimming cuts a piece out of a text, takes nothing from a text that has been trimmed, and does not
see blanks that are put around a text.
-/
namespace ConditionalTags.Text

variable {text blanks : List Char}

theorem trimStart_append (h : ∀ c ∈ blanks, isBlank c = true) (text : List Char) :
    trimStart (blanks ++ text) = trimStart text := by
  induction blanks with
  | nil => rfl
  | cons c blanks ih =>
    rw [trimStart, List.cons_append, List.dropWhile_cons, if_pos (h c List.mem_cons_self)]
    exact ih fun x hx => h x (List.mem_cons_of_mem c hx)

theorem trimStart_append_of_ne_nil (h : trimStart text ≠ []) (rest : List Char) :
    trimStart (text ++ rest) = trimStart text ++ rest := by
  induction text with
  | nil => exact absurd rfl h
  | cons c text ih =>
    by_cases hc : isBlank c = true
    · simp only [trimStart, List.cons_append, List.dropWhile_cons, hc, ↓reduceIte] at h ⊢
      exact ih h
    · simp only [trimStart, List.cons_append, List.dropWhile_cons, hc]
      rfl

theorem trim_append (h : ∀ c ∈ blanks, isBlank c = true) (text : List Char) :
    trim (blanks ++ text) = trim text := by
  rw [trim, trimStart_append h, trim]

theorem trim_append_right (h : ∀ c ∈ blanks, isBlank c = true) (text : List Char) :
    trim (text ++ blanks) = trim text := by
  have hr : ∀ c ∈ blanks.reverse, isBlank c = true := fun c hc => h c (List.mem_reverse.1 hc)
  by_cases hn : trimStart text = []
  · have hall : ∀ c ∈ text ++ blanks, isBlank c = true := by
      intro c hc
      rcases List.mem_append.1 hc with hc | hc
      · exact (trimStart_eq_nil_iff text).1 hn c hc
      · exact h c hc
    rw [(trim_eq_nil_iff _).2 hall, (trim_eq_nil_iff _).2 ((trimStart_eq_nil_iff text).1 hn)]
  · rw [trim, trimStart_append_of_ne_nil hn, List.reverse_append, trimStart_append hr, trim]

theorem trimStart_trimStart (text : List Char) : trimStart (trimStart text) = trimStart text := by
  induction text with
  | nil => rfl
  | cons c text ih =>
    by_cases hc : isBlank c = true
    · simp only [trimStart, List.dropWhile_cons, hc, ↓reduceIte] at ih ⊢
      exact ih
    · simp [trimStart, hc]

theorem isInfix_trim (text : List Char) : trim text <:+: text := by
  have hs : trimStart text <:+ text := List.dropWhile_suffix _
  have hp : (trimStart (trimStart text).reverse).reverse <+: trimStart text := by
    rw [← List.reverse_suffix, List.reverse_reverse]
    exact List.dropWhile_suffix _
  exact hp.isInfix.trans hs.isInfix

/-- Only blanks are cut off. -/
theorem exists_trim_append (text : List Char) : ∃ front back,
    text = front ++ trim text ++ back ∧ (∀ c ∈ front, isBlank c = true) ∧
      ∀ c ∈ back, isBlank c = true := by
  refine ⟨text.takeWhile isBlank, ((trimStart text).reverse.takeWhile isBlank).reverse, ?_, ?_, ?_⟩
  · have hback : trim text ++ ((trimStart text).reverse.takeWhile isBlank).reverse = trimStart text := by
      rw [trim, trimStart, ← List.reverse_append, List.takeWhile_append_dropWhile, List.reverse_reverse]
    rw [List.append_assoc, hback, trimStart, List.takeWhile_append_dropWhile]
  · exact fun c hc => List.all_eq_true.1 List.all_takeWhile c hc
  · exact fun c hc => List.all_eq_true.1 List.all_takeWhile c (List.mem_reverse.1 hc)

theorem trimStart_eq_self (h : ∀ c ∈ text, isBlank c = false) : trimStart text = text := by
  cases text with
  | nil => rfl
  | cons c rest => rw [trimStart, List.dropWhile_cons_of_neg (by simp [h c List.mem_cons_self])]

theorem trim_eq_self (h : ∀ c ∈ text, isBlank c = false) : trim text = text := by
  rw [trim, trimStart_eq_self h, trimStart_eq_self fun c hc => h c (List.mem_reverse.1 hc),
    List.reverse_reverse]

/-- Cutting blanks off the end brings no blank to the front. -/
theorem trimStart_trim (text : List Char) : trimStart (trim text) = trim text := by
  have hp : trim text <+: trimStart text := by
    rw [trim, ← List.reverse_suffix, List.reverse_reverse]
    exact List.dropWhile_suffix _
  obtain ⟨rest, hr⟩ := hp
  by_cases hn : trimStart (trim text) = []
  · have hb := (trimStart_eq_nil_iff _).1 hn
    have hh := trimStart_append hb rest
    rw [hr, trimStart_trimStart] at hh
    have hl : trim text = [] := by
      have hlen := congrArg List.length hr
      have hle := (List.dropWhile_suffix (l := rest) isBlank).length_le
      rw [List.length_append, hh, trimStart] at hlen
      exact List.length_eq_zero_iff.1 (by omega)
    rw [hl]
    rfl
  · have hh := trimStart_append_of_ne_nil hn rest
    rw [hr, trimStart_trimStart, ← hr] at hh
    exact (List.append_cancel_right hh).symm

theorem trim_trim (text : List Char) : trim (trim text) = trim text := by
  rw [trim, trimStart_trim, trim, List.reverse_reverse, trimStart_trimStart]

theorem isBlank_of_mem_head?_trim {c : Char} (h : c ∈ (trim text).head?) : isBlank c = false := by
  cases ht : trim text with
  | nil => simp [ht] at h
  | cons d rest =>
    obtain rfl : d = c := by simpa [ht] using h
    cases hb : isBlank d with
    | false => rfl
    | true =>
      have hs := trimStart_trim text
      rw [ht, trimStart, List.dropWhile_cons, if_pos hb] at hs
      have hl := (List.dropWhile_suffix isBlank : rest.dropWhile isBlank <:+ rest).length_le
      rw [hs, List.length_cons] at hl
      exact absurd hl (Nat.not_succ_le_self _)

theorem head?_ne_space_of_trimmed {text : String} (h : trimmed text = text) :
    text.toList.head? ≠ some ' ' := by
  rw [← h, trimmed, String.toList_ofList]
  intro hs
  exact absurd (isBlank_of_mem_head?_trim hs) (by decide)

end ConditionalTags.Text
