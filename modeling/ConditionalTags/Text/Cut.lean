/-! # Cutting text at a mark

Text is cut at the first occurrence of a character. The cut loses nothing but the mark.
-/
namespace ConditionalTags.Text

/-- The text before the first `mark`, and the text after it if the mark occurs. -/
def cut (mark : Char) : List Char → List Char × Option (List Char)
  | [] => ([], none)
  | c :: rest =>
    if c = mark then ([], some rest) else ((c :: (cut mark rest).1), (cut mark rest).2)

variable {mark : Char} {text before after : List Char}

theorem eq_of_cut_eq_some (h : cut mark text = (before, some after)) :
    text = before ++ mark :: after ∧ mark ∉ before := by
  induction text generalizing before with
  | nil => simp [cut] at h
  | cons c rest ih =>
    by_cases hc : c = mark
    · simp [cut, hc] at h
      obtain ⟨rfl, rfl⟩ := h
      simp [hc]
    · simp [cut, hc] at h
      obtain ⟨rfl, hr⟩ := h
      obtain ⟨he, hn⟩ := @ih (cut mark rest).1 (by rw [← hr])
      exact ⟨by rw [List.cons_append, ← he], by simp [hn, Ne.symm hc]⟩

theorem eq_of_cut_eq_none (h : cut mark text = (before, none)) :
    text = before ∧ mark ∉ before := by
  induction text generalizing before with
  | nil => simp_all [cut]
  | cons c rest ih =>
    by_cases hc : c = mark
    · simp [cut, hc] at h
    · simp [cut, hc] at h
      obtain ⟨rfl, hr⟩ := h
      obtain ⟨he, hn⟩ := @ih (cut mark rest).1 (by rw [← hr])
      exact ⟨by rw [← he], by simp [hn, Ne.symm hc]⟩

theorem cut_append (h : mark ∉ before) (rest : List Char) :
    cut mark (before ++ mark :: rest) = (before, some rest) := by
  induction before with
  | nil => simp [cut]
  | cons c before ih =>
    have hc : c ≠ mark := fun e => h (by simp [e])
    simp [cut, hc, ih fun hm => h (by simp [hm])]

theorem cut_append_of_eq_some (h : cut mark text = (before, some after)) (rest : List Char) :
    cut mark (text ++ rest) = (before, some (after ++ rest)) := by
  obtain ⟨rfl, hn⟩ := eq_of_cut_eq_some h
  rw [List.append_assoc, List.cons_append, cut_append hn]

theorem cut_fst (mark : Char) (text : List Char) :
    (cut mark text).1 = text.takeWhile (· != mark) := by
  induction text with
  | nil => rfl
  | cons c text ih =>
    by_cases hc : c = mark
    · simp [cut, hc]
    · simp [cut, hc, ih]

/-- The text in front of a mark, with what follows it. -/
theorem exists_cut_append (mark : Char) (text : List Char) :
    mark ∉ (cut mark text).1 ∧ ∃ rest, text = (cut mark text).1 ++ rest := by
  cases hc : cut mark text with
  | mk before after =>
    cases after with
    | none =>
      obtain ⟨he, hn⟩ := eq_of_cut_eq_none hc
      exact ⟨hn, [], by simpa using he⟩
    | some after =>
      obtain ⟨he, hn⟩ := eq_of_cut_eq_some hc
      exact ⟨hn, _, he⟩

end ConditionalTags.Text
