import ConditionalTags.Json.Basic

/-! # JSON printed further in

A value that is printed one level deeper has two more spaces behind each of its line breaks, and is
the same otherwise. The line breaks of a printed value are those of its layout: one inside a string
is escaped.
-/
namespace ConditionalTags.Json

/-- The text with two spaces more behind each line break. -/
def indented (text : List Char) : List Char :=
  text.flatMap fun c => if c = '\n' then ['\n', ' ', ' '] else [c]

variable {text : List Char} {depth : Nat}

theorem indented_append (first second : List Char) :
    indented (first ++ second) = indented first ++ indented second :=
  List.flatMap_append

theorem indented_of_not_mem (h : '\n' ∉ text) : indented text = text := by
  induction text with
  | nil => rfl
  | cons c rest ih =>
    obtain ⟨hc, hr⟩ := not_or.1 (mt List.mem_cons.2 h)
    rw [indented, List.flatMap_cons, if_neg (Ne.symm hc), List.singleton_append]
    exact congrArg (c :: ·) (ih hr)

theorem indented_lineBreak (depth : Nat) : indented (lineBreak depth) = lineBreak (depth + 1) := by
  have hs : '\n' ∉ List.replicate (2 * depth) ' ' := by
    intro hm
    exact absurd (List.eq_of_mem_replicate hm) (by decide)
  have hi : indented (lineBreak depth) = ['\n', ' ', ' '] ++ List.replicate (2 * depth) ' ' :=
    congrArg (['\n', ' ', ' '] ++ ·) (indented_of_not_mem hs)
  rw [hi, lineBreak, Nat.mul_succ]
  rfl

theorem lineBreak_not_mem_escaped (c : Char) : '\n' ∉ escaped c := by
  have hd : ∀ n < 16, Nat.digitChar n ≠ '\n' := by decide
  unfold escaped
  split
  any_goals decide
  next hn _ _ =>
    split
    · next hc =>
      have h₁ := hd (c.toNat / 16) (by omega)
      have h₂ := hd (c.toNat % 16) (by omega)
      simp [h₁.symm, h₂.symm]
    · simpa using Ne.symm hn

theorem lineBreak_not_mem_quoted (content : List Char) : '\n' ∉ quoted content := by
  simp only [quoted, List.cons_append, List.mem_cons, List.mem_append, List.mem_flatMap]
  rintro (h | ⟨c, -, h⟩ | h)
  · exact absurd h (by decide)
  · exact lineBreak_not_mem_escaped c h
  · exact absurd h (by decide)

theorem indented_intercalate (separator : List Char) (entries : List (List Char)) :
    indented (List.intercalate separator entries) =
      List.intercalate (indented separator) (entries.map indented) := by
  induction entries with
  | nil => rfl
  | cons entry rest ih =>
    cases rest with
    | nil => simp [List.intercalate]
    | cons next rest =>
      simp only [List.map_cons, List.intercalate_cons_cons] at ih ⊢
      rw [indented_append, indented_append, ih]

theorem indented_enclosed {opening closing : Char} (ho : opening ≠ '\n') (hc : closing ≠ '\n')
    (depth : Nat) (entries : List (List Char)) :
    indented (enclosed opening closing depth entries) =
      enclosed opening closing (depth + 1) (entries.map indented) := by
  have hone : ∀ c, c ≠ '\n' → indented [c] = [c] := fun c h =>
    indented_of_not_mem (by simpa using h.symm)
  cases entries with
  | nil => exact indented_of_not_mem (by simp [enclosed, ho.symm, hc.symm])
  | cons entry rest =>
    have hs : indented (',' :: lineBreak (depth + 1)) = ',' :: lineBreak (depth + 2) :=
      congrArg (',' :: ·) (indented_lineBreak (depth + 1))
    have hb : indented (opening :: lineBreak (depth + 1)) = opening :: lineBreak (depth + 2) := by
      rw [← List.singleton_append, indented_append, hone opening ho, indented_lineBreak]
      rfl
    simp only [enclosed, List.map_cons]
    rw [indented_append, indented_append, indented_append, hb, indented_intercalate, hs,
      indented_lineBreak, hone closing hc, List.map_cons]

/-- A value one level deeper is the value with its line breaks indented. -/
theorem pretty_succ (json : Json) (depth : Nat) :
    json.pretty (depth + 1) = indented (json.pretty depth) := by
  induction json using induct generalizing depth with
  | null => rfl
  | text content => exact (indented_of_not_mem (lineBreak_not_mem_quoted _)).symm
  | list items ih =>
    rw [pretty, pretty, prettyItems_eq_map, prettyItems_eq_map,
      indented_enclosed (by decide) (by decide), List.map_map]
    congr 1
    exact List.map_congr_left fun item hi => ih item hi (depth + 1)
  | record fields ih =>
    rw [pretty, pretty, prettyFields_eq_map, prettyFields_eq_map,
      indented_enclosed (by decide) (by decide), List.map_map]
    congr 1
    refine List.map_congr_left fun field hf => ?_
    have hk : '\n' ∉ quoted field.1.toList ++ ": ".toList := by
      simpa using lineBreak_not_mem_quoted field.1.toList
    rw [Function.comp_apply, indented_append, indented_of_not_mem hk, ih field hf]

end ConditionalTags.Json
