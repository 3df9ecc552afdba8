import ConditionalTags.Proofs.Pieces
import ConditionalTags.Proofs.Trim

/-! # Line breaks in clauses

The characters of a clause come from the text it has been read from, and writing it adds brackets,
separators and tabs. So what is read from one line is written in one line.
-/
namespace ConditionalTags

namespace Condition
open Text

variable {condition : Condition} {text : List Char}

theorem mem_of_mem_leaves {position : Nat} {stop : Stop} (h : read position text = .ok stop) :
    ∀ leaf ∈ stop.condition.leaves, ∀ c ∈ leaf.toList, c ∈ text := by
  obtain ⟨spans, -, hl⟩ := exists_arePieces_of_read h
  intro leaf hm c hc
  rw [hl] at hm
  obtain ⟨span, -, rfl⟩ := List.mem_map.1 hm
  rw [Span.trimmed, String.toList_ofList] at hc
  have hspan : c ∈ span.chars text := (isInfix_trim _).subset hc
  exact List.mem_of_mem_take (List.mem_of_mem_drop hspan)

/-- No leaf has a line break. -/
def OneLine (condition : Condition) : Prop :=
  ∀ text ∈ condition.leaves, '\n' ∉ text.toList

theorem oneLine_join {connective : Connective} {first second : Condition} {others : List Condition} :
    (join connective first second others).OneLine ↔
      first.OneLine ∧ second.OneLine ∧ ∀ c ∈ others, c.OneLine := by
  simp only [OneLine, leaves_join, members, List.flatMap_cons, List.mem_append, List.mem_flatMap]
  constructor
  · exact fun h => ⟨fun t ht => h t (.inl ht), fun t ht => h t (.inr (.inl ht)),
      fun c hc t ht => h t (.inr (.inr ⟨c, hc, ht⟩))⟩
  · rintro ⟨h₁, h₂, ho⟩ t (ht | ht | ⟨c, hc, ht⟩)
    · exact h₁ t ht
    · exact h₂ t ht
    · exact ho c hc t ht

theorem lineBreak_not_mem_bracketed (h : '\n' ∉ text) : '\n' ∉ bracketed text := by
  simp [bracketed, h]

theorem lineBreak_not_mem_writtenLeaf (h : '\n' ∉ text) : '\n' ∉ writtenLeaf text := by
  unfold writtenLeaf
  split
  · simp [h]
  · exact h

theorem lineBreak_not_mem_guarded (h : '\n' ∉ text) (connective : Connective) (member : Condition) :
    '\n' ∉ guarded connective member text := by
  unfold guarded
  split
  · exact lineBreak_not_mem_bracketed h
  · exact h

theorem lineBreak_not_mem_separator (connective : Connective) : '\n' ∉ connective.separator := by
  cases connective <;> decide

theorem lineBreak_not_mem_writtenOthers {connective : Connective} {others : List Condition}
    (h : ∀ c ∈ others, '\n' ∉ c.written) : '\n' ∉ writtenOthers connective others := by
  induction others with
  | nil => exact List.not_mem_nil
  | cons c rest ih =>
    obtain ⟨hc, hr⟩ := List.forall_mem_cons.1 h
    simp only [writtenOthers, List.mem_append, not_or]
    exact ⟨⟨lineBreak_not_mem_separator connective, lineBreak_not_mem_guarded hc connective c⟩,
      ih hr⟩

theorem OneLine.written (h : condition.OneLine) : '\n' ∉ condition.written := by
  induction condition using Condition.induct with
  | leaf text => exact lineBreak_not_mem_writtenLeaf (h text List.mem_cons_self)
  | join connective first second others ih₁ ih₂ iho =>
    obtain ⟨h₁, h₂, ho⟩ := oneLine_join.1 h
    apply lineBreak_not_mem_bracketed
    simp only [List.mem_append, not_or]
    exact ⟨⟨⟨lineBreak_not_mem_guarded (ih₁ h₁) connective first,
      lineBreak_not_mem_separator connective⟩, lineBreak_not_mem_guarded (ih₂ h₂) connective second⟩,
      lineBreak_not_mem_writtenOthers fun c hc => iho c hc (ho c hc)⟩

end Condition

namespace Clause
open Text Condition

variable {clause : Clause} {text : List Char}

structure OneLine (clause : Clause) : Prop where
  value : '\n' ∉ clause.value.toList
  condition : ∀ condition ∈ clause.condition, condition.OneLine

theorem OneLine.written (h : clause.OneLine) : '\n' ∉ clause.written := by
  unfold Clause.written
  split
  · next condition hc =>
    have hw : '\n' ∉ writtenCondition condition := by
      cases condition with
      | leaf text => exact lineBreak_not_mem_bracketed (h.condition _ hc).written
      | join connective first second others => exact (h.condition _ hc).written
    simp [h.value, hw]
  · exact h.value

/-- What is read from one line has no line break. -/
theorem oneLine_of_mem_scan (h : '\n' ∉ text) (position : Nat) :
    ∀ entry ∈ (scan position text).entries, entry.clause.OneLine := by
  refine @forall_mem_scan_of_suffix (fun entry => entry.clause.OneLine) text ?_ position text
    text.suffix_refl
  intro position part value after stop hp hv hr
  obtain ⟨he, -⟩ := eq_of_cut_eq_some hv
  have hpart : '\n' ∉ part := fun hm => h (hp.subset hm)
  refine ⟨?_, ?_⟩
  · show '\n' ∉ (String.ofList (trim value)).toList
    rw [String.toList_ofList]
    intro hm
    exact hpart (by simp [he, (isInfix_trim value).subset hm])
  · rintro condition ⟨⟩ leaf hl hm
    have hbody := mem_of_mem_leaves hr leaf hl _ hm
    exact hpart (by simp [he, (List.dropWhile_suffix _).subset hbody])

theorem oneLine_of_readAll {value : String} {clauses : List Clause} (hv : '\n' ∉ value.toList)
    (h : readAll (some value) = .ok clauses) : ∀ clause ∈ clauses, clause.OneLine := by
  intro clause hc
  obtain ⟨entry, he, rfl, -⟩ := exists_entry_of_readAll h clause hc
  exact oneLine_of_mem_scan hv 0 entry he

end Clause

end ConditionalTags
