import ConditionalTags.Proofs.Blame

/-! # The caret under the offender

A diagnostic shows a rejected value and marks the character that is to blame. Every position that
reading gives is that of a character of the value, except where the value ends without a condition:
there the caret stands one column behind the last character. A value without a position to blame has
characters all the same, and all of them are marked.
-/
namespace ConditionalTags

namespace Condition

variable {text : List Char} {i : Nat} {kind : FaultKind}

theorem lt_length_of_offendsAt (h : OffendsAt text i kind) (hk : kind ≠ .emptyGroup) :
    i < text.length := by
  cases kind with
  | tooDeep => exact lt_length_of_getElem? h.1
  | unclosedBracket => exact lt_length_of_getElem? h.1
  | unopenedBracket => exact lt_length_of_getElem? h.1
  | emptyGroup => exact absurd rfl hk
  | mixedConnectives =>
    obtain ⟨pair, connective, other, -, -, hp, -, -⟩ := h
    cases connective with
    | and =>
      obtain ⟨_, _, _, ha, -⟩ := KeywordAt.letters hp
      exact lt_length_of_getElem? ha
    | or => exact lt_length_of_getElem? hp
  | noConditions => exact h.elim
  | noValue => exact h.elim
  | unfinishedClause => exact h.elim

end Condition

namespace Clause

variable {text : List Char} {p : Nat} {kind : FaultKind} {value : String} {fault : Fault}

theorem lt_length_of_offendsAt (h : OffendsAt text p kind) (hk : kind ≠ .emptyGroup) :
    p < text.length := by
  have hinside : ∀ body i, p = body + i → Condition.OffendsAt (text.drop body) i kind →
      p < text.length := by
    intro body i hp ho
    have hi := Condition.lt_length_of_offendsAt ho hk
    rw [List.length_drop] at hi
    omega
  cases kind with
  | noConditions => exact h.elim
  | noValue =>
    obtain ⟨_, _, _, -, -, hsign, -⟩ := h
    exact Condition.lt_length_of_getElem? hsign
  | unfinishedClause =>
    obtain ⟨start, blanks, c, rest, -, -, ht, rfl, -⟩ := h
    have hl := congrArg List.length ht
    simp only [List.length_drop, List.length_append, List.length_cons] at hl
    omega
  | _ =>
    obtain ⟨_, segment, _, -, -, i, -, hp, ho⟩ := h
    exact hinside segment.body i hp ho

/-- A fault of a value points at one of its characters, or behind the last of them if the value ends
without a condition. -/
theorem position_of_readAll (h : readAll (some value) = .error fault) (hp : fault.position = some p) :
    p < value.length ∨ p = value.length ∧ fault.kind = .emptyGroup := by
  have hf := scan_follows value.toList
  have hoffends : p ≤ value.toList.length ∧ OffendsAt value.toList p fault.kind := by
    rcases of_verdict_eq_error (verdict_of_readAll_eq_error h) with he | ⟨hn, ⟨-, rfl⟩ |
      ⟨before, entry, after, he, hb, hv, rfl⟩ | ⟨mark, he, rfl⟩⟩
    · obtain ⟨q, hq, hpos, -, ho⟩ := offendsAt_of_failed hf he
      cases hpos.symm.trans hp
      exact ⟨hq, ho⟩
    · cases hp
    · cases hp
      exact offendsAt_of_blank (he ▸ hf.segments hn) hb hv
    · cases hp
      rw [Scan.Follows, he] at hf
      obtain ⟨-, start, hr, hm⟩ := hf
      exact offendsAt_of_dangling hr hm.symm
  rw [String.length_toList] at hoffends
  by_cases hk : fault.kind = .emptyGroup
  · exact (Nat.lt_or_eq_of_le hoffends.1).imp_right (⟨·, hk⟩)
  · have hlt := lt_length_of_offendsAt hoffends.2 hk
    rw [String.length_toList] at hlt
    exact .inl hlt

end Clause

namespace Fault

variable {value : String} {fault : Fault} {p : Nat}

def lineOf (text : List Char) : List Char :=
  "  | ".toList ++ text

theorem lineBreak_not_mem_lineOf {text : List Char} (h : '\n' ∉ text) : '\n' ∉ lineOf text := by
  simp [lineOf, h]

theorem splitOn_diagnostic (fault : Fault) (value : String) :
    (fault.diagnostic value).toList.splitOn '\n' =
      ("error: ".toList ++ fault.message.toList) ::
        ((lineOf value.toList).splitOn '\n' ++ [lineOf (marker value.length fault.position), []]) := by
  have hmessage : '\n' ∉ "error: ".toList ++ fault.message.toList := by
    simp [fault.lineBreak_not_mem_message]
  have hmarker := lineBreak_not_mem_lineOf (lineBreak_not_mem_marker value.length fault.position)
  have ht : (fault.diagnostic value).toList = ("error: ".toList ++ fault.message.toList) ++ '\n' ::
      (lineOf value.toList ++ '\n' :: (lineOf (marker value.length fault.position) ++ ['\n'])) := by
    simp [diagnostic, lineOf]
  rw [ht, List.splitOn_append_cons_self_of_not_mem hmessage, List.splitOn_append_cons_self,
    List.splitOn_append_cons_self_of_not_mem hmarker, List.splitOn_nil]

theorem marker_eq_of_le {width : Nat} (h : p ≤ width) :
    marker width (some p) = List.replicate p ' ' ++ ['^'] := by
  rw [marker, Nat.min_eq_left h]

theorem marker_eq_of_pos {width : Nat} (h : 1 ≤ width) :
    marker width none = List.replicate width '^' := by
  rw [marker, Nat.max_eq_left h]

theorem getElem?_lineOf (text : List Char) (i : Nat) : (lineOf text)[4 + i]? = text[i]? := by
  rw [lineOf, List.getElem?_append_right (Nat.le_add_right 4 i)]
  simp

/-- The diagnostic of a rejected value of one line has three lines. The caret stands below the character
that is to blame, or one column behind the last one for an end without a condition; without a position
every character has a caret. Of any value and any position, there is one caret in the last line, with no
more spaces in front than the value has characters. -/
theorem splitOn_diagnostic_of_readAll (value : String) (fault : Fault) :
    ('\n' ∉ value.toList → Clause.readAll (some value) = .error fault →
      ∃ marks, (fault.diagnostic value).toList.splitOn '\n' =
          ["error: ".toList ++ fault.message.toList, lineOf value.toList, lineOf marks, []] ∧
        (∀ p, fault.position = some p →
          marks = List.replicate p ' ' ++ ['^'] ∧ min p value.length = p ∧
          (lineOf marks)[4 + p]? = some '^' ∧ (lineOf value.toList)[4 + p]? = value.toList[p]? ∧
          (p < value.length ∨ p = value.length ∧ fault.kind = .emptyGroup)) ∧
        (fault.position = none → value ≠ "" ∧ marks = List.replicate value.length '^')) ∧
    ∀ p, fault.position = some p → ∃ before, (fault.diagnostic value).toList.splitOn '\n' =
      before ++ [lineOf (List.replicate (min p value.length) ' ' ++ ['^']), []] := by
  constructor
  · intro hv h
    refine ⟨marker value.length fault.position, ?_, ?_, ?_⟩
    · rw [splitOn_diagnostic, List.splitOn_eq_singleton (lineBreak_not_mem_lineOf hv)]
      rfl
    · intro p hp
      have hbound := Clause.position_of_readAll h hp
      have hle : p ≤ value.length := hbound.elim Nat.le_of_lt fun hend => Nat.le_of_eq hend.1
      rw [hp, marker_eq_of_le hle]
      refine ⟨rfl, Nat.min_eq_left hle, ?_, getElem?_lineOf _ p, hbound⟩
      rw [getElem?_lineOf]
      simp
    · intro hp
      have hne := Clause.ne_empty_of_readAll_eq_error h
      have hlength : 1 ≤ value.length := by
        rw [← String.length_toList]
        exact List.length_pos_iff.2 (mt String.toList_eq_nil_iff.1 hne)
      rw [hp, marker_eq_of_pos hlength]
      exact ⟨hne, rfl⟩
  · intro p hp
    rw [splitOn_diagnostic, hp, marker]
    exact ⟨_ :: (lineOf value.toList).splitOn '\n', rfl⟩

/-- Characters of several bytes, in front of and behind the semicolon that is to blame. -/
theorem splitOn_diagnostic_of_readAll_wide :
    let value := "né\u3000@ (ä AND ö; ü)"
    let fault : Fault := ⟨.mixedConnectives, some 13⟩
    '\n' ∉ value.toList ∧ Clause.readAll (some value) = .error fault ∧
      (fault.diagnostic value).toList.splitOn '\n' =
        ["error: mix of AND/OR without braces".toList, "  | né\u3000@ (ä AND ö; ü)".toList,
          "  |              ^".toList, []] := by
  intro value fault
  have hv : '\n' ∉ value.toList := by decide +kernel
  have h : Clause.readAll (some value) = .error fault := by decide +kernel
  obtain ⟨marks, hlines, hpoint, -⟩ := (splitOn_diagnostic_of_readAll value fault).1 hv h
  obtain ⟨rfl, -⟩ := hpoint 13 rfl
  exact ⟨hv, h, hlines.trans (by decide +kernel)⟩

end Fault

end ConditionalTags
