import ConditionalTags.Proofs.Appending

/-! # Faults that no further text mends

A condition is read from left to right with one character of foresight, which only the keyword needs.
So whatever halts a reading in front of the end of the text halts it as well when more text follows,
and a fault that is found in this way stands. A bracket without a partner is found only where the text
ends, and so is an outermost level that comes to nothing there.
-/
namespace ConditionalTags

/-- The fault is found inside a condition, in front of position `last`, where the text ends. -/
def Fault.IsFinal (last : Nat) (fault : Fault) : Prop :=
  fault.kind = .tooDeep ∨ fault.kind = .unopenedBracket ∨ fault.kind = .mixedConnectives ∨
    fault.kind = .emptyGroup ∧ ∃ p < last, fault.position = some p

namespace Condition

def Stop.followedBy (more : List Char) (stop : Stop) : Stop :=
  { stop with rest := stop.rest ++ more }

/-- The outcome of a reading that has halted in front of position `last`, where the text ends. -/
def HaltsBefore (last : Nat) : Except Fault Stop → Prop
  | .ok stop => stop.rest ≠ []
  | .error fault => fault.IsFinal last

namespace Reading

variable {reading : Reading} {position : Nat} {text : List Char} {fault : Fault}

theorem not_isFinal_of_finish (h : reading.finish position = .error fault) :
    ¬fault.IsFinal position := by
  rw [finish] at h
  split at h
  · obtain ⟨-, rfl⟩ := Level.close_eq_error h
    rintro (hk | hk | hk | ⟨-, p, hp, he⟩)
    · cases hk
    · cases hk
    · cases hk
    · cases he
      exact Nat.lt_irrefl position hp
  · cases h
    rintro (hk | hk | hk | ⟨hk, -⟩) <;> cases hk

theorem not_haltsBefore_nil : ¬HaltsBefore position (reading.run position []) := by
  intro h
  rw [run] at h
  cases hf : reading.finish position with
  | error fault =>
    rw [hf] at h
    exact not_isFinal_of_finish hf h
  | ok condition =>
    rw [hf] at h
    exact h rfl

theorem step_none_cases (reading : Reading) (position : Nat) (c : Char) :
    (∃ next, reading.step position c none = .ok (.more next)) ∨
      ∀ following, reading.step position c following = reading.step position c none := by
  unfold step
  split
  · exact .inr fun _ => rfl
  · exact .inr fun _ => rfl
  · exact .inr fun _ => rfl
  · have hk : reading.level.beforeKeyword? c none = none := by
      rw [Level.beforeKeyword?]
      split
      · rw [Keyword.mayPrecede, Bool.and_false]
        rfl
      · rfl
    rw [letter, hk]
    exact .inl ⟨_, rfl⟩

theorem run_append_of_haltsBefore
    (h : HaltsBefore (position + text.length) (reading.run position text)) (more : List Char) :
    reading.run position (text ++ more) =
      (reading.run position text).map (Stop.followedBy more) := by
  induction text generalizing reading position with
  | nil => exact absurd h not_haltsBefore_nil
  | cons c rest ih =>
    have hl : position + (c :: rest).length = position + 1 + rest.length := by
      rw [List.length_cons]
      omega
    rw [hl] at h
    have hs : reading.step position c (rest ++ more).head? =
        reading.step position c rest.head? := by
      cases rest with
      | cons d rest => rfl
      | nil =>
        rcases step_none_cases reading position c with ⟨next, hn⟩ | hall
        · rw [run_of_more hn] at h
          exact absurd h not_haltsBefore_nil
        · exact hall _
    cases hstep : reading.step position c rest.head? with
    | error fault =>
      rw [run_of_error hstep]
      exact run_of_error (hs.trans hstep)
    | ok progress =>
      cases progress with
      | more next =>
        rw [run_of_more hstep] at h ⊢
        exact (run_of_more (hs.trans hstep)).trans (ih h)
      | complete condition =>
        rw [run_of_complete hstep]
        exact run_of_complete (hs.trans hstep)

end Reading

theorem read_append_of_haltsBefore {position : Nat} {text : List Char}
    (h : HaltsBefore (position + text.length) (read position text)) (more : List Char) :
    read position (text ++ more) = (read position text).map (Stop.followedBy more) :=
  Reading.run_append_of_haltsBefore h more

end Condition

namespace Clause
open Text Condition

variable {position : Nat} {text value after : List Char} {fault : Fault}

theorem read_bodyAt_append_of_haltsBefore {result : Except Fault Stop}
    (hv : cut '@' text = (value, some after)) (hb : after.dropWhile (· == ' ') ≠ [])
    (hr : Condition.read (bodyAt position value after) (after.dropWhile (· == ' ')) = result)
    (h : HaltsBefore (position + text.length) result) (more : List Char) :
    Condition.read (bodyAt position value (after ++ more))
        ((after ++ more).dropWhile (· == ' ')) = result.map (Stop.followedBy more) := by
  rw [← bodyAt_add_length hv, ← hr] at h
  rw [body_append hb, bodyAt_append hb, read_append_of_haltsBefore h, hr]

theorem scan_append_of_failed (h : (scan position text).ending = .failed fault)
    (hf : fault.IsFinal (position + text.length)) (more : List Char) :
    scan position (text ++ more) = scan position text := by
  induction position, text using scan_induct with
  | unsigned position text value hv => simp [scan_of_unsigned hv] at h
  | blank position text value after hv hb => simp [scan_of_blank hv hb] at h
  | failed position text value after other hv hb hr =>
    rw [scan_of_error hv hb hr] at h ⊢
    cases h
    exact scan_of_error (cut_append_of_eq_some hv more) (body_append_ne_nil hb more)
      (read_bodyAt_append_of_haltsBefore hv hb hr hf more)
  | last position text value after stop skipped hv hb hr hs => simp [scan_of_last hv hb hr hs] at h
  | more position text value after stop skipped next hv hb hr hs ih =>
    have hrest : stop.rest ≠ [] := by
      intro he
      rw [he] at hs
      cases hs
    have hread := read_bodyAt_append_of_haltsBefore hv hb hr hrest more
    rw [scan_of_more hv hb hr hs] at h ⊢
    rw [scan_of_more (cut_append_of_eq_some hv more) (body_append_ne_nil hb more) hread
      (cut_append_of_eq_some hs more)]
    have hscan := ih h (next_add_length hv hr hs ▸ hf)
    simp only [Stop.followedBy, hscan]
    rfl

/-- A fault that is found inside a condition, in front of the end of the value, is the fault of every
longer value that begins in the same way. -/
theorem readAll_append_of_isFinal {value : String} (h : readAll (some value) = .error fault)
    (hf : fault.IsFinal value.length) (more : String) :
    readAll (some (value ++ more)) = .error fault := by
  have hn : value ++ more ≠ "" := by
    intro he
    exact ne_empty_of_readAll_eq_error h (String.append_eq_empty_iff.1 he).1
  have hv := verdict_of_readAll_eq_error h
  have hfailed : (scan 0 value.toList).ending = .failed fault := by
    rcases of_verdict_eq_error hv with he | ⟨-, ⟨-, rfl⟩ | ⟨_, _, _, -, -, -, rfl⟩ | ⟨_, -, rfl⟩⟩
    · exact he
    all_goals rcases hf with hk | hk | hk | ⟨hk, -⟩ <;> cases hk
  have hlast : fault.IsFinal (0 + value.toList.length) := by
    rwa [Nat.zero_add, String.length_toList]
  rw [readAll_eq_verdict hn, String.toList_append, scan_append_of_failed hfailed hlast, hv]

/-- A pair without text. The value ends in front of a space that makes a keyword of its last letters. -/
theorem readAll_append_of_isFinal_keyword :
    let value := "no @ a; yes @ (b;(\t; ) and"
    let fault : Fault := ⟨.emptyGroup, some 21⟩
    readAll (some value) = .error fault ∧ fault.IsFinal value.length ∧
      readAll (some (value ++ " (c))")) = .error fault := by
  intro value fault
  have h : readAll (some value) = .error fault := by decide +kernel
  have hf : fault.IsFinal value.length := .inr (.inr (.inr ⟨rfl, 21, by decide +kernel, rfl⟩))
  exact ⟨h, hf, readAll_append_of_isFinal h hf _⟩

end Clause

end ConditionalTags
