import ConditionalTags.Proofs.ClauseScan
import ConditionalTags.Proofs.TokenReader

/-! # Reading further right

A text that stands further right is read as it would be at the start of a value. Every position moves
with it: those of the brackets that are open, of the signs, and of the faults.
-/
namespace ConditionalTags

/-- The fault with `offset` characters in front of its text. -/
def Fault.moved (offset : Nat) (fault : Fault) : Fault :=
  { fault with position := fault.position.map (offset + ·) }

/-- The outcome of reading with `offset` characters in front of the text, where `move` moves what has
been read. -/
def movedWith {α : Type} (offset : Nat) (move : α → α) : Except Fault α → Except Fault α
  | .ok a => .ok (move a)
  | .error fault => .error (fault.moved offset)

@[simp] theorem movedWith_ok {α : Type} {offset : Nat} {move : α → α} {a : α} :
    movedWith offset move (.ok a) = .ok (move a) := rfl

@[simp] theorem movedWith_error {α : Type} {offset : Nat} {move : α → α} {fault : Fault} :
    movedWith offset move (.error fault) = .error (fault.moved offset) := rfl

namespace Condition

variable {offset position : Nat} {level next : Level} {c : Char} {following : Option Char}

namespace Level

variable {connective : Connective}

theorem connect_moved : level.connect connective (offset + position) =
    movedWith offset id (level.connect connective position) := by
  unfold connect
  split <;> rfl

theorem close_moved :
    level.close (offset + position) = movedWith offset id (level.close position) := by
  unfold close
  split <;> rfl

theorem le_length_of_beforeKeyword? {before : List Char}
    (h : level.beforeKeyword? c following = some before) : 2 ≤ level.pending.length := by
  rw [beforeKeyword?] at h
  split at h
  · next hs =>
    obtain ⟨a, n, d, he, -⟩ := Keyword.strip?_eq_some_iff.1 hs
    simp [(List.cons.inj he).2]
  · cases h

end Level

def Reading.moved (offset : Nat) (reading : Reading) : Reading :=
  { reading with enclosing := reading.enclosing.map (Prod.map id (offset + ·)) }

def Progress.moved (offset : Nat) : Progress → Progress
  | .more reading => .more (reading.moved offset)
  | .complete condition => .complete condition

def Stop.moved (offset : Nat) (stop : Stop) : Stop :=
  { stop with position := offset + stop.position }

namespace Reading

variable {reading more : Reading} {text : List Char}

theorem openBracket_moved : (reading.moved offset).openBracket (offset + position) =
    movedWith offset (Progress.moved offset) (reading.openBracket position) := by
  simp only [openBracket, moved, List.length_map]
  split <;> rfl

theorem closeBracket_moved : (reading.moved offset).closeBracket (offset + position) =
    movedWith offset (Progress.moved offset) (reading.closeBracket position) := by
  simp only [closeBracket, moved]
  cases reading.enclosing with
  | nil => rfl
  | cons outside enclosing =>
    simp only [List.map_cons, Prod.map, Level.close_moved, List.isEmpty_map]
    cases reading.level.close position with
    | error fault => rfl
    | ok inner =>
      simp only [movedWith_ok, bind, Except.bind, id]
      split
      · cases (outside.1.enter inner).close position <;> rfl
      · rfl

theorem semicolon_moved : (reading.moved offset).semicolon (offset + position) =
    movedWith offset (Progress.moved offset) (reading.semicolon position) := by
  simp only [semicolon, moved, List.isEmpty_map, Level.close_moved, Level.connect_moved]
  split
  · cases reading.level.close position <;> rfl
  · cases reading.level.connect .or position <;> rfl

/-- The keyword begins two characters further left, and these are pending. -/
theorem letter_moved (h : reading.level.pending.length ≤ position) :
    (reading.moved offset).letter (offset + position) c following =
      movedWith offset (Progress.moved offset) (reading.letter position c following) := by
  simp only [letter, moved]
  cases hk : reading.level.beforeKeyword? c following with
  | none => rfl
  | some before =>
    have htwo := Level.le_length_of_beforeKeyword? hk
    simp only [Nat.add_sub_assoc (Nat.le_trans htwo h), Level.connect_moved]
    cases Level.connect { reading.level with pending := before } .and (position - 2) <;> rfl

theorem step_moved (h : reading.level.pending.length ≤ position) :
    (reading.moved offset).step (offset + position) c following =
      movedWith offset (Progress.moved offset) (reading.step position c following) := by
  unfold step
  split
  · exact openBracket_moved
  · exact closeBracket_moved
  · exact semicolon_moved
  · exact letter_moved h

theorem finish_moved : (reading.moved offset).finish (offset + position) =
    movedWith offset id (reading.finish position) := by
  simp only [finish, moved]
  cases reading.enclosing with
  | nil => exact Level.close_moved
  | cons => rfl

theorem pending_length_of_step (h : reading.step position c following = .ok (.more more)) :
    more.level.pending.length ≤ reading.level.pending.length + 1 := by
  unfold step at h
  split at h
  · obtain ⟨-, hp⟩ := opening_cases h
    cases hp
    exact Nat.zero_le _
  · obtain ⟨around, opened, enclosing, inner, -, -, ⟨-, hp⟩ | ⟨-, condition, -, hp⟩⟩ :=
      closing_cases h
    · cases hp
      simp
    · cases hp
  · obtain ⟨-, level, hc, hp⟩ | ⟨-, condition, -, hp⟩ := semicolon_cases h
    · obtain ⟨-, rfl⟩ := Level.connect_eq_ok_iff.1 hc
      cases hp
      simp
    · cases hp
  · obtain ⟨before, level, -, hc, hp⟩ | ⟨-, hp⟩ := letter_cases h
    · obtain ⟨-, rfl⟩ := Level.connect_eq_ok_iff.1 hc
      cases hp
      simp
    · cases hp
      simp [Level.push]

theorem run_moved (h : reading.level.pending.length ≤ position) :
    (reading.moved offset).run (offset + position) text =
      movedWith offset (Stop.moved offset) (reading.run position text) := by
  induction text generalizing reading position with
  | nil =>
    simp only [run, finish_moved]
    cases reading.finish position <;> rfl
  | cons c rest ih =>
    have hs := @step_moved offset position c rest.head? reading h
    cases hstep : reading.step position c rest.head? with
    | error fault =>
      rw [hstep] at hs
      rw [run_of_error hs, run_of_error hstep, movedWith_error]
    | ok progress =>
      rw [hstep] at hs
      cases progress with
      | more next =>
        have hp := pending_length_of_step hstep
        rw [run_of_more hs, run_of_more hstep, Nat.add_assoc]
        exact ih (by omega)
      | complete condition => rw [run_of_complete hs, run_of_complete hstep]; rfl

end Reading

theorem read_moved (offset position : Nat) (text : List Char) :
    read (offset + position) text = movedWith offset (Stop.moved offset) (read position text) :=
  @Reading.run_moved offset position {} text (Nat.zero_le _)

end Condition

namespace Clause
open Text

def Entry.moved (offset : Nat) (entry : Entry) : Entry :=
  { entry with sign := offset + entry.sign }

def Ending.moved (offset : Nat) : Ending → Ending
  | failed fault => failed (fault.moved offset)
  | settled => settled
  | dangling mark => dangling (mark.map (offset + ·))

def Scan.moved (offset : Nat) (scan : Scan) : Scan :=
  ⟨scan.entries.map (Entry.moved offset), scan.ending.moved offset⟩

variable {offset position : Nat} {text value after : List Char}

theorem firstMark_moved : firstMark (offset + position) text =
    (firstMark position text).map (offset + ·) := by
  simp [firstMark, Function.comp_def, Nat.add_assoc]

theorem bodyAt_moved : bodyAt (offset + position) value after =
    offset + bodyAt position value after := by
  simp [bodyAt, Nat.add_assoc]

theorem entryOf_moved (stop : Condition.Stop) :
    entryOf (offset + position) value (stop.moved offset) =
      (entryOf position value stop).moved offset := by
  simp [entryOf, Entry.moved, Condition.Stop.moved, Nat.add_assoc]

theorem read_bodyAt_moved {result : Except Fault Condition.Stop}
    (h : Condition.read (bodyAt position value after) text = result) :
    Condition.read (bodyAt (offset + position) value after) text =
      movedWith offset (Condition.Stop.moved offset) result := by
  rw [bodyAt_moved, Condition.read_moved, h]

theorem scan_moved (offset position : Nat) (text : List Char) :
    scan (offset + position) text = (scan position text).moved offset := by
  induction position, text using scan_induct with
  | unsigned position text value hv =>
    rw [scan_of_unsigned hv, scan_of_unsigned hv, firstMark_moved]
    rfl
  | blank position text value after hv hb =>
    rw [scan_of_blank hv hb, scan_of_blank hv hb, firstMark_moved]
    rfl
  | failed position text value after fault hv hb hr =>
    rw [scan_of_error hv hb (read_bodyAt_moved hr), scan_of_error hv hb hr]
    rfl
  | last position text value after stop skipped hv hb hr hs =>
    rw [scan_of_last hv hb (read_bodyAt_moved hr) hs, scan_of_last hv hb hr hs, entryOf_moved]
    rfl
  | more position text value after stop skipped next hv hb hr hs ih =>
    have hn : (stop.moved offset).position + skipped.length + 1 =
        offset + (stop.position + skipped.length + 1) := by
      simp [Condition.Stop.moved, Nat.add_assoc]
    rw [scan_of_more hv hb (read_bodyAt_moved hr) hs, scan_of_more hv hb hr hs, entryOf_moved, hn, ih]
    rfl

/-- The verdict on a text moves with it. The clauses have no positions. -/
theorem verdict_moved (offset : Nat) (scan : Scan) :
    (scan.moved offset).verdict = movedWith offset id scan.verdict := by
  obtain ⟨entries, ending⟩ := scan
  have hc : (entries.map (Entry.moved offset)).map Entry.clause = entries.map Entry.clause := by
    simp [Entry.moved, Function.comp_def]
  have hf : (entries.map (Entry.moved offset)).find? (fun entry => entry.clause.value.isEmpty) =
      (entries.find? fun entry => entry.clause.value.isEmpty).map (Entry.moved offset) := by
    simp [Entry.moved, List.find?_map, Function.comp_def]
  rw [Scan.verdict, Scan.verdict, Scan.moved, hf]
  cases entries with
  | nil => cases ending <;> rfl
  | cons entry entries =>
    cases ending with
    | failed fault => rfl
    | settled =>
      cases List.find? _ (entry :: entries) with
      | none => exact congrArg Except.ok hc
      | some blank => rfl
    | dangling mark =>
      cases List.find? _ (entry :: entries) with
      | none =>
        cases mark with
        | none => exact congrArg Except.ok hc
        | some mark => rfl
      | some blank => rfl

end Clause

end ConditionalTags
