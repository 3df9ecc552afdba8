import ConditionalTags.Proofs.LineBreaks
import ConditionalTags.Proofs.Outcome

/-! # Log lines

Where what is told has no line breaks of its own, every note consists of whole lines, and those of a
record begin with the label of its level. Then lines can be filtered instead of notes.
-/
namespace ConditionalTags

namespace Text

theorem unlines_cons (line : List Char) (lines : List (List Char)) :
    unlines (line :: lines) = line ++ '\n' :: unlines lines := by
  simp [unlines]

theorem unlines_append (lines others : List (List Char)) :
    unlines (lines ++ others) = unlines lines ++ unlines others :=
  List.flatMap_append

theorem unlines_inj {lines others : List (List Char)} (hl : ∀ line ∈ lines, '\n' ∉ line)
    (ho : ∀ line ∈ others, '\n' ∉ line) (h : unlines lines = unlines others) : lines = others := by
  induction lines generalizing others with
  | nil =>
    cases others with
    | nil => rfl
    | cons other others =>
      rw [unlines_cons] at h
      simp [unlines] at h
  | cons line lines ih =>
    cases others with
    | nil =>
      rw [unlines_cons] at h
      simp [unlines] at h
    | cons other others =>
      obtain ⟨hline, hlines⟩ := List.forall_mem_cons.1 hl
      obtain ⟨hother, hothers⟩ := List.forall_mem_cons.1 ho
      rw [unlines_cons, unlines_cons] at h
      have hc := congrArg (cut '\n') h
      rw [cut_append hline, cut_append hother, Prod.mk.injEq, Option.some.injEq] at hc
      rw [hc.1, ih hlines hothers hc.2]

end Text

theorem lineBreak_not_mem_toDigits (number : Nat) : '\n' ∉ Nat.toDigits 10 number := by
  intro h
  exact absurd (Nat.isDigit_of_mem_toDigits (by decide) (by decide) h) (by decide)

namespace LogLevel

def labels : List (String × LogLevel) :=
  [("TRACE ", trace), ("DEBUG ", debug), (" INFO ", info), (" WARN ", warn), ("ERROR ", error)]

/-- The level whose label a line begins with. -/
def ofLine? (line : List Char) : Option LogLevel :=
  (labels.find? fun entry => entry.1.toList.isPrefixOf line).map Prod.snd

theorem ofLine?_label (severity : LogLevel) (rest : List Char) :
    ofLine? ((severity.label ++ " ").toList ++ rest) = some severity := by
  cases severity <;> rfl

theorem shows_and_shows {quiet verbose : LogLevel} (h : verbose.below ⊆ quiet.below)
    (severity : Option LogLevel) :
    (quiet.shows severity && verbose.shows severity) = quiet.shows severity := by
  cases severity with
  | none => rfl
  | some severity => simpa [shows] using fun hq hv => hq (h hv)

theorem shows_trace (severity : Option LogLevel) : trace.shows severity = true := by
  cases severity <;> rfl

end LogLevel

/-- The line is that of a record of the reader: its label, in six characters, is followed by the name. -/
def Transcript.isReaders (line : List Char) : Bool :=
  (LogLevel.ofLine? line).isSome && (readerTarget ++ ": ").toList.isPrefixOf (line.drop 6)

namespace Note
open Text Transcript

variable {notes : List Note}

def isFrom (target : String) : Note → Bool
  | record _ other _ => other == target
  | _ => false

/-- The note consists of the lines, and they are labelled as it is. -/
structure Consists (note : Note) (lines : List (List Char)) : Prop where
  written : note.written.toList = unlines lines
  oneLine : ∀ line ∈ lines, '\n' ∉ line
  label : ∀ line ∈ lines, LogLevel.ofLine? line = note.severity?
  reader : ∀ line ∈ lines, isReaders line = note.isFrom readerTarget

theorem isReaders_of_ofLine?_eq_none {line : List Char} (h : LogLevel.ofLine? line = none) :
    isReaders line = false := by
  rw [isReaders, h]
  rfl

theorem isReaders_label (severity : LogLevel) {target : String}
    (h : target = readerTarget ∨ target = programTarget) (message : String) :
    isReaders ((severity.label ++ " ").toList ++ (target ++ ": " ++ message).toList) =
      (target == readerTarget) := by
  have hl : (severity.label ++ " ").toList.length = 6 := by cases severity <;> decide
  rw [isReaders, LogLevel.ofLine?_label, List.drop_left' hl]
  rcases h with rfl | rfl
  · simp
  · simp [readerTarget, programTarget, List.isPrefixOf]

theorem consists_record {severity : LogLevel} {target message : String}
    (ht : target = readerTarget ∨ target = programTarget) (hm : '\n' ∉ message.toList) :
    ∃ lines, (record severity target message).Consists lines := by
  have hs : '\n' ∉ severity.label.toList := by cases severity <;> decide
  have hn : '\n' ∉ target.toList := by rcases ht with rfl | rfl <;> decide
  refine ⟨[(severity.label ++ " ").toList ++ (target ++ ": " ++ message).toList], ?_, ?_, ?_, ?_⟩
  · simp [Note.written, unlines]
  · simp [hs, hn, hm]
  · exact List.forall_mem_singleton.2 (LogLevel.ofLine?_label severity _)
  · exact List.forall_mem_singleton.2 (isReaders_label severity ht message)

theorem ofLine?_of_isDetail {line : List Char} (h : Failure.isDetail line = true) :
    LogLevel.ofLine? line = none := by
  simp only [Failure.isDetail, Bool.or_eq_true, beq_iff_eq, List.isEmpty_iff,
    List.isPrefixOf_iff_prefix] at h
  rcases h with ((rfl | rfl) | rfl) | ⟨more, rfl⟩ <;> rfl

theorem consists_failure {printed : Failure → String} (hprinted : Failure.Reports printed)
    {failure : Failure} (hm : '\n' ∉ failure.message.toList) :
    ∃ lines, (Note.failure (printed failure)).Consists lines := by
  obtain ⟨details, hd, he⟩ := hprinted failure
  have hlabel : ∀ line ∈ ("Error: ".toList ++ failure.message.toList) :: details,
      LogLevel.ofLine? line = none :=
    List.forall_mem_cons.2 ⟨rfl, fun line hl => ofLine?_of_isDetail (hd line hl).2⟩
  refine ⟨_, ?_, ?_, hlabel, fun line hl => isReaders_of_ofLine?_eq_none (hlabel line hl)⟩
  · rw [unlines_cons]
    exact he
  · exact List.forall_mem_cons.2 ⟨by simp [hm], fun line hl => (hd line hl).1⟩

theorem consists_diagnostic {value : String} (hv : '\n' ∉ value.toList) (fault : Fault) :
    ∃ lines, (diagnostic value fault).Consists lines := by
  have hlabel : ∀ line ∈ ["error: ".toList ++ fault.message.toList, "  | ".toList ++ value.toList,
      "  | ".toList ++ Fault.marker value.length fault.position], LogLevel.ofLine? line = none := by
    intro line hl
    simp only [List.mem_cons, List.not_mem_nil, or_false] at hl
    rcases hl with rfl | rfl | rfl <;> rfl
  refine ⟨_, ?_, ?_, hlabel, fun line hl => isReaders_of_ofLine?_eq_none (hlabel line hl)⟩
  · simp [Note.written, unlines, Fault.diagnostic]
  · have hm := fault.lineBreak_not_mem_message
    have hk := Fault.lineBreak_not_mem_marker value.length fault.position
    simp [hv, hm, hk]

theorem Consists.text_filter {note : Note} {lines : List (List Char)} (h : note.Consists lines)
    (keep : Option LogLevel → Bool → Bool) :
    (text ([note].filter fun note => keep note.severity? (note.isFrom readerTarget))).toList =
      unlines (lines.filter fun line => keep (LogLevel.ofLine? line) (isReaders line)) := by
  have hs : ∀ line ∈ lines, keep (LogLevel.ofLine? line) (isReaders line) =
      keep note.severity? (note.isFrom readerTarget) :=
    fun line hl => by rw [h.label line hl, h.reader line hl]
  rw [List.filter_congr hs]
  cases hn : keep note.severity? (note.isFrom readerTarget) with
  | true => simp [text, hn, h.written]
  | false => simp [text, hn, unlines]

/-- Lines can be filtered instead of notes. -/
theorem exists_lines (h : ∀ note ∈ notes, ∃ lines, note.Consists lines) :
    ∃ lines : List (List Char), (∀ line ∈ lines, '\n' ∉ line) ∧
      ∀ keep : Option LogLevel → Bool → Bool,
        (text (notes.filter fun note => keep note.severity? (note.isFrom readerTarget))).toList =
          unlines (lines.filter fun line => keep (LogLevel.ofLine? line) (isReaders line)) := by
  induction notes with
  | nil => exact ⟨[], nofun, fun keep => rfl⟩
  | cons note rest ih =>
    obtain ⟨hnote, hrest⟩ := List.forall_mem_cons.1 h
    obtain ⟨first, hc⟩ := hnote
    obtain ⟨later, hl, htext⟩ := ih hrest
    refine ⟨first ++ later, ?_, fun keep => ?_⟩
    · intro line hm
      rcases List.mem_append.1 hm with hm | hm
      · exact hc.oneLine line hm
      · exact hl line hm
    · rw [← List.singleton_append, List.filter_append, text_append, String.toList_append,
        hc.text_filter, htext, List.filter_append]
      exact (unlines_append _ _).symm

end Note

namespace Transcript
open Note

def tracedLine (entry : Clause.Entry) : List Char :=
  "TRACE conditional_restrictions::parser::clause: parsed clause `".toList ++ entry.clause.written ++
    ['`']

theorem lineBreak_not_mem_tracedLine {entry : Clause.Entry} (h : '\n' ∉ entry.clause.written) :
    '\n' ∉ tracedLine entry := by
  change '\n' ∉ "TRACE conditional_restrictions::parser::clause: parsed clause `".toList ++
    entry.clause.written ++ ['`']
  simp [h]

theorem written_traced (entry : Clause.Entry) :
    (traced entry).written.toList = tracedLine entry ++ ['\n'] := by
  change ("TRACE" ++ " " ++ "conditional_restrictions::parser::clause" ++ ": " ++
      ("parsed clause `" ++ String.ofList entry.clause.written ++ "`") ++ "\n").toList =
    "TRACE conditional_restrictions::parser::clause: parsed clause `".toList ++
      entry.clause.written ++ ['`'] ++ ['\n']
  simp

/-- The line of how many clauses an accepted value has. -/
def countedLine (value : String) (number : Nat) : List Char :=
  "DEBUG conditional_restrictions::parser::clause: parsed ".toList ++ Nat.toDigits 10 number ++
    " clause(s) from `".toList ++ value.toList ++ ['`']

theorem lineBreak_not_mem_countedLine {value : String} (h : '\n' ∉ value.toList) (number : Nat) :
    '\n' ∉ countedLine value number := by
  change '\n' ∉ "DEBUG conditional_restrictions::parser::clause: parsed ".toList ++
    Nat.toDigits 10 number ++ " clause(s) from `".toList ++ value.toList ++ ['`']
  simp [h, lineBreak_not_mem_toDigits]

theorem written_counted (value : String) (number : Nat) :
    (counted value number).written.toList = countedLine value number ++ ['\n'] := by
  change ("DEBUG" ++ " " ++ "conditional_restrictions::parser::clause" ++ ": " ++
      ("parsed " ++ toString number ++ " clause(s) from `" ++ value ++ "`") ++ "\n").toList =
    "DEBUG conditional_restrictions::parser::clause: parsed ".toList ++ Nat.toDigits 10 number ++
      " clause(s) from `".toList ++ value.toList ++ ['`'] ++ ['\n']
  simp

theorem text_map_traced (entries : List Clause.Entry) :
    (text (entries.map traced)).toList = Text.unlines (entries.map tracedLine) := by
  simp only [text, Text.unlines, List.flatMap_map, written_traced, String.toList_ofList]

/-- A line for each clause that has been completed, and then one for how many an accepted value has. -/
def readingLines (value : String) : List (List Char) :=
  (Clause.scan 0 value.toList).entries.map tracedLine ++
    if value ≠ "" ∧ (Clause.readAll (some value)).isOk then
      [countedLine value (Clause.scan 0 value.toList).entries.length]
    else []

theorem lineBreak_not_mem_readingLines {value : String} (h : '\n' ∉ value.toList) :
    ∀ line ∈ readingLines value, '\n' ∉ line := by
  intro line hm
  rcases List.mem_append.1 hm with hm | hm
  · obtain ⟨entry, he, rfl⟩ := List.mem_map.1 hm
    exact lineBreak_not_mem_tracedLine (Clause.oneLine_of_mem_scan h 0 entry he).written
  · split at hm
    · rw [List.mem_singleton.1 hm]
      exact lineBreak_not_mem_countedLine h _
    · cases hm

end Transcript

end ConditionalTags
