import ConditionalTags.Proofs.LogLines

/-! # What a log level hides

The log level decides which records are shown. Neither what is printed nor the exit code depends on
it, and a quieter run tells what a more talkative one does but for the records below its own level.
-/
namespace ConditionalTags

namespace Fault

theorem lineBreak_not_mem_description (fault : Fault) : '\n' ∉ fault.description.toList := by
  have hm := fault.lineBreak_not_mem_message
  rw [description]
  split
  · exact hm
  · next position _ => simp [hm, lineBreak_not_mem_toDigits position]

end Fault

namespace Note
open Text

variable {notes : List Note}

theorem filter_filter_visible {quiet verbose : LogLevel} (h : verbose.below ⊆ quiet.below) :
    (notes.filter (visible verbose)).filter (visible quiet) = notes.filter (visible quiet) := by
  rw [List.filter_filter]
  exact List.filter_congr fun note _ => LogLevel.shows_and_shows h note.severity?

theorem filter_visible_trace : notes.filter (visible .trace) = notes :=
  List.filter_eq_self.2 fun note _ => LogLevel.shows_trace note.severity?

end Note

namespace Transcript
open Note

variable {value : String}

theorem consists_of_mem_readingNotes (hv : '\n' ∉ value.toList) :
    ∀ note ∈ readingNotes value, ∃ lines, note.Consists lines := by
  intro note hm
  rw [readingNotes_eq, List.mem_append] at hm
  rcases hm with hm | hm
  · obtain ⟨entry, he, rfl⟩ := List.mem_map.1 hm
    have hw := (Clause.oneLine_of_mem_scan hv 0 entry he).written
    exact consists_record (.inl rfl) (by simp [toString, hw])
  · split at hm
    · rw [List.mem_singleton.1 hm]
      exact consists_record (.inl rfl) (by simp [hv, lineBreak_not_mem_toDigits])
    · cases hm

end Transcript

namespace Command
open Transcript Note

variable {printed : Failure → String} {contents : TagSource → Option ByteArray} {command : Command}
  {value : String}

/-- Nothing that is told word by word has a line break: the value, the key that is looked up, and the
path of a source. -/
structure OneLine (contents : TagSource → Option ByteArray) (command : Command) : Prop where
  value : ∀ value, command.Concerns contents value → '\n' ∉ value.toList
  baseKey : ∀ baseKey file, command = .tags baseKey file → '\n' ∉ baseKey.toList
  file : ∀ baseKey path, command = .tags baseKey (some path) → '\n' ∉ path.toList

theorem OneLine.source (h : command.OneLine contents) {baseKey : String} {file : Option String}
    (hc : command = .tags baseKey file) :
    '\n' ∉ (file.elim TagSource.standardInput .file).name.toList := by
  cases file with
  | none => exact (by decide : '\n' ∉ "stdin".toList)
  | some path => exact h.file baseKey path hc

theorem consists_of_mem_summary (h : command.OneLine contents) (number : Nat) :
    ∀ note ∈ command.summary number, ∃ lines, note.Consists lines := by
  have hd := lineBreak_not_mem_toDigits number
  intro note hm
  cases command with
  | parse value json =>
    rw [List.mem_singleton.1 hm]
    exact consists_record (.inr rfl) (by simp [hd])
  | format value => cases hm
  | tags baseKey file =>
    rw [List.mem_singleton.1 hm]
    exact consists_record (.inr rfl) (by simp [hd, h.baseKey baseKey file rfl])

theorem consists_of_not_concerns (hprinted : Failure.Reports printed) (h : command.OneLine contents)
    (hn : ∀ value, ¬command.Concerns contents value) :
    ∀ note ∈ (command.transcript printed contents).notes, ∃ lines, note.Consists lines := by
  obtain ⟨failure, ht, baseKey, file, hc, hf⟩ := @transcript_of_not_concerns printed _ _ hn
  rw [ht]
  intro note hm
  rw [List.mem_singleton.1 hm]
  refine consists_failure hprinted ?_
  rcases hf with rfl | rfl
  · have hs := h.source hc
    rw [Failure.message_unreadable, String.toList_append, List.mem_append, not_or]
    exact ⟨by decide, hs⟩
  · exact (by decide : '\n' ∉ "tags must be a JSON object of string values".toList)

theorem consists_of_mem_notes (hprinted : Failure.Reports printed) (h : command.OneLine contents) :
    ∀ note ∈ (command.transcript printed contents).notes, ∃ lines, note.Consists lines := by
  rcases transcript_cases printed contents command with
    ⟨failure, hn, -⟩ | ⟨value, fault, hv, -, ht⟩ | ⟨value, clauses, output, hv, -, ht⟩
  · exact consists_of_not_concerns hprinted h hn
  · rw [ht]
    intro note hm
    rcases List.mem_append.1 hm with hm | hm
    · exact consists_of_mem_readingNotes (h.value value hv) note hm
    · rcases List.mem_cons.1 hm with rfl | hm
      · exact consists_record (.inr rfl) (by
          simpa [toString] using fault.lineBreak_not_mem_description)
      · rw [List.mem_singleton.1 hm]
        exact consists_diagnostic (h.value value hv) fault
  · rw [ht]
    intro note hm
    rcases List.mem_append.1 hm with hm | hm
    · exact consists_of_mem_readingNotes (h.value value hv) note hm
    · exact consists_of_mem_summary h _ note hm

/-- First each clause is told that has been completed, then how many there are, if the value is neither
empty nor rejected. Nothing else is told by the reader or at the level of traces. -/
theorem exists_notes_eq (h : command.Concerns contents value) :
    ∃ rest, (command.transcript printed contents).notes =
        ((Clause.scan 0 value.toList).entries.map traced ++
          if value ≠ "" ∧ (Clause.readAll (some value)).isOk then
            [counted value (Clause.scan 0 value.toList).entries.length]
          else []) ++ rest ∧
      ∀ note ∈ rest, note.severity? ≠ some .trace ∧ note.isFrom readerTarget = false := by
  rw [← readingNotes_eq]
  cases hr : Clause.readAll (some value) with
  | error fault =>
    rw [transcript_of_error h hr]
    exact ⟨_, rfl, by simp [severity?, isFrom, readerTarget, programTarget]⟩
  | ok clauses =>
    obtain ⟨output, ht⟩ := @transcript_of_ok printed _ _ _ _ h hr
    rw [ht]
    refine ⟨command.summary clauses.length, rfl, ?_⟩
    cases command <;> simp [summary, severity?, isFrom, readerTarget, programTarget]

theorem filter_trace (h : command.Concerns contents value) :
    ((command.transcript printed contents).notes.filter fun note => note.severity? == some .trace) =
      (Clause.scan 0 value.toList).entries.map traced := by
  obtain ⟨rest, hn, hrest⟩ := @exists_notes_eq printed _ _ _ h
  have hcounted : (List.filter (fun note => note.severity? == some .trace)
      (if value ≠ "" ∧ (Clause.readAll (some value)).isOk then
        [counted value (Clause.scan 0 value.toList).entries.length] else [])) = [] := by
    split <;> rfl
  have hrest : rest.filter (fun note => note.severity? == some .trace) = [] := by
    simpa using fun note hm => (hrest note hm).1
  rw [hn, List.filter_append, List.filter_append, hcounted, hrest, List.append_nil, List.append_nil,
    List.filter_eq_self.2]
  intro note hm
  obtain ⟨entry, -, rfl⟩ := List.mem_map.1 hm
  rfl

/-- The records of the reader are those of the clauses, and the one of how many there are. -/
theorem filter_isFrom (h : command.Concerns contents value) :
    (command.transcript printed contents).notes.filter (isFrom readerTarget) =
      (Clause.scan 0 value.toList).entries.map traced ++
        if value ≠ "" ∧ (Clause.readAll (some value)).isOk then
          [counted value (Clause.scan 0 value.toList).entries.length]
        else [] := by
  obtain ⟨rest, hn, hrest⟩ := @exists_notes_eq printed _ _ _ h
  have hrest : rest.filter (isFrom readerTarget) = [] := by
    simpa using fun note hm => (hrest note hm).2
  rw [hn, List.filter_append, hrest, List.append_nil, List.filter_eq_self.2]
  intro note hm
  rcases List.mem_append.1 hm with hm | hm
  · obtain ⟨entry, -, rfl⟩ := List.mem_map.1 hm
    rfl
  · split at hm
    · rw [List.mem_singleton.1 hm]
      rfl
    · cases hm

theorem text_filter_isFrom (h : command.Concerns contents value) :
    (text ((command.transcript printed contents).notes.filter (isFrom readerTarget))).toList =
      Text.unlines (readingLines value) := by
  rw [filter_isFrom h, text_append, String.toList_append, text_map_traced, readingLines,
    Text.unlines_append]
  split
  · rw [text_singleton, written_counted, Text.unlines_cons]
    rfl
  · rfl

theorem exists_lines_filtered {quiet verbose : LogLevel} (hprinted : Failure.Reports printed)
    (h : command.OneLine contents) (hle : verbose.below ⊆ quiet.below) :
    let told := (command.transcript printed contents).notes.filter (visible verbose)
    ∃ lines : List (List Char), (∀ line ∈ lines, '\n' ∉ line) ∧
      (text told).toList = Text.unlines lines ∧
      (text (told.filter (visible quiet))).toList =
        Text.unlines (lines.filter fun line => quiet.shows (LogLevel.ofLine? line)) ∧
      (verbose = .trace → ∀ value, command.Concerns contents value →
        (lines.filter fun line => LogLevel.ofLine? line == some .trace) =
          (Clause.scan 0 value.toList).entries.map tracedLine ∧
        lines.filter isReaders = readingLines value) := by
  intro told
  obtain ⟨lines, hl, htext⟩ := exists_lines (consists_of_mem_notes hprinted h)
  have hkept : ∀ keep : List Char → Bool, ∀ line ∈ lines.filter keep, '\n' ∉ line :=
    fun keep line hm => hl line (List.mem_filter.1 hm).1
  refine ⟨_, hkept _, htext fun label _ => verbose.shows label, ?_, ?_⟩
  · rw [filter_filter_visible hle, List.filter_filter]
    simp only [LogLevel.shows_and_shows hle]
    exact htext fun label _ => quiet.shows label
  · rintro rfl value hc
    have hreading := lineBreak_not_mem_readingLines (h.value value hc)
    rw [List.filter_eq_self.2 fun line _ => LogLevel.shows_trace (LogLevel.ofLine? line)]
    constructor
    · have htrace := htext fun label _ => label == some .trace
      rw [filter_trace hc, text_map_traced] at htrace
      refine Text.unlines_inj (hkept _) ?_ htrace.symm
      exact fun line hm => hreading line (List.mem_append_left _ hm)
    · have hreader := htext fun _ reader => reader
      exact Text.unlines_inj (hkept _) hreading (hreader.symm.trans (text_filter_isFrom hc))

theorem severity?_of_mem_notes (h : ∀ value, ¬command.Concerns contents value) :
    ∀ note ∈ (command.transcript printed contents).notes, note.severity? = none := by
  obtain ⟨failure, ht, -⟩ := @transcript_of_not_concerns printed _ _ h
  rw [ht]
  intro note hm
  rw [List.mem_singleton.1 hm]
  rfl

end Command

namespace Session
open Transcript Note Text

def heading (level : LogLevel) : String :=
  text ([configured ⟨level⟩].filter (visible level))

variable {printed : Failure → String} {environment : Variable} {asked : LogLevel}

theorem errors_of_asks (h : Settings.Asks environment asked) (request : Request)
    (contents : TagSource → Option ByteArray) :
    let level := request.logLevel.getD asked
    ((start printed environment request).report contents).errors = heading level ++
      text ((request.command.transcript printed contents).notes.filter (visible level)) := by
  intro level
  let notes := (request.command.transcript printed contents).notes
  calc ((start printed environment request).report contents).errors
      = text (([configured ⟨level⟩] ++ notes).filter (visible level)) := by
        rw [errors_eq_text, notes_of_asks h, effective_of_asks h]
        rfl
    _ = heading level ++ text (notes.filter (visible level)) := by
      rw [List.filter_append, text_append]
      rfl

/-- Of two runs of one command, the one at the quieter level prints the same and ends the same. It
tells what the other one does, but for the record of the settings and the records below its own level;
where there are no other line breaks, these are the lines with the label of such a level. A run at the
level of traces tells everything: of each clause that has been completed, in order, and then how many
clauses an accepted value has. -/
theorem report_filtered (hprinted : Failure.Reports printed)
    {quietEnvironment verboseEnvironment : Variable} {quietAsked verboseAsked : LogLevel}
    {quiet verbose : Request} (contents : TagSource → Option ByteArray)
    (hcommand : quiet.command = verbose.command)
    (hquiet : Settings.Asks quietEnvironment quietAsked)
    (hverbose : Settings.Asks verboseEnvironment verboseAsked)
    (hle : (verbose.logLevel.getD verboseAsked).below ⊆ (quiet.logLevel.getD quietAsked).below) :
    let quietLevel := quiet.logLevel.getD quietAsked
    let verboseLevel := verbose.logLevel.getD verboseAsked
    let quietReport := (start printed quietEnvironment quiet).report contents
    let verboseReport := (start printed verboseEnvironment verbose).report contents
    let notes := (verbose.command.transcript printed contents).notes
    let told := notes.filter (visible verboseLevel)
    quietReport.output = verboseReport.output ∧ quietReport.exitCode = verboseReport.exitCode ∧
    verboseReport.errors = heading verboseLevel ++ text told ∧
    quietReport.errors = heading quietLevel ++ text (told.filter (visible quietLevel)) ∧
    (verbose.command.OneLine contents → ∃ lines : List (List Char), (∀ line ∈ lines, '\n' ∉ line) ∧
      (text told).toList = unlines lines ∧
      (text (told.filter (visible quietLevel))).toList =
        unlines (lines.filter fun line => quietLevel.shows (LogLevel.ofLine? line)) ∧
      (verboseLevel = .trace → ∀ value, verbose.command.Concerns contents value →
        (lines.filter fun line => LogLevel.ofLine? line == some .trace) =
          (Clause.scan 0 value.toList).entries.map tracedLine ∧
        lines.filter isReaders = readingLines value)) ∧
    (verboseLevel = .trace →
      verboseReport.errors = (configured ⟨.trace⟩).written ++ text notes) ∧
    (∀ value, verbose.command.Concerns contents value → ∃ rest,
      notes = ((Clause.scan 0 value.toList).entries.map traced ++
        if value ≠ "" ∧ (Clause.readAll (some value)).isOk then
          [counted value (Clause.scan 0 value.toList).entries.length]
        else []) ++ rest ∧
      ∀ note ∈ rest, note.severity? ≠ some .trace ∧ note.isFrom readerTarget = false) ∧
    ((∀ value, ¬verbose.command.Concerns contents value) →
      ∀ note ∈ notes, note.severity? = none) := by
  intro quietLevel verboseLevel quietReport verboseReport notes told
  have hle : verboseLevel.below ⊆ quietLevel.below := hle
  have hq : quietReport = (verbose.command.transcript printed contents).report ⟨quietLevel⟩ := by
    rw [← hcommand]
    exact report_of_asks hquiet
  have hv : verboseReport = _ := report_of_asks hverbose
  have herrors : verboseReport.errors = heading verboseLevel ++ text told :=
    errors_of_asks hverbose verbose contents
  refine ⟨by rw [hq, hv]; rfl, by rw [hq, hv]; rfl, herrors, ?_,
    fun h => Command.exists_lines_filtered hprinted h hle, fun ht => ?_,
    fun value h => Command.exists_notes_eq h, Command.severity?_of_mem_notes⟩
  · have he := @errors_of_asks printed _ _ hquiet quiet contents
    rw [filter_filter_visible hle]
    rwa [hcommand] at he
  · have hnotes : told = notes := by
      rw [show told = notes.filter (visible verboseLevel) from rfl, ht, filter_visible_trace]
    rw [herrors, hnotes, ht]
    exact congrArg (· ++ text notes) (text_singleton _)

/-- A value that is rejected after a clause of it has been traced, so that their number is not told. One
level comes from the environment, the other from the request. -/
theorem report_filtered_rejected :
    let printed := fun failure : Failure => "Error: " ++ failure.message ++ "\n"
    let command := Command.parse "no @ wet; yes @ (" false
    let quiet : Request := ⟨none, command⟩
    let verbose : Request := ⟨some .trace, command⟩
    let quietReport := (start printed (.text " Warning ") quiet).report fun _ => none
    let verboseReport := (start printed (.text "error") verbose).report fun _ => none
    let settled := "DEBUG condres::cli: configured condres config=CliConfig \x7b log_level: Trace \x7d\n"
    let traced := "TRACE conditional_restrictions::parser::clause: parsed clause `no @ (wet)`\n"
    let rejected := "DEBUG condres::cli: rejected conditional value error=" ++
      "Expected a closing bracket at character 16 (zero-based)\n"
    let diagnostic := "error: Expected a closing bracket\n  | no @ wet; yes @ (\n" ++
      "  |                 ^\n"
    quietReport.output = verboseReport.output ∧ quietReport.exitCode = verboseReport.exitCode ∧
    verboseReport.errors = settled ++ (traced ++ rejected ++ diagnostic) ∧
    quietReport.errors = diagnostic ∧
    ∃ lines : List (List Char),
      (traced ++ rejected ++ diagnostic).toList = unlines lines ∧
      diagnostic.toList =
        unlines (lines.filter fun line => LogLevel.warn.shows (LogLevel.ofLine? line)) ∧
      lines.filter isReaders =
        ["TRACE conditional_restrictions::parser::clause: parsed clause `no @ (wet)`".toList] := by
  intro printed command quiet verbose quietReport verboseReport settled traced rejected diagnostic
  have hprinted : Failure.Reports printed := fun failure =>
    ⟨[], List.forall_mem_nil _, by simp [printed, unlines]⟩
  have hquiet : Settings.Asks (.text " Warning ") .warn :=
    .level (LogLevel.read?_eq_some_iff.1 (by decide +kernel))
  have hverbose : Settings.Asks (.text "error") .error :=
    .level (LogLevel.read?_eq_some_iff.1 (by decide +kernel))
  have hvalue : command.Concerns (fun _ => none) "no @ wet; yes @ (" := .parse _ _
  have hone : command.OneLine fun _ => none :=
    ⟨fun value hv => hvalue.eq hv ▸ (by decide), fun _ _ h => Command.noConfusion h,
      fun _ _ h => Command.noConfusion h⟩
  have hcommand : quiet.command = verbose.command := rfl
  obtain ⟨ho, hc, hv, hq, hlines, htrace, -⟩ :=
    report_filtered hprinted (fun _ => none) hcommand hquiet hverbose (by decide)
  let first : Note := .record .trace readerTarget "parsed clause `no @ (wet)`"
  let second : Note := .record .debug programTarget
    "rejected conditional value error=Expected a closing bracket at character 16 (zero-based)"
  let third : Note := .diagnostic "no @ wet; yes @ (" ⟨.unclosedBracket, some 16⟩
  have hnotes : (verbose.command.transcript printed fun _ => none).notes = [first, second, third] := by
    decide +kernel
  have hfirst : first.written = traced := by decide +kernel
  have hsecond : second.written = rejected := by decide +kernel
  have hthird : third.written = diagnostic := by decide +kernel
  have htext : text (verbose.command.transcript printed fun _ => none).notes =
      traced ++ rejected ++ diagnostic := by
    rw [hnotes, text_cons, text_cons, text_singleton, hfirst, hsecond, hthird]
    exact String.append_assoc.symm
  have htold : text (((verbose.command.transcript printed fun _ => none).notes.filter
      (visible .trace)).filter (visible .warn)) = diagnostic := by
    rw [hnotes, filter_visible_trace]
    exact (text_singleton third).trans hthird
  have hreading : readingLines "no @ wet; yes @ (" =
      ["TRACE conditional_restrictions::parser::clause: parsed clause `no @ (wet)`".toList] := by
    decide +kernel
  obtain ⟨lines, -, hverboseLines, hquietLines, htraceLines⟩ := hlines hone
  refine ⟨ho, hc, ?_, ?_, lines, ?_, ?_, (htraceLines rfl _ hvalue).2.trans hreading⟩
  · rw [← htext]
    exact htrace rfl
  · rw [← htold]
    exact hq
  · rw [← htext, ← hverboseLines]
    exact congrArg (fun notes => (text notes).toList) filter_visible_trace.symm
  · rw [← htold]
    exact hquietLines

end Session

end ConditionalTags
