import ConditionalTags.Program.Session
import ConditionalTags.Proofs.ClauseScan
import ConditionalTags.Proofs.Notes
import ConditionalTags.Proofs.TagGrammar

/-! # What a command comes to

A command is about one value, which it is given or finds among tags. Either there is no such value and
the command fails, or the value is rejected, or it is accepted. Commands about a value that is rejected
come to the same, and those about an accepted value differ in what they print and in the record at
their end.
-/
namespace ConditionalTags

namespace Transcript
open Note

variable {value : String} {fault : Fault} {clauses : List Clause}

def traced (entry : Clause.Entry) : Note :=
  .record .trace readerTarget ("parsed clause `" ++ toString entry.clause ++ "`")

def counted (value : String) (number : Nat) : Note :=
  .record .debug readerTarget
    ("parsed " ++ toString number ++ " clause(s) from `" ++ value ++ "`")

/-- Every clause is told that has been completed, and then their number unless the value is empty or
rejected. -/
theorem readingNotes_eq (value : String) : readingNotes value =
    (Clause.scan 0 value.toList).entries.map traced ++
      if value ≠ "" ∧ (Clause.readAll (some value)).isOk then
        [counted value (Clause.scan 0 value.toList).entries.length]
      else [] := by
  by_cases hn : value = ""
  · subst hn
    rw [if_neg (fun h => h.1 rfl), String.toList_empty, Clause.scan_nil]
    rfl
  · rw [readingNotes, Clause.readAll_eq_verdict hn]
    split
    · next he => exact absurd (String.toList_eq_nil_iff.1 he) hn
    · dsimp only
      cases hv : (Clause.scan 0 value.toList).verdict with
      | error fault => simp [traced, Except.isOk, Except.toBool]
      | ok clauses =>
        obtain ⟨rfl, -⟩ := Clause.of_verdict_eq_ok hv
        simp [hn, traced, counted, Except.isOk, Except.toBool]

theorem severity?_of_mem_readingNotes : ∀ note ∈ readingNotes value, note.severity? ≠ none := by
  intro note hm
  rw [readingNotes_eq, List.mem_append] at hm
  rcases hm with hm | hm
  · obtain ⟨entry, -, rfl⟩ := List.mem_map.1 hm
    nofun
  · split at hm
    · rw [List.mem_singleton.1 hm]
      nofun
    · cases hm

theorem told_rejected : told (rejected value fault).notes = fault.diagnostic value := by
  have hnotes : (rejected value fault).notes = (readingNotes value ++
      [.record .debug programTarget ("rejected conditional value error=" ++ toString fault)]) ++
      [.diagnostic value fault] := by
    simp [rejected]
  rw [hnotes]
  refine told_append_singleton (fun note hm => ?_) rfl
  rcases List.mem_append.1 hm with hm | hm
  · exact severity?_of_mem_readingNotes note hm
  · rw [List.mem_singleton.1 hm]
    nofun

theorem parse_eq_rejected (h : Clause.readAll (some value) = .error fault) (json : Bool) :
    parse value json = rejected value fault := by
  rw [parse, h]

theorem parse_eq_accepted (h : Clause.readAll (some value) = .ok clauses) (json : Bool) :
    parse value json = accepted value
      (if json then (Clause.allToJson clauses).document else Clause.outlineText clauses)
      [.record .info programTarget
        ("parsed conditional value clauses=" ++ toString clauses.length)] := by
  rw [parse, h]

theorem format_eq_rejected (h : Clause.readAll (some value) = .error fault) :
    format value = rejected value fault := by
  rw [format, h]

theorem format_eq_accepted (h : Clause.readAll (some value) = .ok clauses) :
    format value = accepted value ((Restriction.mk none clauses).written ++ "\n") [] := by
  rw [format, h]

section

variable {baseKey : String} {map : Tags}
  (hv : (map.value? (Restriction.conditionalKey baseKey)).getD "" = value)
include hv

theorem read_eq_map : Restriction.read baseKey map =
    (Clause.readAll (some value)).map fun clauses => ⟨map.value? baseKey, clauses⟩ := by
  subst hv
  rfl

theorem tags_eq_rejected (h : Clause.readAll (some value) = .error fault) :
    tags baseKey map = rejected value fault := by
  rw [tags, read_eq_map hv, h, hv]
  rfl

theorem tags_eq_accepted (h : Clause.readAll (some value) = .ok clauses) :
    tags baseKey map = accepted value (Restriction.mk (map.value? baseKey) clauses).toJson.document
      [.record .info programTarget ("parsed conditional restrictions base_key=" ++ baseKey ++
        " clauses=" ++ toString clauses.length)] := by
  rw [tags, read_eq_map hv, h, hv]
  rfl

end

end Transcript

theorem fromUTF8?_eq_some_iff {bytes : ByteArray} {text : String} :
    String.fromUTF8? bytes = some text ↔ bytes = text.toUTF8 := by
  constructor
  · intro h
    unfold String.fromUTF8? at h
    split at h
    · cases h
      rfl
    · cases h
  · rintro rfl
    exact dif_pos text.isValidUTF8

namespace Command
open Transcript

/-- The value that a command is about. It is given, or it is the last one under the conditional key of
the tags that are written in the source; where these have no such key, it is empty. -/
inductive Concerns (contents : TagSource → Option ByteArray) : Command → String → Prop
  | parse (value : String) (json : Bool) : Concerns contents (.parse value json) value
  | format (value : String) : Concerns contents (.format value) value
  | tags {baseKey text value : String} {file : Option String} {tags : Tags}
      (hs : contents (file.elim .standardInput .file) = some text.toUTF8)
      (ht : Tags.Object text.toList tags) (hv : tags.Under (Restriction.conditionalKey baseKey) value) :
      Concerns contents (.tags baseKey file) value

def transcript (printed : Failure → String) (contents : TagSource → Option ByteArray) :
    Command → Transcript
  | .parse value json => Transcript.parse value json
  | .format value => Transcript.format value
  | .tags baseKey file =>
    let source := file.elim .standardInput .file
    Transcript.tagsFrom printed baseKey source (contents source)

/-- What is told in the end of a value that has been accepted with so many clauses. -/
def summary (number : Nat) : Command → List Note
  | .parse .. => [.record .info Transcript.programTarget
      ("parsed conditional value clauses=" ++ toString number)]
  | .format _ => []
  | .tags baseKey _ => [.record .info Transcript.programTarget
      ("parsed conditional restrictions base_key=" ++ baseKey ++ " clauses=" ++ toString number)]

variable {printed : Failure → String} {contents : TagSource → Option ByteArray} {command : Command}
  {value other : String}

theorem Concerns.eq (h : command.Concerns contents value) (ho : command.Concerns contents other) :
    value = other := by
  cases h with
  | parse | format =>
    cases ho
    rfl
  | tags hs ht hv =>
    cases ho with
    | tags hs' ht' hv' =>
      have hu := fromUTF8?_eq_some_iff.2 (Option.some.inj (hs.symm.trans hs'))
      rw [fromUTF8?_eq_some_iff.2 rfl] at hu
      rw [Option.some.inj hu] at ht
      have hr := (Tags.read?_eq_some_iff.2 ht).symm.trans (Tags.read?_eq_some_iff.2 ht')
      rw [← Option.some.inj hr] at hv'
      exact (Tags.under_iff.1 hv).symm.trans (Tags.under_iff.1 hv')

theorem tagsFrom_of_object {baseKey text : String} {source : TagSource} {tags : Tags}
    (h : Tags.Object text.toList tags) :
    tagsFrom printed baseKey source (some text.toUTF8) = Transcript.tags baseKey tags := by
  have hb : (some text.toUTF8).bind String.fromUTF8? = some text := fromUTF8?_eq_some_iff.2 rfl
  simp only [tagsFrom, hb, Tags.read?_eq_some_iff.2 h]

theorem tagsFrom_cases (printed : Failure → String) (baseKey : String) (source : TagSource)
    (bytes : Option ByteArray) :
    (∃ text tags, bytes = some (String.toUTF8 text) ∧ Tags.Object text.toList tags) ∨
      (∀ text tags, bytes = some (String.toUTF8 text) → ¬Tags.Object text.toList tags) ∧
        ∃ failure, tagsFrom printed baseKey source bytes = failed printed failure ∧
          (failure = .unreadable source ∨ failure = .noTagObject) := by
  by_cases h : ∃ text tags, bytes = some (String.toUTF8 text) ∧ Tags.Object text.toList tags
  · exact .inl h
  · refine .inr ⟨fun text tags hs ht => h ⟨text, tags, hs, ht⟩, ?_⟩
    unfold tagsFrom
    split
    · exact ⟨_, rfl, .inl rfl⟩
    · next text hb =>
      obtain ⟨bytes, rfl, hu⟩ := Option.bind_eq_some_iff.1 hb
      split
      · exact ⟨_, rfl, .inr rfl⟩
      · next tags ht =>
        exact absurd ⟨text, tags, by rw [fromUTF8?_eq_some_iff.1 hu], Tags.read?_eq_some_iff.1 ht⟩ h

theorem transcript_of_error {fault : Fault} (h : command.Concerns contents value)
    (hr : Clause.readAll (some value) = .error fault) :
    command.transcript printed contents = rejected value fault := by
  cases h with
  | parse => exact parse_eq_rejected hr _
  | format => exact format_eq_rejected hr
  | tags hs ht hv =>
    rw [transcript, hs, tagsFrom_of_object ht]
    exact tags_eq_rejected (Tags.under_iff.1 hv) hr

theorem transcript_of_ok {clauses : List Clause} (h : command.Concerns contents value)
    (hr : Clause.readAll (some value) = .ok clauses) :
    ∃ output, command.transcript printed contents =
      accepted value output (command.summary clauses.length) := by
  cases h with
  | parse => exact ⟨_, parse_eq_accepted hr _⟩
  | format => exact ⟨_, format_eq_accepted hr⟩
  | tags hs ht hv =>
    rw [transcript, hs, tagsFrom_of_object ht]
    exact ⟨_, tags_eq_accepted (Tags.under_iff.1 hv) hr⟩

theorem transcript_of_not_concerns (h : ∀ value, ¬command.Concerns contents value) :
    ∃ failure, command.transcript printed contents = failed printed failure ∧
      ∃ baseKey file, command = .tags baseKey file ∧
        (failure = .unreadable (file.elim .standardInput .file) ∨ failure = .noTagObject) := by
  cases command with
  | parse value json => exact absurd (.parse value json) (h value)
  | format value => exact absurd (.format value) (h value)
  | tags baseKey file =>
    let source : TagSource := file.elim .standardInput .file
    rcases tagsFrom_cases printed baseKey source (contents source) with
      ⟨text, tags, hs, ht⟩ | ⟨-, failure, hf, hsource⟩
    · exact absurd (.tags hs ht (Tags.under_iff.2 rfl)) (h _)
    · exact ⟨failure, hf, baseKey, file, rfl, hsource⟩

theorem transcript_cases (printed : Failure → String) (contents : TagSource → Option ByteArray)
    (command : Command) :
    (∃ failure, (∀ value, ¬command.Concerns contents value) ∧
        command.transcript printed contents = failed printed failure) ∨
      (∃ value fault, command.Concerns contents value ∧
        Clause.readAll (some value) = .error fault ∧
        command.transcript printed contents = rejected value fault) ∨
      ∃ value clauses output, command.Concerns contents value ∧
        Clause.readAll (some value) = .ok clauses ∧
        command.transcript printed contents =
          accepted value output (command.summary clauses.length) := by
  by_cases h : ∃ value, command.Concerns contents value
  · obtain ⟨value, hv⟩ := h
    cases hr : Clause.readAll (some value) with
    | error fault => exact .inr (.inl ⟨value, fault, hv, hr, transcript_of_error hv hr⟩)
    | ok clauses =>
      obtain ⟨output, ht⟩ := @transcript_of_ok printed _ _ _ _ hv hr
      exact .inr (.inr ⟨value, clauses, output, hv, hr, ht⟩)
  · have hn := not_exists.1 h
    obtain ⟨failure, ht, -⟩ := @transcript_of_not_concerns printed _ _ hn
    exact .inl ⟨failure, hn, ht⟩

end Command

end ConditionalTags
