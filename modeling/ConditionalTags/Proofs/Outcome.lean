import ConditionalTags.Proofs.FailureReport
import ConditionalTags.Proofs.Transcript

/-! # What a run comes to

A run whose settings are refused fails before its command is looked at; any other comes to what its
command does. What is printed, what is told and the exit code follow from that alone.
-/
namespace ConditionalTags

namespace Session
open Transcript

def effective (environment : Variable) (request : Request) : LogLevel :=
  request.logLevel.getD ((environment.text?.bind LogLevel.read?).getD .warn)

/-- What there is to tell, whatever is shown of it. -/
def notes (printed : Failure → String) (environment : Variable) (request : Request)
    (contents : TagSource → Option ByteArray) : List Note :=
  match Settings.ofVariable environment with
  | .error unknown => [.failure (printed (.levelUnknown unknown))]
  | .ok settings =>
    configured (settings.override request.logLevel) ::
      (request.command.transcript printed contents).notes

variable {printed : Failure → String} {environment : Variable} {level : LogLevel} {request : Request}
  {contents : TagSource → Option ByteArray}

theorem effective_of_asks (h : Settings.Asks environment level) (request : Request) :
    effective environment request = request.logLevel.getD level := by
  cases h with
  | level hn => simp [effective, Variable.text?, LogLevel.read?_eq_some_iff.2 hn]
  | unset => rfl
  | notText => rfl

theorem report_of_asks (h : Settings.Asks environment level) :
    (start printed environment request).report contents =
      (request.command.transcript printed contents).report ⟨request.logLevel.getD level⟩ := by
  rw [start, Settings.ofVariable_of_asks h]
  cases hc : request.command <;> rfl

theorem notes_of_asks (h : Settings.Asks environment level) :
    notes printed environment request contents = configured ⟨request.logLevel.getD level⟩ ::
      (request.command.transcript printed contents).notes := by
  rw [notes, Settings.ofVariable_of_asks h]
  rfl

/-- Settings that are refused end the session before any source is asked for. -/
theorem start_of_not_readable (h : ¬Settings.Readable environment) :
    ∃ unknown, start printed environment request = .finished ⟨1, "", printed (.levelUnknown unknown)⟩ ∧
      notes printed environment request contents = [.failure (printed (.levelUnknown unknown))] := by
  obtain ⟨unknown, hu⟩ := Settings.ofVariable_of_not_readable h
  exact ⟨unknown, by rw [start, hu], by rw [notes, hu]⟩

theorem errors_eq_text (printed : Failure → String) (environment : Variable) (request : Request)
    (contents : TagSource → Option ByteArray) :
    ((start printed environment request).report contents).errors =
      Note.text ((notes printed environment request contents).filter
        (Note.visible (effective environment request))) := by
  by_cases h : Settings.Readable environment
  · obtain ⟨level, ha⟩ := Settings.exists_asks_of_readable h
    rw [report_of_asks ha, notes_of_asks ha, effective_of_asks ha]
    exact Note.shown_eq_text _ _
  · obtain ⟨unknown, hs, hn⟩ := @start_of_not_readable printed _ _ contents h
    rw [hs, hn, List.filter_cons_of_pos (Note.visible_of_severity? rfl _), List.filter_nil,
      Note.text_singleton]
    rfl

section

variable (printed : Failure → String) (environment : Variable) (request : Request)
  (contents : TagSource → Option ByteArray)

variable {printed environment request contents}

end

end Session

end ConditionalTags
