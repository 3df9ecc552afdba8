import ConditionalTags.Proofs.Indentation
import ConditionalTags.Proofs.Transcript
import ConditionalTags.Proofs.RoundTrip

/-! # The commands agree

A value is parsed, formatted and looked up among tags by commands of their own. They accept the same
values and tell of the same faults, and what one of them prints can be had from what another prints.
-/
namespace ConditionalTags

namespace Restriction

def printedDefault (restriction : Restriction) : String :=
  (restriction.defaultValue.map fun text => String.ofList (Json.quoted text.toList)).getD "null"

theorem document_toJson (restriction : Restriction) :
    restriction.toJson.document = "\x7b\n  \"default\": " ++ restriction.printedDefault ++
      ",\n  \"exceptions\": " ++
      String.ofList (Json.indented ((Clause.allToJson restriction.exceptions).pretty 0)) ++
      "\n\x7d\n" := by
  have hd : ((restriction.defaultValue.map Json.text).getD .null).pretty 1 =
      restriction.printedDefault.toList := by
    cases h : restriction.defaultValue <;> simp [printedDefault, h, Json.pretty]
  have hkeys : Json.quoted "default".toList = "\"default\"".toList ∧
      Json.quoted "exceptions".toList = "\"exceptions\"".toList := by decide
  simp only [String.reduceToList] at hkeys
  rw [← String.toList_inj, Json.document, toJson]
  simp [Json.pretty, Json.prettyFields, Json.enclosed, Json.lineBreak, hd, Json.pretty_succ, hkeys]

end Restriction

namespace Transcript
open Note

variable {baseKey value : String} {map : Tags}

theorem readAll_written {clauses : List Clause} {json : Bool}
    (hr : Clause.readAll (some value) = .ok clauses)
    (hp : (parse (Restriction.mk none clauses).written json).succeeded = true) :
    Clause.readAll (some (Restriction.mk none clauses).written) = .ok clauses := by
  obtain ⟨hfits, hover⟩ := Clause.readAll_of_writable (Clause.writable_of_readAll hr)
  by_cases hd : ∀ clause ∈ clauses, clause.FitsDepth
  · exact hfits hd
  · obtain ⟨opened, he⟩ := hover hd
    have hrejected : parse _ json = _ := parse_eq_rejected he json
    cases hp.symm.trans (congrArg succeeded hrejected)

/-- Parsing a value, in either form, formatting it and looking it up among tags come to the same. If
it is accepted, the list of parsed clauses is indented in what is printed for the tags, and parsing
what is printed by formatting gives that list again unless it is rejected. If not, nothing is printed
and the same diagnostic is told. -/
theorem commands_agree (hv : (map.value? (Restriction.conditionalKey baseKey)).getD "" = value) :
    let runs := [parse value false, parse value true, format value, tags baseKey map]
    ((∀ run ∈ runs, run.succeeded = true) ∧ ∃ array line,
      (parse value true).output = array ++ "\n" ∧
      (tags baseKey map).output = "\x7b\n  \"default\": " ++
        ((map.value? baseKey).map fun text => String.ofList (Json.quoted text.toList)).getD "null" ++
        ",\n  \"exceptions\": " ++ String.ofList (Json.indented array.toList) ++ "\n\x7d\n" ∧
      (format value).output = line ++ "\n" ∧
      ((parse line true).succeeded = true →
        (parse line true).output = (parse value true).output)) ∨
    ∃ fault : Fault, ∀ run ∈ runs, run.succeeded = false ∧ run.output = "" ∧
      told run.notes = fault.diagnostic value := by
  intro runs
  cases hr : Clause.readAll (some value) with
  | error fault =>
    refine .inr ⟨fault, fun run hrun => ?_⟩
    have hrejected : run = rejected value fault := by
      simp only [runs, parse_eq_rejected hr, format_eq_rejected hr, tags_eq_rejected hv hr] at hrun
      simpa using hrun
    rw [hrejected]
    exact ⟨rfl, rfl, told_rejected⟩
  | ok clauses =>
    have hsucceeded : ∀ run ∈ runs, run.succeeded = true := by
      simp only [runs, parse_eq_accepted hr, format_eq_accepted hr, tags_eq_accepted hv hr]
      simp [accepted]
    refine .inl ⟨hsucceeded, String.ofList ((Clause.allToJson clauses).pretty 0),
      (Restriction.mk none clauses).written, ?_, ?_, ?_, fun hline => ?_⟩
    · rw [parse_eq_accepted hr]
      exact String.ofList_append
    · rw [tags_eq_accepted hv hr, String.toList_ofList]
      exact Restriction.document_toJson _
    · rw [format_eq_accepted hr]
      rfl
    · rw [parse_eq_accepted (readAll_written hr hline), parse_eq_accepted hr]
      rfl

/-- Of two values under one key the last counts, and a line break in it is escaped. -/
theorem commands_agree_repeated :
    let map : Tags := [("access", "no"), ("access:conditional", "no @ (wet;\ndry)"), ("access", "yes")]
    let value := "no @ (wet;\ndry)"
    (map.value? (Restriction.conditionalKey "access")).getD "" = value ∧ ∃ array line,
      (parse value true).output = array ++ "\n" ∧
      (tags "access" map).output = "\x7b\n  \"default\": \"yes\",\n  \"exceptions\": " ++
        String.ofList (Json.indented array.toList) ++ "\n\x7d\n" ∧
      (format value).output = line ++ "\n" ∧
      ((parse line true).succeeded = true →
        (parse line true).output = (parse value true).output) := by
  intro map value
  have hv : (map.value? (Restriction.conditionalKey "access")).getD "" = value := by decide
  refine ⟨hv, ?_⟩
  rcases commands_agree hv with ⟨-, array, line, ha, ht, hl⟩ | ⟨fault, hf⟩
  · exact ⟨array, line, ha, ht.trans (by rfl), hl⟩
  · have hrejected := (hf (format value) (by simp)).1
    have haccepted : (format value).succeeded = true := by decide +kernel
    cases hrejected.symm.trans haccepted

end Transcript

end ConditionalTags
