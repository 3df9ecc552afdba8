import ConditionalTags.Proofs.Transcript
import ConditionalTags.Proofs.RoundTrip

/-! # Formatting what has been formatted

Formatting prints the written form of the clauses of a value. Writing puts brackets around every
join, also around one that had none, and around a leaf that ends with the keyword; so a value that
uses all the brackets that reading allows may be written with one too many. That is the only way in
which formatting a formatted value can fail.
-/
namespace ConditionalTags
open Condition

namespace Transcript

variable {value : String} {clauses : List Clause}

theorem format_of_ok (h : Clause.readAll (some value) = .ok clauses) :
    (format value).succeeded = true ∧
      (format value).output = (Restriction.mk none clauses).written ++ "\n" := by
  rw [format_eq_accepted h]
  exact ⟨rfl, rfl⟩

theorem format_of_error {fault : Fault} (h : Clause.readAll (some value) = .error fault) :
    (format value).succeeded = false := by
  rw [format_eq_rejected h]
  rfl

/-- What is printed for a value is accepted exactly if its brackets do not nest too deep. It is then
printed unchanged and has the same clauses; else a bracket is one too many. -/
theorem format_written (h : Clause.readAll (some value) = .ok clauses) :
    let printed := (Restriction.mk none clauses).written
    (format value).output = printed ++ "\n" ∧
      (Clause.readAll (some printed) = .ok clauses ↔ ∀ clause ∈ clauses, clause.FitsDepth) ∧
      ((format printed).succeeded = true ↔ ∀ clause ∈ clauses, clause.FitsDepth) ∧
      ((format printed).succeeded = true → (format printed).output = (format value).output) ∧
      (¬(∀ clause ∈ clauses, clause.FitsDepth) →
        ∃ opened, Clause.readAll (some printed) = .error ⟨.tooDeep, some opened⟩) := by
  intro printed
  have hvalue := (format_of_ok h).2
  have hw := Clause.writable_of_readAll h
  obtain ⟨hfits, hover⟩ := Clause.readAll_of_writable hw
  by_cases hd : ∀ clause ∈ clauses, clause.FitsDepth
  · have hread : Clause.readAll (some printed) = .ok clauses := hfits hd
    obtain ⟨hsucceeded, houtput⟩ := format_of_ok hread
    refine ⟨hvalue, iff_of_true hread hd, iff_of_true hsucceeded hd, fun _ => ?_, absurd hd⟩
    rw [houtput, hvalue]
  · obtain ⟨opened, he⟩ := hover hd
    have hread : Clause.readAll (some printed) = .error ⟨.tooDeep, some opened⟩ := he
    have hfailed := format_of_error hread
    refine ⟨hvalue, iff_of_false ?_ hd, iff_of_false ?_ hd, ?_, fun _ => ⟨opened, hread⟩⟩
    · rw [hread]
      nofun
    · rw [hfailed]
      nofun
    · rw [hfailed]
      nofun

theorem format_written_juxtaposed :
    let value := "v @ a (b;c and) ; w@ and"
    let pair := join .or (leaf "b") (leaf "c and") []
    let clauses : List Clause := [⟨"v", some (join .and pair (leaf "a") [])⟩, ⟨"w", some (leaf "and")⟩]
    let printed := (Restriction.mk none clauses).written
    Clause.readAll (some value) = .ok clauses ∧
      (format value).output = printed ++ "\n" ∧
      (Clause.readAll (some printed) = .ok clauses ↔ ∀ clause ∈ clauses, clause.FitsDepth) ∧
      ((format printed).succeeded = true ↔ ∀ clause ∈ clauses, clause.FitsDepth) ∧
      ((format printed).succeeded = true → (format printed).output = (format value).output) ∧
      (¬(∀ clause ∈ clauses, clause.FitsDepth) →
        ∃ opened, Clause.readAll (some printed) = .error ⟨.tooDeep, some opened⟩) := by
  intro value pair clauses printed
  have h : Clause.readAll (some value) = .ok clauses := by decide +kernel
  exact ⟨h, format_written h⟩

/-- A value that is accepted, and rejected once it has been formatted: its outermost level has no
brackets of its own, but is written with them. -/
theorem format_unbracketed_rejected :
    let value := "v @ a(a(a(a(a(a(a(a(a(a(a(a(a(a(a(a(a(a(a(a(b;c))))))))))))))))))))"
    let innermost := join .or (leaf "b") (leaf "c") []
    let nested := (List.range 20).foldr (fun _ inner => join .and inner (leaf "a") []) innermost
    let clauses : List Clause := [⟨"v", some nested⟩]
    let printed := (Restriction.mk none clauses).written
    Clause.readAll (some value) = .ok clauses ∧
      (format value).succeeded = true ∧ (format value).output = printed ++ "\n" ∧
      Clause.readAll (some printed) = .error ⟨.tooDeep, some 24⟩ ∧
      (format printed).succeeded = false := by
  intro value innermost nested clauses printed
  have h : Clause.readAll (some value) = .ok clauses := by decide +kernel
  have he : Clause.readAll (some printed) = .error ⟨.tooDeep, some 24⟩ := by decide +kernel
  have hf := format_of_ok h
  exact ⟨h, hf.1, hf.2, he, format_of_error he⟩

end Transcript

end ConditionalTags
