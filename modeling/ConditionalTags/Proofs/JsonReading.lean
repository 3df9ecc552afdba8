import ConditionalTags.Json.Basic
import ConditionalTags.Proofs.Delimited
import ConditionalTags.Proofs.StringGrammar
import Mathlib.Data.List.Basic

/-! # Reading JSON back

A printed value tells the value. A string is read back by the reader of tags, whatever characters it
has; the first character of a value tells its kind, and the one behind an entry tells whether there is
another. A condition, a clause and a restriction can be had from the values they are printed as.
-/
namespace ConditionalTags

namespace Tags
open Json

theorem hexDigit_digitChar : ∀ n < 16, HexDigit (Nat.digitChar n) n := by decide

theorem character_escaped (c : Char) : Character (escaped c) c := by
  unfold escaped
  split
  any_goals exact .escape (by decide)
  next hquote hslash _ _ _ _ _ =>
    split
    · next hc =>
      have hzero : HexDigit '0' 0 := .inl rfl
      have hdigits := CodeUnit.digits hzero hzero (hexDigit_digitChar (c.toNat / 16) (by omega))
        (hexDigit_digitChar (c.toNat % 16) (by omega))
      have hunit : 0 * 4096 + 0 * 256 + c.toNat / 16 * 16 + c.toNat % 16 = c.toNat := by omega
      rw [hunit] at hdigits
      exact .unicode (.unit hdigits)
    · next hc => exact .plain (Nat.le_of_not_lt hc) hquote hslash

theorem characters_flatMap_escaped (content : List Char) :
    Characters (content.flatMap escaped) content := by
  induction content with
  | nil => exact .nil
  | cons c content ih => exact .cons (character_escaped c) ih

/-- What is printed for a string is read as the string, and no further. -/
theorem content?_escaped (content rest : List Char) :
    content? (content.flatMap escaped ++ '"' :: rest) = some (content, rest) :=
  content?_eq_some_iff.2 ⟨_, characters_flatMap_escaped content, rfl⟩

end Tags

namespace Json

theorem quoted_append (content rest : List Char) :
    quoted content ++ rest = '"' :: (content.flatMap escaped ++ '"' :: rest) := by
  simp [quoted]

theorem tellsApart_quoted (content : List Char) : TellsApart quoted Anything content := by
  intro other rest others _ _ h
  rw [quoted_append, quoted_append] at h
  have hread := congrArg Tags.content? (List.cons.inj h).2
  rw [Tags.content?_escaped, Tags.content?_escaped] at hread
  simpa using hread

theorem intercalate_cons (separator entry : List Char) (entries : List (List Char)) :
    List.intercalate separator (entry :: entries) = entry ++ entries.flatMap (separator ++ ·) := by
  induction entries generalizing entry with
  | nil => simp
  | cons next entries ih =>
    simp only [List.intercalate_cons_cons, ih, List.flatMap_cons, List.append_assoc]

theorem enclosed_cons_append (opening closing : Char) (depth : Nat) (entry : List Char)
    (entries : List (List Char)) (rest : List Char) :
    enclosed opening closing depth (entry :: entries) ++ rest =
      opening :: (lineBreak (depth + 1) ++ (entry ++
        (entries.flatMap ((',' :: lineBreak (depth + 1)) ++ ·) ++
          (lineBreak depth ++ closing :: rest)))) := by
  simp [enclosed, intercalate_cons]

/-- A comma stands in front of every entry but the first, and a line break behind the last. -/
theorem tellsApart_enclosed {α : Type} {write : α → List Char} {opening closing : Char} {depth : Nat}
    {as : List α} (hc : closing ≠ '\n') (ha : ∀ a ∈ as, TellsApart write Anything a) :
    TellsApart (fun as => enclosed opening closing depth (as.map write)) Anything as := by
  rintro bs rest others - - h
  dsimp only at h
  cases as with
  | nil =>
    cases bs with
    | nil => exact ⟨rfl, by simpa [enclosed] using h⟩
    | cons b bs =>
      rw [List.map_cons, enclosed_cons_append] at h
      have hn : closing = '\n' := (List.cons.inj (List.cons.inj h).2).1
      exact absurd hn hc
  | cons a as =>
    cases bs with
    | nil =>
      rw [List.map_cons, enclosed_cons_append] at h
      have hn : '\n' = closing := (List.cons.inj (List.cons.inj h).2).1
      exact absurd hn.symm hc
    | cons b bs =>
      obtain ⟨hhead, htail⟩ := List.forall_mem_cons.1 ha
      simp only [List.map_cons, enclosed_cons_append, List.flatMap_map] at h
      obtain ⟨rfl, hmore⟩ := hhead b _ _ trivial trivial
        (List.append_cancel_left (List.cons.inj h).2)
      have hall : TellsApart (List.flatMap fun a => (',' :: lineBreak (depth + 1)) ++ write a)
          (fun rest => rest.head? = some '\n') as :=
        TellsApart.flatMap (fun a hm => (htail a hm).behind _) (fun _ _ => ⟨trivial, by simp⟩)
          fun _ _ => trivial
      obtain ⟨rfl, hend⟩ := hall bs _ _ rfl rfl hmore
      exact ⟨rfl, (List.cons.inj (List.append_cancel_left hend)).2⟩

theorem tellsApart_field {depth : Nat} {field : String × Json}
    (h : TellsApart (pretty depth) Anything field.2) :
    TellsApart (fun field => quoted field.1.toList ++ ": ".toList ++ field.2.pretty depth) Anything
      field := by
  rintro ⟨key', value'⟩ rest others - - he
  obtain ⟨key, value⟩ := field
  simp only [List.append_assoc] at he
  obtain ⟨hkey, hvalue⟩ := tellsApart_quoted key.toList _ _ _ trivial trivial he
  obtain ⟨rfl, hrest⟩ := h value' rest others trivial trivial (List.append_cancel_left hvalue)
  exact ⟨by rw [String.toList_inj.1 hkey], hrest⟩

/-- The first character of what is printed. -/
def initial : Json → Char
  | null => 'n'
  | text _ => '"'
  | list _ => '['
  | record _ => '{'

theorem head?_enclosed (opening closing : Char) (depth : Nat) (entries : List (List Char))
    (rest : List Char) : (enclosed opening closing depth entries ++ rest).head? = some opening := by
  cases entries with
  | nil => rfl
  | cons entry entries => rw [enclosed_cons_append, List.head?_cons]

theorem head?_pretty (json : Json) (depth : Nat) (rest : List Char) :
    (json.pretty depth ++ rest).head? = some json.initial := by
  cases json with
  | null => rfl
  | text content => rfl
  | list items => exact head?_enclosed '[' ']' depth _ rest
  | record fields => exact head?_enclosed '{' '}' depth _ rest

theorem initial_eq_of_pretty_append {json other : Json} {depth : Nat} {rest others : List Char}
    (h : json.pretty depth ++ rest = other.pretty depth ++ others) :
    json.initial = other.initial := by
  have hh := congrArg List.head? h
  rw [head?_pretty, head?_pretty] at hh
  exact Option.some.inj hh

/-- What is printed for a value tells the value, and where it ends. -/
theorem tellsApart_pretty (json : Json) (depth : Nat) : TellsApart (pretty depth) Anything json := by
  induction json using induct generalizing depth with
  | null =>
    rintro other rest others - - h
    have hi := initial_eq_of_pretty_append h
    cases other with
    | null => exact ⟨rfl, List.append_cancel_left h⟩
    | _ => simp [initial] at hi
  | text content =>
    rintro other rest others - - h
    have hi := initial_eq_of_pretty_append h
    cases other with
    | text content' =>
      obtain ⟨hc, hrest⟩ := tellsApart_quoted content.toList _ _ _ trivial trivial h
      exact ⟨by rw [String.toList_inj.1 hc], hrest⟩
    | _ => simp [initial] at hi
  | list items ih =>
    rintro other rest others - - h
    have hi := initial_eq_of_pretty_append h
    cases other with
    | list items' =>
      rw [pretty, pretty, prettyItems_eq_map, prettyItems_eq_map] at h
      obtain ⟨rfl, hrest⟩ := tellsApart_enclosed (by decide) (fun item hm => ih item hm (depth + 1))
        items' rest others trivial trivial h
      exact ⟨rfl, hrest⟩
    | _ => simp [initial] at hi
  | record fields ih =>
    rintro other rest others - - h
    have hi := initial_eq_of_pretty_append h
    cases other with
    | record fields' =>
      rw [pretty, pretty, prettyFields_eq_map, prettyFields_eq_map] at h
      obtain ⟨rfl, hrest⟩ := tellsApart_enclosed (by decide)
        (fun field hm => tellsApart_field (ih field hm (depth + 1))) fields' rest others trivial
        trivial h
      exact ⟨rfl, hrest⟩
    | _ => simp [initial] at hi

theorem eq_of_document {json other : Json} (h : json.document = other.document) : json = other := by
  apply (tellsApart_pretty json 0 other ['\n'] ['\n'] trivial trivial _).1
  exact String.ofList_inj.1 h

end Json

namespace Condition

theorem toJsonAll_eq_map (cs : List Condition) : toJsonAll cs = cs.map toJson := by
  induction cs with
  | nil => rfl
  | cons c rest ih => rw [toJsonAll, ih, List.map_cons]

theorem toJson_join (connective : Connective) (first second : Condition) (others : List Condition) :
    (join connective first second others).toJson =
      .record [("type", .text "LogicalOperator"), ("operator", .text connective.name),
        ("children", .list ((first :: second :: others).map toJson))] := by
  rw [toJson, toJsonAll_eq_map, List.map_cons, List.map_cons]

theorem eq_of_map_toJson {cs ds : List Condition}
    (hc : ∀ c ∈ cs, ∀ d : Condition, c.toJson = d.toJson → c = d)
    (h : cs.map toJson = ds.map toJson) : cs = ds := by
  induction cs generalizing ds with
  | nil => exact (List.map_eq_nil_iff.1 h.symm).symm
  | cons c cs ih =>
    cases ds with
    | nil => cases h
    | cons d ds =>
      obtain ⟨hhead, htail⟩ := List.cons.inj h
      obtain ⟨hfirst, hrest⟩ := List.forall_mem_cons.1 hc
      rw [hfirst d hhead, ih hrest htail]

/-- The type of a condition is printed first, and its members are printed in order. -/
theorem eq_of_toJson {condition other : Condition} (h : condition.toJson = other.toJson) :
    condition = other := by
  induction condition using Condition.induct generalizing other with
  | leaf text =>
    cases other with
    | leaf text' => simpa [toJson] using h
    | join connective first second others => simp [toJson] at h
  | join connective first second others ih₁ ih₂ iho =>
    cases other with
    | leaf text => simp [toJson] at h
    | join connective' first' second' others' =>
      simp only [toJson_join, Json.record.injEq, List.cons.injEq, Prod.mk.injEq, Json.text.injEq,
        Json.list.injEq] at h
      obtain ⟨-, ⟨-, hname⟩, ⟨-, hmembers⟩, -⟩ := h
      have hall : ∀ c ∈ first :: second :: others, ∀ d : Condition, c.toJson = d.toJson → c = d := by
        simp only [List.forall_mem_cons]
        exact ⟨fun _ => ih₁, fun _ => ih₂, fun c hc _ => iho c hc⟩
      have he := eq_of_map_toJson hall hmembers
      simp only [List.cons.injEq] at he
      obtain ⟨rfl, rfl, rfl⟩ := he
      rw [Connective.eq_of_name hname]

end Condition

namespace Clause

theorem eq_of_toJson {clause other : Clause} (h : clause.toJson = other.toJson) : clause = other := by
  obtain ⟨value, condition⟩ := clause
  obtain ⟨value', condition'⟩ := other
  simp only [toJson, Json.record.injEq, List.cons.injEq, Prod.mk.injEq, Json.text.injEq, true_and] at h
  obtain ⟨rfl, hfield⟩ := h
  cases condition with
  | none =>
    cases condition' with
    | none => rfl
    | some y => cases hfield
  | some x =>
    cases condition' with
    | none => cases hfield
    | some y =>
      have hxy : x.toJson = y.toJson := by simpa using hfield
      rw [Condition.eq_of_toJson hxy]

theorem eq_of_allToJson {clauses others : List Clause} (h : allToJson clauses = allToJson others) :
    clauses = others := by
  apply List.map_injective_iff.2 (fun _ _ => eq_of_toJson)
  simpa [allToJson] using h

end Clause

namespace Restriction

theorem eq_of_toJson {restriction other : Restriction} (h : restriction.toJson = other.toJson) :
    restriction = other := by
  obtain ⟨value, exceptions⟩ := restriction
  obtain ⟨value', exceptions'⟩ := other
  simp only [toJson, Json.record.injEq, List.cons.injEq, Prod.mk.injEq, true_and, and_true] at h
  obtain ⟨hvalue, hexceptions⟩ := h
  have hv : value = value' := by
    cases value with
    | none =>
      cases value' with
      | none => rfl
      | some text' => cases hvalue
    | some text =>
      cases value' with
      | none => cases hvalue
      | some text' => exact congrArg some (Json.text.inj hvalue)
  rw [hv, Clause.eq_of_allToJson hexceptions]

/-- Restrictions that are printed alike are the same. -/
theorem document_toJson_inj {restriction other : Restriction} :
    restriction.toJson.document = other.toJson.document ↔ restriction = other := by
  constructor
  · exact fun h => eq_of_toJson (Json.eq_of_document h)
  · rintro rfl
    rfl

end Restriction

end ConditionalTags
