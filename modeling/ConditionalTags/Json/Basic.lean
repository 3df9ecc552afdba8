import ConditionalTags.Clause

/-! # JSON texts

The JSON values that are printed here, and their printed form: one entry a line, two spaces deeper
than the brackets around it. Strings escape quotes, backslashes and control characters only.

A condition is a record that names its type first. A clause without a condition has no field for it,
while a restriction without a default has a null.
-/
namespace ConditionalTags

inductive Json
  | null
  | text (content : String)
  | list (items : List Json)
  | record (fields : List (String × Json))
  deriving Repr

namespace Json

@[elab_as_elim]
theorem induct {P : Json → Prop} (null : P .null) (text : ∀ content, P (.text content))
    (list : ∀ items, (∀ item ∈ items, P item) → P (.list items))
    (record : ∀ fields, (∀ field ∈ fields, P field.2) → P (.record fields)) (json : Json) : P json :=
  @Json.rec P (fun items => ∀ item ∈ items, P item) (fun fields => ∀ field ∈ fields, P field.2)
    (fun field => P field.2) null text list record nofun
    (fun _ _ hi hs => List.forall_mem_cons.2 ⟨hi, hs⟩) nofun
    (fun _ _ hf hs => List.forall_mem_cons.2 ⟨hf, hs⟩) (fun _ _ hv => hv) json

def escaped (c : Char) : List Char :=
  match c with
  | '"' => ['\\', '"']
  | '\\' => ['\\', '\\']
  | '\x08' => ['\\', 'b']
  | '\x0c' => ['\\', 'f']
  | '\n' => ['\\', 'n']
  | '\r' => ['\\', 'r']
  | '\t' => ['\\', 't']
  | _ =>
    if c.toNat < 0x20 then
      ['\\', 'u', '0', '0', Nat.digitChar (c.toNat / 16), Nat.digitChar (c.toNat % 16)]
    else [c]

def quoted (content : List Char) : List Char :=
  '"' :: content.flatMap escaped ++ ['"']

def lineBreak (depth : Nat) : List Char :=
  '\n' :: List.replicate (2 * depth) ' '

/-- The entries of a list or a record between its brackets, which stand at `depth`. -/
def enclosed (opening closing : Char) (depth : Nat) : List (List Char) → List Char
  | [] => [opening, closing]
  | entries =>
    opening :: lineBreak (depth + 1) ++ List.intercalate (',' :: lineBreak (depth + 1)) entries ++
      lineBreak depth ++ [closing]

mutual

def pretty (depth : Nat) : Json → List Char
  | null => "null".toList
  | text content => quoted content.toList
  | list items => enclosed '[' ']' depth (prettyItems (depth + 1) items)
  | record fields => enclosed '{' '}' depth (prettyFields (depth + 1) fields)
termination_by structural json => json

def prettyItems (depth : Nat) : List Json → List (List Char)
  | [] => []
  | item :: rest => item.pretty depth :: prettyItems depth rest
termination_by structural items => items

def prettyFields (depth : Nat) : List (String × Json) → List (List Char)
  | [] => []
  | (key, value) :: rest =>
    (quoted key.toList ++ ": ".toList ++ value.pretty depth) :: prettyFields depth rest
termination_by structural fields => fields

end

theorem prettyItems_eq_map (depth : Nat) (items : List Json) :
    prettyItems depth items = items.map (pretty depth) := by
  induction items with
  | nil => rfl
  | cons item rest ih => rw [prettyItems, ih, List.map_cons]

theorem prettyFields_eq_map (depth : Nat) (fields : List (String × Json)) :
    prettyFields depth fields =
      fields.map fun field => quoted field.1.toList ++ ": ".toList ++ field.2.pretty depth := by
  induction fields with
  | nil => rfl
  | cons field rest ih => rw [prettyFields, ih, List.map_cons]

/-- A whole text, ended by a line break. -/
def document (json : Json) : String :=
  String.ofList (json.pretty 0 ++ ['\n'])

end Json

namespace Condition

mutual

def toJson : Condition → Json
  | leaf text => .record [("type", .text "Condition"), ("string", .text text)]
  | join connective first second others =>
    .record [("type", .text "LogicalOperator"), ("operator", .text connective.name),
      ("children", .list (first.toJson :: second.toJson :: toJsonAll others))]
termination_by structural c => c

def toJsonAll : List Condition → List Json
  | [] => []
  | c :: rest => c.toJson :: toJsonAll rest
termination_by structural cs => cs

end

end Condition

namespace Clause

def toJson (clause : Clause) : Json :=
  .record <| ("value", .text clause.value) ::
    (clause.condition.map fun condition => ("if", condition.toJson)).toList

def allToJson (clauses : List Clause) : Json :=
  .list (clauses.map toJson)

end Clause

def Restriction.toJson (restriction : Restriction) : Json :=
  .record [("default", (restriction.defaultValue.map Json.text).getD .null),
    ("exceptions", Clause.allToJson restriction.exceptions)]

end ConditionalTags
