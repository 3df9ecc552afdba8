import ConditionalTags.Outline
import ConditionalTags.Proofs.Delimited
import ConditionalTags.Proofs.LineBreaks
import ConditionalTags.Proofs.Plain

/-! # Reading an outline back

An outline tells the clauses it shows. Its lines can be had back from its text, as long as no text in
it has a line break or begins with a space. A line for a connective looks like one for a leaf, and what
tells them apart is the line below: a join has members, which stand further in, and nothing that comes
after a leaf does.
-/
namespace ConditionalTags

namespace OutlineLine

/-- The text of the line can be told from the spaces in front of it and the line break behind it. -/
structure Legible (line : OutlineLine) : Prop where
  oneLine : '\n' ∉ line.text
  unindented : line.text.head? ≠ some ' '

def shown (line : OutlineLine) : List Char :=
  List.replicate (2 * line.depth) ' ' ++ line.text

def ofShown (text : List Char) : OutlineLine :=
  ⟨(text.takeWhile (· == ' ')).length / 2, text.dropWhile (· == ' ')⟩

variable {line : OutlineLine} {lines : List OutlineLine}

theorem ofShown_shown (h : line.text.head? ≠ some ' ') : ofShown line.shown = line := by
  have hspaces : ∀ c ∈ List.replicate (2 * line.depth) ' ', (c == ' ') = true := by
    intro c hc
    rw [List.eq_of_mem_replicate hc]
    rfl
  have htext : line.text.takeWhile (· == ' ') = [] ∧ line.text.dropWhile (· == ' ') = line.text := by
    cases ht : line.text with
    | nil => exact ⟨rfl, rfl⟩
    | cons c rest =>
      have hc : c ≠ ' ' := by simpa [ht] using h
      simp [hc]
  rw [ofShown, shown, List.takeWhile_append_of_pos hspaces, List.dropWhile_append_of_pos hspaces,
    htext.1, htext.2]
  simp

theorem lineBreak_not_mem_shown (h : '\n' ∉ line.text) : '\n' ∉ line.shown := by
  simp [shown, h]

theorem splitOn_written (h : ∀ line ∈ lines, line.Legible) :
    (lines.flatMap written).splitOn '\n' = lines.map shown ++ [[]] := by
  induction lines with
  | nil => exact List.splitOn_nil '\n'
  | cons line rest ih =>
    obtain ⟨hline, hrest⟩ := List.forall_mem_cons.1 h
    have hw : (line :: rest).flatMap written = line.shown ++ '\n' :: rest.flatMap written := by
      simp [written, shown]
    rw [hw, List.splitOn_append_cons_self_of_not_mem (lineBreak_not_mem_shown hline.oneLine),
      ih hrest, List.map_cons, List.cons_append]

/-- The lines of a text, but for what is behind its last line break. -/
def ofText (text : List Char) : List OutlineLine :=
  (text.splitOn '\n').dropLast.map ofShown

theorem ofText_written (h : ∀ line ∈ lines, line.Legible) :
    ofText (lines.flatMap written) = lines := by
  rw [ofText, splitOn_written h, List.dropLast_concat, List.map_map]
  exact (List.map_congr_left fun line hl => ofShown_shown (h line hl).unindented).trans
    (List.map_id lines)

/-- The first line, if there is one, stands no further in than `depth`. -/
def NoDeeper (depth : Nat) (lines : List OutlineLine) : Prop :=
  ∀ line ∈ lines.head?, line.depth ≤ depth

theorem NoDeeper.mono {depth more : Nat} (h : NoDeeper depth lines) (hm : depth ≤ more) :
    NoDeeper more lines :=
  fun line hl => Nat.le_trans (h line hl) hm

end OutlineLine

theorem Connective.legible_name (connective : Connective) (depth : Nat) :
    OutlineLine.Legible ⟨depth, connective.name.toList⟩ where
  oneLine := by
    show '\n' ∉ connective.name.toList
    cases connective <;> decide
  unindented := by
    show connective.name.toList.head? ≠ some ' '
    cases connective <;> decide

namespace Condition
open OutlineLine

theorem outline_leaf_append (text : String) (depth : Nat) (rest : List OutlineLine) :
    (leaf text).outline depth ++ rest = ⟨depth, text.toList⟩ :: rest := rfl

theorem outline_join_append (depth : Nat) (connective : Connective) (first second : Condition)
    (others : List Condition) (rest : List OutlineLine) :
    (join connective first second others).outline depth ++ rest =
      ⟨depth, connective.name.toList⟩ ::
        ((first :: second :: others).flatMap (outline (depth + 1)) ++ rest) := by
  rw [outline_join, List.cons_append]

theorem exists_outline_eq (condition : Condition) (depth : Nat) :
    ∃ text rest, condition.outline depth = ⟨depth, text⟩ :: rest := by
  cases condition with
  | leaf text => exact ⟨_, _, rfl⟩
  | join connective first second others =>
    exact ⟨_, _, outline_join depth connective first second others⟩

theorem noDeeper_outline_iff {condition : Condition} {depth bound : Nat} {rest : List OutlineLine} :
    NoDeeper bound (condition.outline depth ++ rest) ↔ depth ≤ bound := by
  obtain ⟨text, below, he⟩ := condition.exists_outline_eq depth
  simp [NoDeeper, he]

theorem not_noDeeper_members {depth : Nat} (first second : Condition) (others : List Condition)
    (rest : List OutlineLine) :
    ¬NoDeeper depth ((first :: second :: others).flatMap (outline (depth + 1)) ++ rest) := by
  rw [List.flatMap_cons, List.append_assoc, noDeeper_outline_iff]
  exact Nat.not_succ_le_self depth

/-- The lines of a condition tell the condition, if what follows stands no further in. -/
theorem tellsApart_outline (condition : Condition) (depth : Nat) :
    TellsApart (outline depth) (NoDeeper depth) condition := by
  induction condition using Condition.induct generalizing depth with
  | leaf text =>
    intro other rest others hr ho h
    rw [outline_leaf_append] at h
    cases other with
    | leaf text' =>
      obtain ⟨hline, hrest⟩ := List.cons.inj h
      have htext : text = text' := String.toList_inj.1 (congrArg OutlineLine.text hline)
      exact ⟨congrArg leaf htext, hrest⟩
    | join connective first second members =>
      rw [outline_join_append] at h
      obtain ⟨-, hrest⟩ := List.cons.inj h
      exact absurd (hrest ▸ hr) (not_noDeeper_members first second members others)
  | join connective first second members ih₁ ih₂ ihm =>
    intro other rest others hr ho h
    rw [outline_join_append] at h
    cases other with
    | leaf text =>
      rw [outline_leaf_append] at h
      obtain ⟨-, hrest⟩ := List.cons.inj h
      exact absurd (hrest ▸ ho) (not_noDeeper_members first second members rest)
    | join connective' first' second' members' =>
      rw [outline_join_append] at h
      obtain ⟨hline, hrest⟩ := List.cons.inj h
      have hconnective : connective = connective' :=
        Connective.eq_of_name (String.toList_inj.1 (congrArg OutlineLine.text hline))
      have hmembers : ∀ member ∈ first :: second :: members,
          TellsApart (outline (depth + 1)) (NoDeeper (depth + 1)) member := by
        simp only [List.forall_mem_cons]
        exact ⟨ih₁ _, ih₂ _, fun member hm => ihm member hm _⟩
      have hall : TellsApart (List.flatMap (outline (depth + 1))) (NoDeeper depth)
          (first :: second :: members) := TellsApart.flatMap hmembers
        (fun _ _ => ⟨noDeeper_outline_iff.2 (Nat.le_refl _),
          fun hn => Nat.not_succ_le_self depth (noDeeper_outline_iff.1 hn)⟩)
        (fun _ hn => hn.mono (Nat.le_succ depth))
      obtain ⟨he, htail⟩ := hall _ _ _ hr ho hrest
      simp only [List.cons.injEq] at he
      obtain ⟨rfl, rfl, rfl⟩ := he
      exact ⟨by rw [hconnective], htail⟩

theorem legible_of_mem_outline {condition : Condition} (ho : condition.OneLine)
    (ht : ∀ text ∈ condition.leaves, Text.trimmed text = text) (depth : Nat) :
    ∀ line ∈ condition.outline depth, line.Legible := by
  induction condition using Condition.induct generalizing depth with
  | leaf text =>
    intro line hl
    rw [List.mem_singleton.1 hl]
    exact ⟨ho text List.mem_cons_self, Text.head?_ne_space_of_trimmed (ht text List.mem_cons_self)⟩
  | join connective first second others ih₁ ih₂ iho =>
    obtain ⟨ho₁, ho₂, hoo⟩ := oneLine_join.1 ho
    simp only [leaves_join, members, List.flatMap_cons, List.mem_append, List.mem_flatMap] at ht
    rw [outline_join]
    simp only [List.forall_mem_cons, List.flatMap_cons, List.forall_mem_append, List.mem_flatMap]
    refine ⟨?_, ih₁ ho₁ (fun t hm => ht t (.inl hm)) _, ih₂ ho₂ (fun t hm => ht t (.inr (.inl hm))) _,
      ?_⟩
    · exact connective.legible_name depth
    · rintro line ⟨member, hm, hl⟩
      exact iho member hm (hoo member hm) (fun t ht' => ht t (.inr (.inr ⟨member, hm, ht'⟩))) _ line hl

end Condition

namespace Clause
open OutlineLine Condition

variable {clause : Clause} {clauses others : List Clause}

theorem outline_append (clause : Clause) (rest : List OutlineLine) :
    clause.outline ++ rest = ⟨0, clause.value.toList ++ " @".toList⟩ ::
      ((clause.condition.map (Condition.outline 1)).getD [] ++ rest) := rfl

theorem noDeeper_outline (clause : Clause) (rest : List OutlineLine) :
    NoDeeper 0 (clause.outline ++ rest) := by
  simp [NoDeeper, outline_append]

theorem tellsApart_outline (clause : Clause) : TellsApart outline (NoDeeper 0) clause := by
  rintro ⟨value', condition'⟩ rest others hr ho h
  obtain ⟨value, condition⟩ := clause
  rw [outline_append, outline_append] at h
  obtain ⟨hline, hrest⟩ := List.cons.inj h
  obtain rfl : value = value' :=
    String.toList_inj.1 (List.append_cancel_right (congrArg OutlineLine.text hline))
  cases condition with
  | none =>
    cases condition' with
    | none => exact ⟨rfl, hrest⟩
    | some x =>
      have hd : NoDeeper 0 (x.outline 1 ++ others) := by simpa using hrest ▸ hr
      exact absurd (noDeeper_outline_iff.1 hd) (by decide)
  | some y =>
    cases condition' with
    | none =>
      have hd : NoDeeper 0 (y.outline 1 ++ rest) := by simpa using hrest ▸ ho
      exact absurd (noDeeper_outline_iff.1 hd) (by decide)
    | some x =>
      obtain ⟨rfl, htail⟩ := y.tellsApart_outline 1 x rest others (hr.mono (Nat.zero_le 1))
        (ho.mono (Nat.zero_le 1)) hrest
      exact ⟨rfl, htail⟩

theorem eq_of_flatMap_outline (h : clauses.flatMap outline = others.flatMap outline) :
    clauses = others := by
  have hall : TellsApart (List.flatMap outline) (· = []) clauses :=
    TellsApart.flatMap (fun clause _ => clause.tellsApart_outline)
      (fun clause rest => ⟨noDeeper_outline clause rest, by simp [outline_append]⟩)
      (by rintro rest rfl line ⟨⟩)
  exact hall.eq rfl h

theorem legible_of_mem_outline (ho : clause.OneLine) (hw : clause.Writable) :
    ∀ line ∈ clause.outline, line.Legible := by
  obtain ⟨condition, hc, hplain⟩ := hw.condition
  have hv : clause.value.toList ≠ [] := mt String.toList_eq_nil_iff.1 hw.value_ne_empty
  rw [outline, hc]
  simp only [List.forall_mem_cons, Option.map_some, Option.getD_some]
  constructor
  · refine ⟨by simp [ho.value], ?_⟩
    rw [List.head?_append_of_ne_nil _ hv]
    exact Text.head?_ne_space_of_trimmed hw.value_trimmed
  · exact Condition.legible_of_mem_outline (ho.condition condition hc)
      (fun text ht => (hplain text ht).trimmed) 1

/-- The outline of clauses that have been read from one line can be taken apart into its lines. -/
theorem ofText_outlineText {value : String} (hv : '\n' ∉ value.toList)
    (h : readAll (some value) = .ok clauses) :
    ofText (outlineText clauses).toList = clauses.flatMap outline := by
  rw [outlineText, String.toList_ofList]
  apply ofText_written
  intro line hl
  obtain ⟨clause, hc, hl⟩ := List.mem_flatMap.1 hl
  exact legible_of_mem_outline (oneLine_of_readAll hv h clause hc) (writable_of_readAll h clause hc)
    line hl

/-- Values of one line that are shown alike have the same clauses. -/
theorem outlineText_inj_of_readAll {first second : String} (hf : '\n' ∉ first.toList)
    (hs : '\n' ∉ second.toList) (hfirst : readAll (some first) = .ok clauses)
    (hsecond : readAll (some second) = .ok others) :
    outlineText clauses = outlineText others ↔ clauses = others := by
  constructor
  · intro h
    apply eq_of_flatMap_outline
    rw [← ofText_outlineText hf hfirst, h, ofText_outlineText hs hsecond]
  · exact congrArg outlineText

/-- Leaves that read like connectives and like a value: the two outlines differ in how far their last
lines stand in. -/
theorem outlineText_inj_of_readAll_lookalike :
    let first := "AND @ (OR;x @;AND;b;c)"
    let second := "AND @ (OR;x @;(b AND c))"
    let pair := join .and (leaf "b") (leaf "c") []
    let clauses : List Clause :=
      [⟨"AND", some (join .or (leaf "OR") (leaf "x @") [leaf "AND", leaf "b", leaf "c"])⟩]
    let others : List Clause := [⟨"AND", some (join .or (leaf "OR") (leaf "x @") [pair])⟩]
    '\n' ∉ first.toList ∧ '\n' ∉ second.toList ∧ readAll (some first) = .ok clauses ∧
      readAll (some second) = .ok others ∧
      (outlineText clauses = outlineText others ↔ clauses = others) ∧
      outlineText clauses ≠ outlineText others := by
  intro first second pair clauses others
  have hf : '\n' ∉ first.toList := by decide +kernel
  have hs : '\n' ∉ second.toList := by decide +kernel
  have hfirst : readAll (some first) = .ok clauses := by decide +kernel
  have hsecond : readAll (some second) = .ok others := by decide +kernel
  have hinj := outlineText_inj_of_readAll hf hs hfirst hsecond
  exact ⟨hf, hs, hfirst, hsecond, hinj, fun h => absurd (hinj.1 h) (by decide +kernel)⟩

end Clause

end ConditionalTags
