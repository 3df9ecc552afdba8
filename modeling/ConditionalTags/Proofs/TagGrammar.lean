import ConditionalTags.Proofs.StringGrammar
import Mathlib.Data.List.TakeWhile

/-! # What a tag object looks like

The grammar of a JSON object whose values are all strings, over the text as a whole. The reader of tags
takes what the grammar derives, and gives the tags that are written there. Of these the last one under a
key counts.
-/
namespace ConditionalTags.Tags

/-- Spaces, tabs and line breaks. -/
def Spaces (text : List Char) : Prop :=
  ∀ c ∈ text, c ∈ [' ', '\n', '\r', '\t']

inductive Field : List Char → String × String → Prop
  | pair {key value before after : List Char} {field : String × String} (hkey : Quoted key field.1)
      (hbefore : Spaces before) (hafter : Spaces after) (hvalue : Quoted value field.2) :
      Field (key ++ before ++ ':' :: after ++ value) field

inductive Fields : List Char → Tags → Prop
  | last {text : List Char} {field : String × String} (h : Field text field) : Fields text [field]
  | more {text before after rest : List Char} {field : String × String} {fields : Tags}
      (h : Field text field) (hbefore : Spaces before) (hafter : Spaces after)
      (hrest : Fields rest fields) :
      Fields (text ++ before ++ ',' :: after ++ rest) (field :: fields)

/-- An object and the fields between its braces, with spaces around each of its parts. -/
inductive Object : List Char → Tags → Prop
  | empty {front inner back : List Char} (hfront : Spaces front) (hinner : Spaces inner)
      (hback : Spaces back) : Object (front ++ '{' :: inner ++ '}' :: back) []
  | fields {front before text after back : List Char} {tags : Tags} (hfront : Spaces front)
      (hbefore : Spaces before) (h : Fields text tags) (hafter : Spaces after)
      (hback : Spaces back) : Object (front ++ '{' :: before ++ text ++ after ++ '}' :: back) tags

/-- The text under a key: its last value, or nothing where there is no such key. -/
inductive Under (tags : Tags) (key : String) : String → Prop
  | last {front back : Tags} {value : String} (h : tags = front ++ (key, value) :: back)
      (hback : ∀ field ∈ back, field.1 ≠ key) : Under tags key value
  | absent (h : ∀ field ∈ tags, field.1 ≠ key) : Under tags key ""

variable {text rest : List Char} {c : Char} {tags : Tags} {key value : String}

theorem isSpace_iff : isSpace c = true ↔ c ∈ [' ', '\n', '\r', '\t'] := by
  simp [isSpace, or_assoc]

theorem skipSpace_append {spaces : List Char} (hs : Spaces spaces)
    (h : ∀ c ∈ rest.head?, isSpace c = false) : skipSpace (spaces ++ rest) = rest := by
  rw [skipSpace, List.dropWhile_append_of_pos fun c hc => isSpace_iff.2 (hs c hc)]
  cases rest with
  | nil => rfl
  | cons c rest => rw [List.dropWhile_cons_of_neg (by simp [h c rfl])]

theorem exists_skipSpace_append (text : List Char) :
    ∃ spaces, Spaces spaces ∧ text = spaces ++ skipSpace text := by
  refine ⟨text.takeWhile isSpace, fun c hc => ?_, List.takeWhile_append_dropWhile.symm⟩
  exact isSpace_iff.1 (List.mem_takeWhile_imp hc)

theorem skipSpace_eq_nil_iff : skipSpace text = [] ↔ Spaces text := by
  simp [skipSpace, List.dropWhile_eq_nil_iff, isSpace_iff, Spaces]

theorem expect?_eq_some_iff {mark : Char} (hm : isSpace mark = false) :
    expect? mark text = some rest ↔ ∃ spaces, Spaces spaces ∧ text = spaces ++ mark :: rest := by
  constructor
  · intro h
    obtain ⟨spaces, hs, ht⟩ := exists_skipSpace_append text
    rw [expect?] at h
    split at h
    · next d after hd =>
      split at h
      · next he =>
        rw [hd, he, Option.some.inj h] at ht
        exact ⟨spaces, hs, ht⟩
      · cases h
    · cases h
  · rintro ⟨spaces, hs, rfl⟩
    rw [expect?, skipSpace_append hs (by simpa using hm)]
    simp

theorem expect?_append_of_ne {mark other : Char} {spaces : List Char} (hs : Spaces spaces)
    (h : isSpace other = false ∧ other ≠ mark) (rest : List Char) :
    expect? mark (spaces ++ other :: rest) = none := by
  rw [expect?, skipSpace_append hs (by simpa using h.1)]
  simp [h.2]

theorem string?_eq_some_iff {content : String} : string? text = some (content, rest) ↔
    ∃ spaces quoted, Spaces spaces ∧ Quoted quoted content ∧ text = spaces ++ quoted ++ rest := by
  constructor
  · intro h
    obtain ⟨spaces, hs, ht⟩ := exists_skipSpace_append text
    rw [string?] at h
    split at h
    · next after ha =>
      obtain ⟨⟨inner, last⟩, hc, he⟩ := Option.map_eq_some_iff.1 h
      obtain ⟨rfl, rfl⟩ := Prod.mk.inj he
      obtain ⟨written, hw, rfl⟩ := content?_eq_some_iff.1 hc
      rw [ha] at ht
      exact ⟨spaces, _, hs, .quote hw, by simpa using ht⟩
    · cases h
  · rintro ⟨spaces, quoted, hs, ⟨hw⟩, rfl⟩
    rename_i written content
    have hskip : skipSpace (spaces ++ ('"' :: (written ++ '"' :: rest))) = _ :=
      skipSpace_append hs (by simp [isSpace])
    simp [string?, hskip, content?_eq_some_iff.2 ⟨written, hw, rfl⟩]

theorem field?_eq_some_iff {field : String × String} : field? text = some (field, rest) ↔
    ∃ spaces written, Spaces spaces ∧ Field written field ∧ text = spaces ++ written ++ rest := by
  simp only [field?, Option.bind_eq_bind, Option.bind_eq_some_iff, Option.pure_def]
  constructor
  · rintro ⟨⟨key, behindKey⟩, hk, behindColon, hc, ⟨value, last⟩, hv, he⟩
    obtain ⟨rfl, rfl⟩ := Prod.mk.inj (Option.some.inj he)
    obtain ⟨front, written, hf, hw, rfl⟩ := string?_eq_some_iff.1 hk
    obtain ⟨before, hb, rfl⟩ := (expect?_eq_some_iff (by decide)).1 hc
    obtain ⟨after, written', ha, hw', rfl⟩ := string?_eq_some_iff.1 hv
    exact ⟨front, _, hf, @Field.pair _ _ _ _ (key, value) hw hb ha hw', by simp⟩
  · rintro ⟨front, written, hf, ⟨hk, hb, ha, hv⟩, rfl⟩
    rename_i key value before after
    refine ⟨(field.1, before ++ ':' :: (after ++ value ++ rest)),
      string?_eq_some_iff.2 ⟨front, key, hf, hk, by simp⟩, after ++ value ++ rest,
      (expect?_eq_some_iff (by decide)).2 ⟨before, hb, rfl⟩, (field.2, rest),
      string?_eq_some_iff.2 ⟨after, value, ha, hv, rfl⟩, rfl⟩

theorem Quoted.exists_eq_cons {written : List Char} {content : String} (h : Quoted written content) :
    ∃ tail, written = '"' :: tail := by
  cases h with
  | quote => exact ⟨_, rfl⟩

theorem Fields.exists_eq_cons {written : List Char} (h : Fields written tags) :
    ∃ tail, written = '"' :: tail := by
  cases h with
  | last hf =>
    cases hf with
    | pair hkey =>
      obtain ⟨tail, rfl⟩ := hkey.exists_eq_cons
      exact ⟨_, rfl⟩
  | more hf =>
    cases hf with
    | pair hkey =>
      obtain ⟨tail, rfl⟩ := hkey.exists_eq_cons
      exact ⟨_, rfl⟩

theorem exists_fields_of_fields? (h : fields? text = some (tags, rest)) :
    ∃ before written after, Spaces before ∧ Fields written tags ∧ Spaces after ∧
      text = before ++ written ++ after ++ '}' :: rest := by
  fun_induction fields? text generalizing tags with
  | case1 => cases h
  | case2 text field behind hf next hc _ ih =>
    obtain ⟨⟨later, last⟩, hm, he⟩ := Option.map_eq_some_iff.1 h
    obtain ⟨rfl, rfl⟩ := Prod.mk.inj he
    obtain ⟨front, written, hs, hw, rfl⟩ := field?_eq_some_iff.1 hf
    obtain ⟨before, hb, rfl⟩ := (expect?_eq_some_iff (by decide)).1 hc
    obtain ⟨after, written', back, ha, hw', hk, rfl⟩ := ih hm
    exact ⟨front, _, back, hs, .more hw hb ha hw', hk, by simp⟩
  | case3 text field behind hf hc =>
    obtain ⟨last, hl, he⟩ := Option.map_eq_some_iff.1 h
    obtain ⟨rfl, rfl⟩ := Prod.mk.inj he
    obtain ⟨front, written, hs, hw, rfl⟩ := field?_eq_some_iff.1 hf
    obtain ⟨back, hk, rfl⟩ := (expect?_eq_some_iff (by decide)).1 hl
    exact ⟨front, written, back, hs, .last hw, hk, by simp⟩

theorem fields?_append {before written after : List Char} (hb : Spaces before)
    (h : Fields written tags) (ha : Spaces after) (rest : List Char) :
    fields? (before ++ written ++ after ++ '}' :: rest) = some (tags, rest) := by
  induction h generalizing before with
  | @last written field hw =>
    have hf : field? (before ++ written ++ after ++ '}' :: rest) = some (field, after ++ '}' :: rest) :=
      field?_eq_some_iff.2 ⟨before, written, hb, hw, by simp⟩
    have hc : expect? ',' (after ++ '}' :: rest) = none :=
      expect?_append_of_ne ha (by decide) rest
    have hl : expect? '}' (after ++ '}' :: rest) = some rest :=
      (expect?_eq_some_iff (by decide)).2 ⟨after, ha, rfl⟩
    rw [fields?]
    split
    · next hn => cases hf.symm.trans hn
    · next other behind he =>
      cases hf.symm.trans he
      split
      · next hn => cases hc.symm.trans hn
      · rw [hl, Option.map_some]
  | @more written front back inner field fields hw hfront hback hrest ih =>
    have hf : field? (before ++ (written ++ front ++ ',' :: back ++ inner) ++ after ++ '}' :: rest) =
        some (field, front ++ ',' :: (back ++ inner ++ after ++ '}' :: rest)) :=
      field?_eq_some_iff.2 ⟨before, written, hb, hw, by simp⟩
    have hc : expect? ',' (front ++ ',' :: (back ++ inner ++ after ++ '}' :: rest)) =
        some (back ++ inner ++ after ++ '}' :: rest) :=
      (expect?_eq_some_iff (by decide)).2 ⟨front, hfront, rfl⟩
    rw [fields?]
    split
    · next hn => cases hf.symm.trans hn
    · next other behind he =>
      cases hf.symm.trans he
      split
      · next next hn =>
        cases hc.symm.trans hn
        rw [ih hback, Option.map_some]
      · next hn => cases hc.symm.trans hn

theorem object_of_read? (h : read? text = some tags) : Object text tags := by
  obtain ⟨⟨read, rest⟩, ho, he⟩ := Option.bind_eq_some_iff.1 h
  obtain ⟨hback, rfl⟩ : Spaces rest ∧ read = tags := by
    simpa [← skipSpace_eq_nil_iff] using he
  obtain ⟨inner, hi, hm⟩ := Option.bind_eq_some_iff.1 ho
  obtain ⟨front, hfront, rfl⟩ := (expect?_eq_some_iff (by decide)).1 hi
  split at hm
  · next last hl =>
    obtain ⟨rfl, rfl⟩ := Prod.mk.inj (Option.some.inj hm)
    obtain ⟨spaces, hs, rfl⟩ := (expect?_eq_some_iff (by decide)).1 hl
    simpa using Object.empty hfront hs hback
  · obtain ⟨before, written, after, hb, hw, ha, rfl⟩ := exists_fields_of_fields? hm
    simpa using Object.fields hfront hb hw ha hback

theorem read?_of_object? (h : object? text = some (tags, rest)) (hs : Spaces rest) :
    read? text = some tags := by
  rw [read?, h]
  simp [skipSpace_eq_nil_iff.2 hs]

/-- The reader takes the objects whose values are strings, and nothing else. -/
theorem read?_eq_some_iff : read? text = some tags ↔ Object text tags := by
  refine ⟨object_of_read?, fun h => ?_⟩
  cases h with
  | @empty front inner back hfront hinner hback =>
    have hopen : expect? '{' (front ++ '{' :: inner ++ '}' :: back) = some (inner ++ '}' :: back) :=
      (expect?_eq_some_iff (by decide)).2 ⟨front, hfront, by simp⟩
    have hclose : expect? '}' (inner ++ '}' :: back) = some back :=
      (expect?_eq_some_iff (by decide)).2 ⟨inner, hinner, rfl⟩
    refine read?_of_object? ?_ hback
    simp only [object?, hopen, hclose, Option.bind_eq_bind, Option.bind_some, Option.pure_def]
  | @fields front before written after back _ hfront hbefore hfields hafter hback =>
    have hopen : expect? '{' (front ++ '{' :: before ++ written ++ after ++ '}' :: back) =
        some (before ++ written ++ after ++ '}' :: back) :=
      (expect?_eq_some_iff (by decide)).2 ⟨front, hfront, by simp⟩
    have hclose : expect? '}' (before ++ written ++ after ++ '}' :: back) = none := by
      obtain ⟨tail, rfl⟩ := hfields.exists_eq_cons
      simpa using @expect?_append_of_ne '}' '"' before hbefore (by decide)
        (tail ++ after ++ '}' :: back)
    refine read?_of_object? ?_ hback
    simp only [object?, hopen, hclose, Option.bind_eq_bind, Option.bind_some]
    exact fields?_append hbefore hfields hafter back

theorem value?_eq_some_iff : tags.value? key = some value ↔
    ∃ front back, tags = front ++ (key, value) :: back ∧ ∀ field ∈ back, field.1 ≠ key := by
  rw [value?, List.lookup_eq_some_iff]
  constructor
  · rintro ⟨later, earlier, he, hl⟩
    refine ⟨earlier.reverse, later.reverse, ?_, fun field hf => ?_⟩
    · rw [List.reverse_eq_iff.1 he]
      simp
    · exact (bne_iff_ne.1 (hl field (List.mem_reverse.1 hf))).symm
  · rintro ⟨front, back, rfl, hb⟩
    refine ⟨back.reverse, front.reverse, by simp, fun field hf => ?_⟩
    exact bne_iff_ne.2 (hb field (List.mem_reverse.1 hf)).symm

theorem value?_eq_none_iff : tags.value? key = none ↔ ∀ field ∈ tags, field.1 ≠ key := by
  simp only [value?, List.lookup_eq_none_iff, List.mem_reverse, bne_iff_ne, ne_comm]

theorem under_iff : tags.Under key value ↔ (tags.value? key).getD "" = value := by
  constructor
  · intro h
    cases h with
    | last h hback => rw [value?_eq_some_iff.2 ⟨_, _, h, hback⟩, Option.getD_some]
    | absent h => rw [value?_eq_none_iff.2 h, Option.getD_none]
  · rintro rfl
    cases hv : tags.value? key with
    | none => exact .absent (value?_eq_none_iff.1 hv)
    | some value =>
      obtain ⟨front, back, h, hback⟩ := value?_eq_some_iff.1 hv
      exact .last h hback

end ConditionalTags.Tags
