import ConditionalTags.Proofs.Brackets
import ConditionalTags.Proofs.Layout

/-! # Spans of a condition text

A text is cut wherever a mark or a keyword stands, in whatever bracket pair that may be. A span between
two cuts next to each other has its place among the others, and the spans that are not blank can be
listed by their places.
-/
namespace ConditionalTags.Condition
open Text

/-- The characters from position `start` on that stand in front of position `stop`. -/
structure Span where
  start : Nat
  stop : Nat
  deriving DecidableEq, Repr

/-- A text is cut at position `i`: a mark stands there, or a letter of a keyword. -/
def CutAt (text : List Char) (i : Nat) : Prop :=
  (∃ c, text[i]? = some c ∧ isMark c = true) ∨ ∃ k, KeywordAt text k ∧ k ≤ i ∧ i < k + 3

/-- The position at which the pair closes that opens at `p`. -/
def closingAt (text : List Char) (p : Nat) : Nat :=
  (List.range text.length).findIdx fun i =>
    decide (text[i]? = some ')' ∧ (openAt text i).head? = some p)

namespace Span

def chars (text : List Char) (span : Span) : List Char :=
  (text.take span.stop).drop span.start

def trimmed (text : List Char) (span : Span) : String :=
  String.ofList (trim (span.chars text))

def Filled (text : List Char) (span : Span) : Prop :=
  ∃ c ∈ span.chars text, isBlank c = false

/-- Where the span comes among the others: in front of a bracket pair, where the pair closes. -/
def place (text : List Char) (span : Span) : Nat :=
  if text[span.stop]? = some '(' then closingAt text span.stop else span.start

/-- No cut is inside the span, and there is one right in front of it unless the text begins there. -/
structure Uncut (text : List Char) (span : Span) : Prop where
  le : span.start ≤ span.stop
  inside : ∀ i, span.start ≤ i → i < span.stop → ¬CutAt text i
  front : span.start = 0 ∨ CutAt text (span.start - 1)

/-- The span lies between two cuts next to each other, or the last cut and the end, of the text in
front of `stop`. -/
def IsPiece (text : List Char) (stop : Nat) (span : Span) : Prop :=
  span.Uncut text ∧ (span.stop = stop ∨ span.stop < stop ∧ CutAt text span.stop)

/-- The span itself, unless it is blank. -/
def kept (text : List Char) (span : Span) : List Span :=
  if trim (span.chars text) = [] then [] else [span]

variable {text : List Char} {span other : Span} {i : Nat}

theorem filled_iff : span.Filled text ↔ trim (span.chars text) ≠ [] := by
  simp [Filled, trim_eq_nil_iff]

theorem mem_kept : other ∈ span.kept text ↔ other = span ∧ span.Filled text := by
  rw [filled_iff, kept]
  split <;> simp_all

theorem Filled.lt (h : span.Filled text) : span.start < span.stop := by
  obtain ⟨c, hc, -⟩ := h
  have hl := List.length_pos_of_mem hc
  simp only [chars, List.length_drop, List.length_take] at hl
  omega

theorem Uncut.eq (h : span.Uncut text) (ho : other.Uncut text) (he : span.stop = other.stop) :
    span = other := by
  obtain ⟨a, b⟩ := span
  obtain ⟨a', b'⟩ := other
  have hle : ∀ {a a'}, Uncut text ⟨a, b⟩ → Uncut text ⟨a', b⟩ → a' ≤ a := by
    intro a a' h ho
    refine Nat.le_of_not_lt fun hlt => ?_
    have hb : a' ≤ b := ho.le
    rcases ho.front with hz | hc
    · exact Nat.not_lt_zero a (hz ▸ hlt)
    · exact h.inside (a' - 1) (show a ≤ a' - 1 by omega) (show a' - 1 < b by omega) hc
  cases he
  rw [Nat.le_antisymm (hle ho h) (hle h ho)]

theorem uncut_of_cutAt (h : CutAt text i) : Uncut text ⟨i + 1, i + 1⟩ where
  le := Nat.le_refl _
  inside _ hi hj := absurd (Nat.lt_of_le_of_lt hi hj) (Nat.lt_irrefl _)
  front := .inr h

theorem chars_self (text : List Char) (i : Nat) : chars text ⟨i, i⟩ = [] := by
  simp [chars]

theorem Uncut.succ {start : Nat} (h : Uncut text ⟨start, i⟩) (hc : ¬CutAt text i) :
    Uncut text ⟨start, i + 1⟩ where
  le := Nat.le_succ_of_le h.le
  inside j hj hi := by
    rcases Nat.lt_succ_iff_lt_or_eq.1 hi with hi | rfl
    · exact h.inside j hj hi
    · exact hc
  front := h.front

theorem chars_succ {start : Nat} {c : Char} (h : start ≤ i) (hc : text[i]? = some c) :
    chars text ⟨start, i + 1⟩ = chars text ⟨start, i⟩ ++ [c] := by
  have hl := lt_length_of_getElem? hc
  simp only [chars, List.take_add_one, hc, Option.toList_some]
  rw [List.drop_append_of_le_length (by simp; omega)]

end Span

/-- The filled spans with the property `P` are listed by their places, and these are in front of
position `bound`. -/
structure Listed (text : List Char) (P : Span → Prop) (bound : Nat) (spans : List Span) : Prop where
  mem_iff : ∀ span, span ∈ spans ↔ span.Uncut text ∧ P span ∧ span.Filled text
  sorted : spans.Pairwise fun earlier later => earlier.place text < later.place text
  place_lt : ∀ span ∈ spans, span.place text < bound

namespace Listed

variable {text : List Char} {P Q : Span → Prop} {bound upto : Nat} {spans : List Span} {span : Span}

theorem imp (h : Listed text P bound spans) (hb : bound ≤ upto)
    (hq : ∀ span, span.Uncut text → span.Filled text → (P span ↔ Q span)) :
    Listed text Q upto spans where
  mem_iff span := by
    rw [h.mem_iff]
    constructor
    · rintro ⟨hu, hp, hf⟩
      exact ⟨hu, (hq span hu hf).1 hp, hf⟩
    · rintro ⟨hu, hp, hf⟩
      exact ⟨hu, (hq span hu hf).2 hp, hf⟩
  sorted := h.sorted
  place_lt span hs := Nat.lt_of_lt_of_le (h.place_lt span hs) hb

theorem append (h : Listed text P bound spans) (hu : span.Uncut text)
    (hp : bound ≤ span.place text) (hb : bound ≤ upto)
    (hf : span.Filled text → span.place text < upto) :
    Listed text (fun other => P other ∨ other.stop = span.stop) upto (spans ++ span.kept text) where
  mem_iff other := by
    rw [List.mem_append, h.mem_iff, Span.mem_kept]
    constructor
    · rintro (⟨ho, hP, hfo⟩ | ⟨rfl, hfo⟩)
      · exact ⟨ho, .inl hP, hfo⟩
      · exact ⟨hu, .inr rfl, hfo⟩
    · rintro ⟨ho, hP | he, hfo⟩
      · exact .inl ⟨ho, hP, hfo⟩
      · obtain rfl := ho.eq hu he
        exact .inr ⟨rfl, hfo⟩
  sorted := by
    refine List.pairwise_append.2 ⟨h.sorted, ?_, ?_⟩
    · rw [Span.kept]
      split <;> simp
    · intro earlier he later hl
      obtain ⟨rfl, -⟩ := Span.mem_kept.1 hl
      exact Nat.lt_of_lt_of_le (h.place_lt earlier he) hp
  place_lt other ho := by
    rcases List.mem_append.1 ho with ho | ho
    · exact Nat.lt_of_lt_of_le (h.place_lt other ho) hb
    · obtain ⟨rfl, hfo⟩ := Span.mem_kept.1 ho
      exact hf hfo

end Listed

variable {text : List Char} {i p : Nat} {c : Char} {condition : Condition}

theorem cutAt_of_isMark (hc : text[i]? = some c) (hm : isMark c = true) : CutAt text i :=
  .inl ⟨c, hc, hm⟩

theorem closingAt_eq (hc : text[i]? = some ')') (ho : (openAt text i).head? = some p) :
    closingAt text p = i := by
  have hmem : p ∈ openAt text i := List.mem_of_mem_head? ho
  have hl := lt_length_of_getElem? hc
  have hfind : closingAt text p ≤ i := by
    refine Nat.le_of_not_lt fun hlt => ?_
    simpa [hc, ho] using List.not_of_lt_findIdx hlt
  have hj : closingAt text p < (List.range text.length).length := by
    rw [List.length_range]
    exact Nat.lt_of_le_of_lt hfind hl
  obtain ⟨hcj, hoj⟩ : text[closingAt text p]? = some ')' ∧
      (openAt text (closingAt text p)).head? = some p := by
    simpa [closingAt] using List.findIdx_getElem (w := hj)
  refine Nat.le_antisymm hfind (Nat.le_of_not_lt fun hlt => ?_)
  obtain ⟨outer, houter⟩ := List.head?_eq_some_iff.1 hoj
  have hp := (innermost_bracket houter).1
  exact not_mem_openAt (not_mem_openAt_succ hcj houter) (Nat.lt_succ_of_lt hp) hlt hmem

theorem flatMap_leaf? (text : List Char) (span : Span) :
    (Piece.leaf? (span.chars text)).toList.flatMap leaves =
      (span.kept text).map (Span.trimmed text) := by
  rw [Piece.leaf?, Span.kept]
  by_cases h : trim (span.chars text) = []
  · simp [h]
  · simp [h, leaves, Span.trimmed]

theorem leaves_of_group? {connective : Connective} {members : List Condition}
    (h : group? connective members = some condition) : condition.leaves = members.flatMap leaves := by
  rcases members with _ | ⟨first, _ | ⟨second, others⟩⟩
  · cases h
  · cases h
    simp
  · cases h
    rw [leaves_join, Condition.members]

namespace Level

variable {level : Level} {position : Nat}

theorem settle_leaves : level.settle.members.flatMap leaves =
    level.members.flatMap leaves ++ (Piece.leaf? level.pending.reverse).toList.flatMap leaves := by
  rw [settle_members, List.flatMap_append]

theorem enter_leaves {inner : Condition} : (level.enter inner).members.flatMap leaves =
    level.members.flatMap leaves ++ inner.leaves ++
      (Piece.leaf? level.pending.reverse).toList.flatMap leaves := by
  rw [enter, settle_leaves, List.flatMap_append, List.flatMap_singleton]

theorem leaves_of_close (h : level.close position = .ok condition) :
    condition.leaves = level.settle.members.flatMap leaves := by
  rw [close] at h
  split at h
  · next hg =>
    cases h
    exact leaves_of_group? hg
  · cases h

/-- The text since the last cut in front of position `p` is pending. -/
def Pends (text : List Char) (p : Nat) (level : Level) : Prop :=
  ∃ start, Span.Uncut text ⟨start, p⟩ ∧ level.pending.reverse = Span.chars text ⟨start, p⟩

end Level

end ConditionalTags.Condition
