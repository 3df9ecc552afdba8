import ConditionalTags.Proofs.Division
import ConditionalTags.Proofs.Spans

/-! # The pieces of a condition text

The pieces between the cuts of a condition text that are not blank are the leaves of the condition, each
of them once. They come from left to right, but a piece in front of a bracket pair has its place where
the pair closes.
-/
namespace ConditionalTags

namespace Condition
open Text

variable {text : List Char} {i p : Nat} {c : Char} {condition : Condition}

namespace Reading

def outerLeaves : List (Level × Nat) → List String
  | [] => []
  | (around, _) :: enclosing => outerLeaves enclosing ++ around.members.flatMap leaves

/-- The span ends at a cut in front of position `i`, but not at a bracket that is still open. -/
def Past (text : List Char) (i : Nat) (span : Span) : Prop :=
  span.stop < i ∧ CutAt text span.stop ∧ span.stop ∉ openAt text i

variable {start position n : Nat} {spans : List Span} {reading next : Reading} {level : Level}
  {span : Span} {outer : List Nat}

theorem past_succ_of_uncut (hn : ¬CutAt text i) (hopen : openAt text (i + 1) = openAt text i) :
    Past text i span ↔ Past text (i + 1) span := by
  have hne : CutAt text span.stop → span.stop ≠ i := fun hcut he => hn (he ▸ hcut)
  simp only [Past, hopen]
  constructor
  · rintro ⟨hi, hr⟩
    exact ⟨Nat.lt_succ_of_lt hi, hr⟩
  · rintro ⟨hi, hcut, hr⟩
    exact ⟨Nat.lt_of_le_of_ne (Nat.le_of_lt_succ hi) (hne hcut), hcut, hr⟩

theorem past_succ_of_opening (hc : text[i]? = some '(') :
    Past text i span ↔ Past text (i + 1) span := by
  simp only [Past, openAt_succ_of_opening hc, List.mem_cons, not_or]
  constructor
  · rintro ⟨hi, hcut, hr⟩
    exact ⟨Nat.lt_succ_of_lt hi, hcut, Nat.ne_of_lt hi, hr⟩
  · rintro ⟨hi, hcut, hne, hr⟩
    exact ⟨Nat.lt_of_le_of_ne (Nat.le_of_lt_succ hi) hne, hcut, hr⟩

theorem past_add_of_separator (hn : 0 < n) (hcut : ∀ k, i ≤ k → k < i + n → CutAt text k)
    (hopen : openAt text (i + n) = openAt text i) (hc : text[i]? ≠ some '(')
    (hu : span.Uncut text) (hf : span.Filled text) :
    Past text i span ∨ span.stop = i ↔ Past text (i + n) span := by
  have hlt := hf.lt
  have hself : i ∉ openAt text i := fun hm => hc (getElem?_of_mem_openAt hm).2
  simp only [Past, hopen]
  constructor
  · rintro (⟨hi, hr⟩ | rfl)
    · exact ⟨Nat.lt_add_right n hi, hr⟩
    · exact ⟨by omega, hcut _ (Nat.le_refl _) (by omega), hself⟩
  · rintro ⟨hi, hr⟩
    rcases Nat.lt_trichotomy span.stop i with hlt | heq | hgt
    · exact .inl ⟨hlt, hr⟩
    · exact .inr heq
    · exact absurd (hcut (span.stop - 1) (by omega) (by omega))
        (hu.inside _ (by omega) (by omega))

theorem past_succ_of_closing (hc : text[i]? = some ')') (ho : openAt text i = p :: outer) :
    (Past text i span ∨ span.stop = i) ∨ span.stop = p ↔ Past text (i + 1) span := by
  obtain ⟨hpi, hbracket⟩ := innermost_bracket ho
  have hopen : openAt text (i + 1) = outer := by simp [openAt_succ_of_closing hc, ho]
  have hi : i ∉ outer := fun hm => Nat.lt_asymm hpi (lt_of_mem_outer ho hm)
  simp only [Past, hopen, ho, List.mem_cons, not_or]
  constructor
  · rintro ((⟨hlt, hr, -, hm⟩ | rfl) | rfl)
    · exact ⟨Nat.lt_succ_of_lt hlt, hr, hm⟩
    · exact ⟨Nat.lt_succ_self _, cutAt_of_isMark hc rfl, hi⟩
    · exact ⟨Nat.lt_succ_of_lt hpi, cutAt_of_isMark hbracket rfl, not_mem_outer ho⟩
  · rintro ⟨hlt, hr, hm⟩
    by_cases hsp : span.stop = p
    · exact .inr hsp
    · rcases Nat.lt_succ_iff_lt_or_eq.1 hlt with hlt | heq
      · exact .inl (.inl ⟨hlt, hr, hsp, hm⟩)
      · exact .inl (.inr heq)

/-- In front of position `i`, `spans` have become leaves, and the text from `start` on is pending. In
each level around, the text in front of its opened bracket still is. -/
structure Pieced (text : List Char) (i start : Nat) (spans : List Span) (reading : Reading) :
    Prop where
  uncut : Span.Uncut text ⟨start, i⟩
  pending : reading.level.pending.reverse = Span.chars text ⟨start, i⟩
  around : List.Forall₂ (fun outside p => outside.1.Pends text p) reading.enclosing (openAt text i)
  listed : Listed text (Past text i) start spans
  leaves_eq : outerLeaves reading.enclosing ++ reading.level.members.flatMap leaves =
    spans.map (Span.trimmed text)

theorem pieced_zero (text : List Char) : Pieced text 0 0 [] {} where
  uncut := ⟨Nat.le_refl 0, fun _ _ hi => absurd hi (Nat.not_lt_zero _), .inl rfl⟩
  pending := rfl
  around := .nil
  listed :=
    { mem_iff := fun span => by simp [Past]
      sorted := .nil
      place_lt := nofun }
  leaves_eq := rfl

theorem Pieced.push (h : Pieced text i start spans reading) (hc : text[i]? = some c)
    (hm : isMark c = false) (hn : ¬CutAt text i) :
    Pieced text (i + 1) start spans { reading with level := reading.level.push c } := by
  obtain ⟨ho, hcl, -⟩ := isMark_eq_false_iff.1 hm
  have hopen := openAt_succ_of_ne hc ho hcl
  refine ⟨h.uncut.succ hn, ?_, hopen ▸ h.around, ?_, h.leaves_eq⟩
  · simp [Level.push, h.pending, Span.chars_succ h.uncut.le hc]
  · exact h.listed.imp (Nat.le_refl _) fun _ _ _ => past_succ_of_uncut hn hopen

theorem Pieced.opening (h : Pieced text i start spans reading) (hc : text[i]? = some '(') :
    Pieced text (i + 1) (i + 1) spans ⟨{}, (reading.level, position) :: reading.enclosing⟩ := by
  have hopen := openAt_succ_of_opening hc
  refine ⟨Span.uncut_of_cutAt (cutAt_of_isMark hc rfl), ?_, ?_, ?_, ?_⟩
  · simp [Span.chars_self]
  · rw [hopen]
    exact .cons ⟨start, h.uncut, h.pending⟩ h.around
  · exact h.listed.imp (Nat.le_succ_of_le h.uncut.le) fun _ _ _ => past_succ_of_opening hc
  · simpa [outerLeaves] using h.leaves_eq

theorem Pieced.settle (h : Pieced text i start spans reading) (hc : text[i]? ≠ some '(') :
    Listed text (fun span => Past text i span ∨ span.stop = i) i
        (spans ++ Span.kept text ⟨start, i⟩) ∧
      outerLeaves reading.enclosing ++ reading.level.settle.members.flatMap leaves =
        (spans ++ Span.kept text ⟨start, i⟩).map (Span.trimmed text) := by
  have hplace : Span.place text ⟨start, i⟩ = start := if_neg hc
  constructor
  · exact h.listed.append h.uncut (Nat.le_of_eq hplace.symm) h.uncut.le
      fun hf => Nat.lt_of_le_of_lt (Nat.le_of_eq hplace) hf.lt
  · rw [Level.settle_leaves, ← List.append_assoc, h.leaves_eq, h.pending, flatMap_leaf?,
      List.map_append]

theorem Pieced.connect {connective : Connective} (h : Pieced text i start spans reading)
    (hn : 0 < n) (hcut : ∀ k, i ≤ k → k < i + n → CutAt text k)
    (hopen : openAt text (i + n) = openAt text i) (hc : text[i]? ≠ some '(')
    (hl : reading.level.connect connective position = .ok level) :
    Pieced text (i + n) (i + n) (spans ++ Span.kept text ⟨start, i⟩) { reading with level } := by
  obtain ⟨hlisted, hleaves⟩ := h.settle hc
  obtain ⟨-, rfl⟩ := Level.connect_eq_ok_iff.1 hl
  obtain ⟨m, rfl⟩ : ∃ m, n = m + 1 := ⟨n - 1, by omega⟩
  refine ⟨Span.uncut_of_cutAt (hcut (i + m) (by omega) (by omega)), ?_, hopen ▸ h.around, ?_, hleaves⟩
  · simp [Span.chars_self]
  · exact hlisted.imp (Nat.le_add_right i (m + 1)) fun _ => past_add_of_separator hn hcut hopen hc

/-- Where a pair closes, its own last text becomes a leaf, and then the text in front of the pair. -/
theorem Pieced.closing {around : Level} {opened : Nat} {enclosing : List (Level × Nat)}
    {inner : Condition} (h : Pieced text i start spans reading) (hc : text[i]? = some ')')
    (he : reading.enclosing = (around, opened) :: enclosing)
    (hi : reading.level.close position = .ok inner) :
    ∃ more, Pieced text (i + 1) (i + 1) more ⟨around.enter inner, enclosing⟩ := by
  obtain ⟨hlisted, hleaves⟩ := h.settle (by simp [hc])
  have haround := h.around
  rw [he] at haround
  obtain ⟨p, outer, ⟨front, hu, hp⟩, hf, ho⟩ := List.forall₂_cons_left_iff.1 haround
  have hopen : openAt text (i + 1) = outer := by rw [openAt_succ_of_closing hc, ho]; rfl
  have hbracket := (innermost_bracket ho).2
  have hplace : Span.place text ⟨front, p⟩ = i :=
    (if_pos hbracket).trans (closingAt_eq hc (by rw [ho]; rfl))
  have hmore := hlisted.append hu (Nat.le_of_eq hplace.symm) (Nat.le_succ i)
    fun _ => hplace ▸ Nat.lt_succ_self i
  refine ⟨spans ++ Span.kept text ⟨start, i⟩ ++ Span.kept text ⟨front, p⟩,
    Span.uncut_of_cutAt (cutAt_of_isMark hc rfl), ?_, hopen ▸ hf, ?_, ?_⟩
  · simp [Span.chars_self]
  · exact hmore.imp (Nat.le_refl _) fun _ _ _ => past_succ_of_closing hc ho
  · rw [he, outerLeaves] at hleaves
    simp only at hp
    rw [Level.enter_leaves, Level.leaves_of_close hi, hp, flatMap_leaf?, List.map_append, ← hleaves]
    simp

theorem Scanned.not_cutAt (h : Scanned text position i reading) (hc : text[i]? = some c)
    (hm : isMark c = false) (hk : ¬KeywordAt text i) : ¬CutAt text i := by
  rintro (⟨x, hx, hmx⟩ | ⟨k, hkey, hki, hik⟩)
  · cases hc.symm.trans hx
    exact Bool.noConfusion (hm.symm.trans hmx)
  · rcases Nat.lt_or_eq_of_le hki with hlt | rfl
    · have hw := h.whole k hlt hkey
      omega
    · exact hk hkey

theorem Pieced.keyword (h : Pieced text i start spans reading) (hk : KeywordAt text i)
    (hl : reading.level.connect .and position = .ok level) :
    Pieced text (i + 3) (i + 3) (spans ++ Span.kept text ⟨start, i⟩) { reading with level } := by
  exact h.connect (by decide) (fun k hi hlt => .inr ⟨i, hk, hi, hlt⟩)
    (hk.openAt_eq (Nat.le_add_right i 3) (Nat.le_refl _))
    (hk.getElem?_ne (Nat.le_refl i) (by omega)).1 hl

theorem Pieced.onToken (h : Pieced text i start spans reading) (hc : text[i]? = some c)
    (hn : isMark c = false → ¬CutAt text i)
    (ht : reading.onToken position (.ofChar c) = .ok (.more next)) :
    ∃ start spans, Pieced text (i + 1) start spans next := by
  unfold Token.ofChar at ht
  split at ht
  · obtain ⟨-, hp⟩ := opening_cases ht
    cases hp
    exact ⟨_, _, h.opening hc⟩
  · obtain ⟨around, opened, enclosing, inner, he, hi, ⟨-, hp⟩ | ⟨-, _, -, hp⟩⟩ := closing_cases ht
    · cases hp
      obtain ⟨more, hm⟩ := h.closing hc he hi
      exact ⟨_, _, hm⟩
    · cases hp
  · obtain ⟨-, level, hl, hp⟩ | ⟨-, _, -, hp⟩ := semicolon_cases ht
    · cases hp
      have hcut : ∀ k, i ≤ k → k < i + 1 → CutAt text k := fun k hi hlt =>
        Nat.le_antisymm hi (Nat.le_of_lt_succ hlt) ▸ cutAt_of_isMark hc rfl
      exact ⟨_, _, h.connect Nat.one_pos hcut (openAt_succ_of_ne hc (by decide) (by decide))
        (by simp [hc]) hl⟩
    · cases hp
  · next ho hcl hs =>
    cases ht
    have hm := isMark_eq_false_iff.2 ⟨ho, hcl, hs⟩
    exact ⟨_, _, h.push hc hm (hn hm)⟩

theorem Reached.pieced (h : Reached text position i reading) :
    ∃ start spans, Pieced text i start spans reading := by
  induction h with
  | start => exact ⟨0, [], pieced_zero text⟩
  | keyword _ hk hl ih =>
    obtain ⟨start, spans, hp⟩ := ih
    exact ⟨_, _, hp.keyword hk hl⟩
  | char hr hc hk ht ih =>
    obtain ⟨start, spans, hp⟩ := ih
    exact hp.onToken hc (fun hm => hr.scanned.not_cutAt hc hm hk) ht

end Reading

/-- The spans are the pieces of the text in front of `stop` that are not blank, in the order of their
places. -/
structure ArePieces (text : List Char) (stop : Nat) (spans : List Span) : Prop where
  mem_iff : ∀ span, span ∈ spans ↔ span.IsPiece text stop ∧ span.Filled text
  sorted : spans.Pairwise fun earlier later => earlier.place text < later.place text

variable {spans : List Span} {bound position : Nat} {P : Span → Prop} {reading : Reading}

theorem Listed.arePieces (h : Listed text P bound spans)
    (hp : ∀ span, span.Uncut text → span.Filled text →
      (P span ↔ span.stop = i ∨ span.stop < i ∧ CutAt text span.stop)) :
    ArePieces text i spans where
  mem_iff span := by
    rw [h.mem_iff, Span.IsPiece]
    constructor
    · rintro ⟨hu, hP, hf⟩
      exact ⟨⟨hu, (hp span hu hf).1 hP⟩, hf⟩
    · rintro ⟨⟨hu, hP⟩, hf⟩
      exact ⟨hu, (hp span hu hf).2 hP, hf⟩
  sorted := h.sorted

namespace Reading

variable {start : Nat}

theorem Pieced.arePieces_of_outermost (h : Pieced text i start spans reading)
    (hn : reading.enclosing = []) (hc : text[i]? ≠ some '(')
    (hl : reading.level.close position = .ok condition) :
    ∃ spans, ArePieces text i spans ∧ condition.leaves = spans.map (Span.trimmed text) := by
  obtain ⟨hlisted, hleaves⟩ := h.settle hc
  have haround := h.around
  rw [hn, List.forall₂_nil_left_iff] at haround
  rw [hn] at hleaves
  refine ⟨_, hlisted.arePieces fun span _ _ => ?_, (Level.leaves_of_close hl).trans hleaves⟩
  simp [Past, haround, or_comm]

theorem Pieced.arePieces_of_closing {around : Level} {opened : Nat} {inner : Condition}
    (h : Pieced text i start spans reading) (hc : text[i]? = some ')')
    (he : reading.enclosing = [(around, opened)]) (hi : reading.level.close position = .ok inner)
    (hl : (around.enter inner).close position = .ok condition) :
    ∃ spans, ArePieces text i spans ∧ condition.leaves = spans.map (Span.trimmed text) := by
  obtain ⟨spans, hp⟩ := h.closing hc he hi
  have haround := hp.around
  rw [List.forall₂_nil_left_iff] at haround
  have hcut : CutAt text i := cutAt_of_isMark hc rfl
  refine ⟨spans, hp.listed.arePieces fun span _ _ => ?_, ?_⟩
  · simp only [Past, haround, List.not_mem_nil, not_false_eq_true, and_true,
      Nat.lt_succ_iff_lt_or_eq]
    constructor
    · rintro ⟨hi | hi, hr⟩
      · exact .inr ⟨hi, hr⟩
      · exact .inl hi
    · rintro (rfl | ⟨hi, hr⟩)
      · exact ⟨.inr rfl, hcut⟩
      · exact ⟨.inl hi, hr⟩
  · rw [Level.leaves_of_close hl, ← hp.leaves_eq, Level.settle_leaves]
    simp [outerLeaves]

end Reading

/-- The leaves of a condition are the pieces of its text that are not blank, each of them once. -/
theorem exists_arePieces_of_read {stop : Stop} (h : read position text = .ok stop) :
    ∃ spans, ArePieces text (stopIndex text) spans ∧
      stop.condition.leaves = spans.map (Span.trimmed text) := by
  obtain ⟨reading, hr, hc⟩ := Reading.exists_completes h
  obtain ⟨start, spans, hp⟩ := hr.pieced
  rcases hc with ⟨he, hf⟩ | ⟨c, hc, ht⟩
  · unfold Reading.finish at hf
    split at hf
    · next hn => exact hp.arePieces_of_outermost hn (by simp [he]) hf
    · cases hf
  · unfold Token.ofChar at ht
    split at ht
    · obtain ⟨-, hn⟩ := Reading.opening_cases ht
      cases hn
    · obtain ⟨around, opened, enclosing, inner, he, hi, ⟨-, hn⟩ | ⟨rfl, condition, hl, hn⟩⟩ :=
        Reading.closing_cases ht
      · cases hn
      · cases hn
        exact hp.arePieces_of_closing hc he hi hl
    · obtain ⟨-, level, -, hn⟩ | ⟨he, condition, hl, hn⟩ := Reading.semicolon_cases ht
      · cases hn
      · cases hn
        exact hp.arePieces_of_outermost he (by simp [hc]) hl
    · cases ht

end Condition

namespace Clause
open Text Condition

variable {text : List Char} {scan : Scan} {clauses : List Clause}

/-- A clause has the trimmed text of its segment for a value, and the pieces of its condition text
for leaves. -/
structure MadeOf (text : List Char) (clause : Clause) (segment : Segment) : Prop where
  value : clause.value = String.ofList (trim (segment.value text))
  condition : ∃ condition spans, clause.condition = some condition ∧
    ArePieces (text.drop segment.body) (stopIndex (text.drop segment.body)) spans ∧
    condition.leaves = spans.map (Span.trimmed (text.drop segment.body))

theorem Entry.ReadFrom.madeOf {entry : Entry} {segment : Segment}
    (h : entry.ReadFrom text segment) : entry.clause.MadeOf text segment where
  value := h.value
  condition := by
    obtain ⟨stop, hr, hc⟩ := h.condition
    obtain ⟨spans, hs, hl⟩ := exists_arePieces_of_read hr
    exact ⟨stop.condition, spans, hc, hs, hl⟩

theorem Scan.Follows.blank_remainder (h : scan.Follows text (divide 0 text))
    (hv : scan.verdict = .ok clauses) : ∀ start, (divide 0 text).remainder = some start →
      ∀ c ∈ (cut '@' (text.drop start)).1, isBlank c = true := by
  intro start hs
  rcases ending_of_verdict_eq_ok hv with he | he
  · rw [Scan.Follows, he] at h
    cases hs.symm.trans h.2
  · rw [Scan.Follows, he] at h
    obtain ⟨-, other, ho, hm⟩ := h
    obtain rfl : other = start := Option.some.inj (ho.symm.trans hs)
    have hnone := Option.map_eq_none_iff.1 hm.symm
    simpa [List.findIdx?_eq_none_iff] using hnone

/-- The clauses of an accepted value are made of its segments, one of each in order, and of their
pieces. What is left behind them is blank up to the next `@`. -/
theorem madeOf_of_readAll {value : String} (h : readAll (some value) = .ok clauses) :
    List.Forall₂ (MadeOf value.toList) clauses (divide 0 value.toList).segments ∧
      ∀ start, (divide 0 value.toList).remainder = some start →
        ∀ c ∈ (cut '@' (value.toList.drop start)).1, isBlank c = true := by
  by_cases hn : value = ""
  · subst hn
    cases h
    simp [divide_of_unsigned (rfl : cut '@' [] = ([], none)), cut]
  · rw [readAll_eq_verdict hn] at h
    have hf := scan_follows value.toList
    have hfail : ∀ fault, (scan 0 value.toList).ending ≠ .failed fault := by
      rcases ending_of_verdict_eq_ok h with he | he <;> simp [he]
    refine ⟨?_, hf.blank_remainder h⟩
    obtain ⟨rfl, -⟩ := of_verdict_eq_ok h
    rw [List.forall₂_map_left_iff]
    exact (hf.segments hfail).imp fun _ _ he => he.madeOf

/-- Text in front of bracket pairs and between them, blank pieces, a keyword that is text, and a last
value without a condition. -/
theorem madeOf_of_readAll_juxtaposed :
    let value := "no @ x (a AND (b;; and) y )z;\tyes@ c and; @"
    let inner := join .and (leaf "a") (join .or (leaf "b") (leaf "and") []) [leaf "y"]
    let clauses : List Clause :=
      [⟨"no", some (join .and inner (leaf "x") [])⟩, ⟨"yes", some (leaf "c and")⟩]
    readAll (some value) = .ok clauses ∧
      List.Forall₂ (MadeOf value.toList) clauses (divide 0 value.toList).segments ∧
      ∀ start, (divide 0 value.toList).remainder = some start →
        ∀ c ∈ (cut '@' (value.toList.drop start)).1, isBlank c = true := by
  intro value inner clauses
  have h : readAll (some value) = .ok clauses := by decide +kernel
  exact ⟨h, madeOf_of_readAll h⟩

end Clause

end ConditionalTags
