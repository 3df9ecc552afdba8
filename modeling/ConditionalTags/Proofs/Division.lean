import ConditionalTags.Proofs.ClauseScan
import ConditionalTags.Proofs.Course
import Mathlib.Data.List.Forall2

/-! # How a text divides into clauses

Where the clauses of a text stand is seen from the text alone. A value runs up to the next `@`. The
condition begins behind it and the spaces that follow, and stops where its brackets say. The next
clause begins behind the semicolon that comes then. A scan goes through the text in just this way, as
long as it can read the conditions.
-/
namespace ConditionalTags.Clause
open Text Condition

/-- Where the value of a clause begins, where its `@` stands, and where its condition begins. -/
structure Segment where
  start : Nat
  sign : Nat
  body : Nat
  deriving DecidableEq, Repr

def Segment.value (segment : Segment) (text : List Char) : List Char :=
  (text.take segment.sign).drop segment.start

structure Division where
  segments : List Segment
  /-- Where a last value begins that has no condition. -/
  remainder : Option Nat
  deriving DecidableEq, Repr

theorem length_next_lt_of_cuts {text value after skipped next : List Char} {stop : Nat}
    (hv : cut '@' text = (value, some after))
    (hs : cut ';' ((after.dropWhile (· == ' ')).drop stop) = (skipped, some next)) :
    next.length < text.length := by
  have hbody := (List.dropWhile_suffix (· == ' ') : after.dropWhile (· == ' ') <:+ after).length_le
  have hrest := (List.drop_suffix stop (after.dropWhile (· == ' '))).length_le
  have htext := congrArg List.length (eq_of_cut_eq_some hv).1
  have hnext := congrArg List.length (eq_of_cut_eq_some hs).1
  simp only [List.length_append, List.length_cons] at htext hnext
  omega

/-- The division of `text`; `position` is that of its first character. -/
def divide (position : Nat) (text : List Char) : Division :=
  match hv : cut '@' text with
  | (_, none) => ⟨[], some position⟩
  | (value, some after) =>
    let body := after.dropWhile (· == ' ')
    if body.isEmpty then ⟨[], some position⟩
    else
      let opens := bodyAt position value after
      let segment : Segment := ⟨position, position + value.length, opens⟩
      match hs : cut ';' (body.drop (stopIndex body)) with
      | (_, none) => ⟨[segment], none⟩
      | (skipped, some next) =>
        have : next.length < text.length := length_next_lt_of_cuts hv hs
        let later := divide (opens + stopIndex body + skipped.length + 1) next
        { later with segments := segment :: later.segments }
termination_by text.length

example : divide 0 "no @ (a;b);; yes@c;d".toList = ⟨[⟨0, 3, 5⟩, ⟨11, 16, 17⟩], some 19⟩ := by
  decide +kernel

variable {text whole value after skipped next : List Char} {position : Nat} {stop : Stop}

theorem divide_of_unsigned (hv : cut '@' text = (value, none)) :
    divide position text = ⟨[], some position⟩ := by
  rw [divide]
  split
  · rfl
  · next h => cases hv.symm.trans h

theorem divide_of_signed (hv : cut '@' text = (value, some after)) :
    divide position text =
      if (after.dropWhile (· == ' ')).isEmpty then ⟨[], some position⟩
      else
        match cut ';' ((after.dropWhile (· == ' ')).drop
            (stopIndex (after.dropWhile (· == ' ')))) with
        | (_, none) => ⟨[⟨position, position + value.length, bodyAt position value after⟩], none⟩
        | (skipped, some next) =>
          let later := divide (bodyAt position value after +
            stopIndex (after.dropWhile (· == ' ')) + skipped.length + 1) next
          { later with segments :=
              ⟨position, position + value.length, bodyAt position value after⟩ ::
                later.segments } := by
  rw [divide]
  split
  · next h => cases hv.symm.trans h
  · next h =>
    cases hv.symm.trans h
    dsimp only
    split
    · rfl
    · split
      · next hs => rw [hs]
      · next hs => rw [hs]

theorem divide_of_blank (hv : cut '@' text = (value, some after))
    (hb : after.dropWhile (· == ' ') = []) : divide position text = ⟨[], some position⟩ := by
  rw [divide_of_signed hv, hb]
  rfl

theorem divide_of_last (hv : cut '@' text = (value, some after))
    (hb : after.dropWhile (· == ' ') ≠ [])
    (hs : cut ';' ((after.dropWhile (· == ' ')).drop
      (stopIndex (after.dropWhile (· == ' ')))) = (skipped, none)) :
    divide position text =
      ⟨[⟨position, position + value.length, bodyAt position value after⟩], none⟩ := by
  rw [divide_of_signed hv, if_neg (by simpa using hb), hs]

theorem divide_of_more (hv : cut '@' text = (value, some after))
    (hb : after.dropWhile (· == ' ') ≠ [])
    (hs : cut ';' ((after.dropWhile (· == ' ')).drop
      (stopIndex (after.dropWhile (· == ' ')))) = (skipped, some next)) :
    divide position text =
      let later := divide (bodyAt position value after +
        stopIndex (after.dropWhile (· == ' ')) + skipped.length + 1) next
      { later with segments :=
          ⟨position, position + value.length, bodyAt position value after⟩ :: later.segments } := by
  rw [divide_of_signed hv, if_neg (by simpa using hb), hs]

theorem exists_segments_eq_cons (hv : cut '@' text = (value, some after))
    (hb : after.dropWhile (· == ' ') ≠ []) (position : Nat) :
    ∃ later, (divide position text).segments =
      ⟨position, position + value.length, bodyAt position value after⟩ :: later := by
  cases hs : cut ';' ((after.dropWhile (· == ' ')).drop
      (stopIndex (after.dropWhile (· == ' ')))) with
  | mk skipped next =>
    cases next with
    | none => exact ⟨[], by rw [divide_of_last hv hb hs]⟩
    | some next => exact ⟨_, by rw [divide_of_more hv hb hs]⟩

/-! `whole` is the text that is divided, and `text` what is left of it from `position` on. -/

theorem value_eq (hw : whole.drop position = text) (hv : cut '@' text = (value, some after))
    (body : Nat) : Segment.value ⟨position, position + value.length, body⟩ whole = value := by
  have ht := (eq_of_cut_eq_some hv).1
  simp only [Segment.value, List.drop_take, hw, ht, Nat.add_sub_cancel_left, List.take_left]

theorem drop_bodyAt (hw : whole.drop position = text) (hv : cut '@' text = (value, some after)) :
    whole.drop (bodyAt position value after) = after.dropWhile (· == ' ') := by
  have ht := (eq_of_cut_eq_some hv).1
  have hsplit : after = after.takeWhile (· == ' ') ++ after.dropWhile (· == ' ') :=
    List.takeWhile_append_dropWhile.symm
  have hd : text.drop (value.length + 1) = after := by
    rw [ht, ← List.drop_drop, List.drop_left]
    rfl
  rw [bodyAt, Nat.add_assoc position, ← List.drop_drop, ← List.drop_drop, hw, hd]
  exact (congrArg (List.drop (after.takeWhile (· == ' ')).length) hsplit).trans List.drop_left

theorem drop_next (hw : whole.drop position = text) {stop : Nat}
    (hs : cut ';' (text.drop stop) = (skipped, some next)) :
    whole.drop (position + stop + skipped.length + 1) = next := by
  rw [← List.drop_drop, ← List.drop_drop, ← List.drop_drop, hw, (eq_of_cut_eq_some hs).1,
    List.drop_left]
  rfl

/-- A clause may begin at position `i`: where the text begins, or behind a semicolon. -/
def BeginsAt (text : List Char) (i : Nat) : Prop :=
  i = 0 ∨ text[i - 1]? = some ';'

/-- What stands at the positions of a segment. -/
structure Segment.LaidOut (text : List Char) (segment : Segment) : Prop where
  begins : BeginsAt text segment.start
  signed : text[segment.sign]? = some '@'
  unsigned : '@' ∉ segment.value text
  body_lt : segment.body < text.length

theorem beginsAt_next (hw : whole.drop position = text) {stop : Nat}
    (hs : cut ';' (text.drop stop) = (skipped, some next)) :
    BeginsAt whole (position + stop + skipped.length + 1) := by
  have hd : whole.drop (position + stop) = skipped ++ ';' :: next := by
    rw [← List.drop_drop, hw, (eq_of_cut_eq_some hs).1]
  refine .inr ?_
  rw [Nat.add_sub_cancel, ← List.getElem?_drop, hd]
  simp

theorem laidOut_segment (hw : whole.drop position = text) (hp : BeginsAt whole position)
    (hv : cut '@' text = (value, some after)) (hb : after.dropWhile (· == ' ') ≠ []) :
    Segment.LaidOut whole
      ⟨position, position + value.length, bodyAt position value after⟩ where
  begins := hp
  signed := by
    rw [← List.getElem?_drop, hw, (eq_of_cut_eq_some hv).1]
    simp
  unsigned := by
    rw [value_eq hw hv]
    exact (eq_of_cut_eq_some hv).2
  body_lt := by
    rw [← drop_bodyAt hw hv, ne_eq, List.drop_eq_nil_iff, Nat.not_le] at hb
    exact hb

theorem laidOut_divide (hw : whole.drop position = text) (hp : BeginsAt whole position) :
    (∀ segment ∈ (divide position text).segments, segment.LaidOut whole) ∧
      ∀ start, (divide position text).remainder = some start → BeginsAt whole start := by
  induction position, text using divide.induct with
  | case1 position text value hv =>
    rw [divide_of_unsigned hv]
    exact ⟨nofun, fun start hs => Option.some.inj hs ▸ hp⟩
  | case2 position text value after hv body hb =>
    rw [divide_of_blank hv (List.isEmpty_iff.1 hb)]
    exact ⟨nofun, fun start hs => Option.some.inj hs ▸ hp⟩
  | case3 position text value after hv body hb skipped hs =>
    have hb : body ≠ [] := fun he => hb (List.isEmpty_iff.2 he)
    rw [divide_of_last hv hb hs]
    exact ⟨List.forall_mem_singleton.2 (laidOut_segment hw hp hv hb), nofun⟩
  | case4 position text value after hv body hb opens skipped next hs hl ih =>
    have hb : body ≠ [] := fun he => hb (List.isEmpty_iff.2 he)
    have hd := drop_bodyAt hw hv
    rw [divide_of_more hv hb hs]
    obtain ⟨hsegments, hremainder⟩ := ih (drop_next hd hs) (beginsAt_next hd hs)
    exact ⟨List.forall_mem_cons.2 ⟨laidOut_segment hw hp hv hb, hsegments⟩, hremainder⟩

theorem laidOut_of_mem {segment : Segment} (h : segment ∈ (divide 0 text).segments) :
    segment.LaidOut text :=
  (laidOut_divide (List.drop_zero : text.drop 0 = text) (.inl rfl)).1 segment h

theorem beginsAt_remainder {start : Nat} (h : (divide 0 text).remainder = some start) :
    BeginsAt text start :=
  (laidOut_divide (List.drop_zero : text.drop 0 = text) (.inl rfl)).2 start h

/-- A clause has been read from a segment of the text. -/
structure Entry.ReadFrom (text : List Char) (entry : Entry) (segment : Segment) : Prop where
  sign : entry.sign = segment.sign
  value : entry.clause.value = String.ofList (trim (segment.value text))
  condition : ∃ stop, Condition.read segment.body (text.drop segment.body) = .ok stop ∧
    entry.clause.condition = some stop.condition

theorem Entry.ReadFrom.value_eq_empty_iff {entry : Entry} {segment : Segment}
    (h : entry.ReadFrom text segment) :
    entry.clause.value = "" ↔ ∀ c ∈ segment.value text, isBlank c = true := by
  rw [h.value, ← trim_eq_nil_iff, ← String.ofList_nil, String.ofList_inj]

/-- The scan has read the segments one after the other, up to one whose condition is at fault. -/
def Scan.Follows (text : List Char) (scan : Scan) (division : Division) : Prop :=
  match scan.ending with
  | .failed fault => ∃ before segment after, division.segments = before ++ segment :: after ∧
      List.Forall₂ (Entry.ReadFrom text) scan.entries before ∧
      Condition.read segment.body (text.drop segment.body) = .error fault
  | .settled => List.Forall₂ (Entry.ReadFrom text) scan.entries division.segments ∧
      division.remainder = none
  | .dangling mark => List.Forall₂ (Entry.ReadFrom text) scan.entries division.segments ∧
      ∃ start, division.remainder = some start ∧
        mark = firstMark start (cut '@' (text.drop start)).1

theorem readFrom_entryOf (hw : whole.drop position = text)
    (hv : cut '@' text = (value, some after))
    (hr : Condition.read (bodyAt position value after) (after.dropWhile (· == ' ')) = .ok stop) :
    (entryOf position value stop).ReadFrom whole
      ⟨position, position + value.length, bodyAt position value after⟩ where
  sign := rfl
  value := by rw [value_eq hw hv]; rfl
  condition := ⟨stop, by rw [drop_bodyAt hw hv, hr], rfl⟩

theorem Scan.Follows.cons {entry : Entry} {segment : Segment} {scan : Scan} {division : Division}
    (h : scan.Follows text division) (he : entry.ReadFrom text segment) :
    Scan.Follows text { scan with entries := entry :: scan.entries }
      { division with segments := segment :: division.segments } := by
  obtain ⟨entries, ending⟩ := scan
  cases ending with
  | failed fault =>
    obtain ⟨before, failing, after, hs, hf, hr⟩ := h
    exact ⟨segment :: before, failing, after, by rw [hs]; rfl, .cons he hf, hr⟩
  | settled => exact ⟨.cons he h.1, h.2⟩
  | dangling mark => exact ⟨.cons he h.1, h.2⟩

theorem follows_divide (hw : whole.drop position = text) :
    (scan position text).Follows whole (divide position text) := by
  induction position, text using scan_induct with
  | unsigned position text value hv =>
    rw [scan_of_unsigned hv, divide_of_unsigned hv]
    exact ⟨.nil, position, rfl, by rw [hw, hv]⟩
  | blank position text value after hv hb =>
    rw [scan_of_blank hv hb, divide_of_blank hv hb]
    exact ⟨.nil, position, rfl, by rw [hw, hv]⟩
  | failed position text value after fault hv hb hr =>
    obtain ⟨later, hl⟩ := exists_segments_eq_cons hv hb position
    rw [scan_of_error hv hb hr]
    exact ⟨[], _, later, hl, .nil, by rw [drop_bodyAt hw hv]; exact hr⟩
  | last position text value after stop skipped hv hb hr hs =>
    rw [scan_of_last hv hb hr hs, divide_of_last hv hb (rest_eq_drop_of_read hr ▸ hs)]
    exact ⟨.cons (readFrom_entryOf hw hv hr) .nil, rfl⟩
  | more position text value after stop skipped next hv hb hr hs ih =>
    have hs' := rest_eq_drop_of_read hr ▸ hs
    rw [scan_of_more hv hb hr hs, divide_of_more hv hb hs']
    have hp : stop.position =
        bodyAt position value after + stopIndex (after.dropWhile (· == ' ')) :=
      (wellFormed_of_read hr).2
    have hn := drop_next (drop_bodyAt hw hv) hs'
    rw [hp] at ih ⊢
    exact (ih hn).cons (readFrom_entryOf hw hv hr)

theorem scan_follows (text : List Char) : (scan 0 text).Follows text (divide 0 text) :=
  follows_divide List.drop_zero

theorem Scan.Follows.segments {scan : Scan} {division : Division} (h : scan.Follows text division)
    (hn : ∀ fault, scan.ending ≠ .failed fault) :
    List.Forall₂ (Entry.ReadFrom text) scan.entries division.segments := by
  obtain ⟨entries, ending⟩ := scan
  cases ending with
  | failed fault => exact absurd rfl (hn fault)
  | settled => exact h.1
  | dangling mark => exact h.1

end ConditionalTags.Clause
