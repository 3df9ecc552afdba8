import ConditionalTags.Proofs.Division

/-! # What a fault points at

The position of a fault is that of the offending character: the bracket that is one too many or has
no partner, the end of a pair without text, the separator that differs from those in front of it, the
`@` without a value, the first character of an unfinished clause. What makes a character offend is
said of positions in the text, without any reading.
-/
namespace ConditionalTags

namespace Condition

/-- The members of a level are parted at position `i`, by a keyword or a semicolon. -/
def PartsAt (text : List Char) (i : Nat) : Connective → Prop
  | .and => KeywordAt text i
  | .or => text[i]? = some ';'

/-- A level without text ends at position `i`: a bracket pair, or the outermost level. -/
def EndsEmptyAt (text : List Char) (i : Nat) : Prop :=
  (text[i]? = some ')' ∧ ∃ pair, (openAt text i).head? = some pair ∧
      ∀ j < i, TextAt text j → pair ∉ openAt text j) ∨
    (text[i]? = some ';' ∨ i = text.length) ∧ openAt text i = [] ∧ ∀ j < i, ¬TextAt text j

/-- At position `i` a bracket pair has a separator for the first time that differs from those in front
of it. -/
def MixesAt (text : List Char) (i : Nat) : Prop :=
  ∃ pair connective other, connective ≠ other ∧ (openAt text i).head? = some pair ∧
    PartsAt text i connective ∧
    (∃ j < i, PartsAt text j other ∧ (openAt text j).head? = some pair) ∧
    ∀ j < i, PartsAt text j connective → (openAt text j).head? ≠ some pair

/-- What is wrong with the text of a condition at position `i`. -/
def OffendsAt (text : List Char) (i : Nat) : FaultKind → Prop
  | .tooDeep => text[i]? = some '(' ∧ depthAt text i = maxDepth
  | .unclosedBracket => text[i]? = some '(' ∧ i ∈ openAt text text.length ∧
      ∀ j > i, text[j]? = some '(' → j ∉ openAt text text.length
  | .unopenedBracket => text[i]? = some ')' ∧ openAt text i = []
  | .emptyGroup => EndsEmptyAt text i
  | .mixedConnectives => MixesAt text i
  | .noConditions | .noValue | .unfinishedClause => False

namespace Level

variable {level : Level} {position : Nat} {fault : Fault} {connective : Connective}

theorem close_eq_error (h : level.close position = .error fault) :
    ¬level.HasContent ∧ fault = ⟨.emptyGroup, some position⟩ := by
  refine ⟨fun hc => ?_, ?_⟩
  · obtain ⟨condition, hok⟩ := exists_close_iff.2 hc
    cases h.symm.trans hok
  · rw [close] at h
    split at h
    · cases h
    · exact (Except.error.inj h).symm

theorem connect_eq_error (h : level.connect connective position = .error fault) :
    (∃ other, level.connective = some other ∧ connective ≠ other) ∧
      fault = ⟨.mixedConnectives, some position⟩ := by
  rw [connect] at h
  split at h
  · cases h
  · next hall =>
    refine ⟨?_, (Except.error.inj h).symm⟩
    cases hc : level.connective with
    | none => simp [hc] at hall
    | some other => exact ⟨other, rfl, fun he => hall (by simp [hc, he])⟩

end Level

namespace Reading

variable {reading : Reading} {text : List Char} {position i : Nat} {fault : Fault} {c : Char}

def Blames (text : List Char) (position i : Nat) (fault : Fault) : Prop :=
  fault.position = some (position + i) ∧ OffendsAt text i fault.kind

theorem opening_fault (h : reading.openBracket position = .error fault) :
    maxDepth ≤ reading.enclosing.length ∧ fault = ⟨.tooDeep, some position⟩ := by
  rw [openBracket] at h
  split at h
  · cases h
  · next hd => exact ⟨Nat.le_of_not_lt hd, (Except.error.inj h).symm⟩

theorem closing_fault (h : reading.closeBracket position = .error fault) :
    (reading.enclosing = [] ∧ fault = ⟨.unopenedBracket, some position⟩) ∨
      reading.enclosing ≠ [] ∧ reading.level.close position = .error fault := by
  rw [closeBracket] at h
  cases he : reading.enclosing with
  | nil =>
    rw [he] at h
    exact .inl ⟨rfl, (Except.error.inj h).symm⟩
  | cons outside enclosing =>
    obtain ⟨around, opened⟩ := outside
    rw [he] at h
    cases hi : reading.level.close position with
    | error other =>
      simp only [hi, bind, Except.bind] at h
      cases h
      exact .inr ⟨List.cons_ne_nil _ _, rfl⟩
    | ok inner =>
      obtain ⟨condition, hc⟩ :
          ∃ condition, (around.enter inner).close position = .ok condition :=
        Level.exists_close_iff.2 (Level.hasContent_enter inner)
      simp only [hi, hc, bind, Except.bind, pure, Except.pure] at h
      split at h <;> cases h

theorem semicolon_fault (h : reading.semicolon position = .error fault) :
    (reading.enclosing = [] ∧ reading.level.close position = .error fault) ∨
      reading.enclosing ≠ [] ∧ reading.level.connect .or position = .error fault := by
  simp only [semicolon, List.isEmpty_iff] at h
  by_cases hn : reading.enclosing = []
  · rw [if_pos hn] at h
    cases hc : reading.level.close position with
    | error other =>
      simp only [hc, bind, Except.bind] at h
      cases h
      exact .inl ⟨hn, rfl⟩
    | ok condition => simp [hc, bind, Except.bind, pure, Except.pure] at h
  · rw [if_neg hn] at h
    cases hc : reading.level.connect .or position with
    | error other =>
      simp only [hc, bind, Except.bind] at h
      cases h
      exact .inr ⟨hn, rfl⟩
    | ok level => simp [hc, bind, Except.bind, pure, Except.pure] at h

theorem Scanned.blames_outermost (h : Scanned text position i reading)
    (hc : text[i]? = some ';' ∨ i = text.length) (hn : reading.enclosing = [])
    (hf : reading.level.close (position + i) = .error fault) : Blames text position i fault := by
  obtain ⟨hcontent, rfl⟩ := Level.close_eq_error hf
  have ho := h.enclosing_eq_nil_iff.1 hn
  have hd := h.described.innermost
  rw [ho] at hd
  exact ⟨rfl, .inr ⟨hc, ho, fun j hj ht => hcontent (hd.content_iff.2 ⟨j, hj, ht, nofun⟩)⟩⟩

theorem Scanned.blames_closing (h : Scanned text position i reading) (hc : text[i]? = some ')')
    (hf : reading.closeBracket (position + i) = .error fault) : Blames text position i fault := by
  rcases closing_fault hf with ⟨hn, rfl⟩ | ⟨hn, hf⟩
  · exact ⟨rfl, hc, h.enclosing_eq_nil_iff.1 hn⟩
  · obtain ⟨hcontent, rfl⟩ := Level.close_eq_error hf
    obtain ⟨⟨around, opened⟩, enclosing, he⟩ := List.exists_cons_of_ne_nil hn
    obtain ⟨pair, outer, ho, -, hd, -⟩ := h.exists_openAt_eq he
    refine ⟨rfl, .inl ⟨hc, pair, by rw [ho]; rfl, fun j hj ht hm => ?_⟩⟩
    exact hcontent (hd.content_iff.2 ⟨j, hj, ht, fun p hp => Option.some.inj hp ▸ hm⟩)

theorem Scanned.parted (h : Scanned text position i reading) {connective other : Connective}
    (hl : reading.level.connective = some other) (hne : connective ≠ other) :
    (∃ j < i, PartsAt text j other ∧ (openAt text j).head? = (openAt text i).head?) ∧
      ∀ j < i, PartsAt text j connective → (openAt text j).head? ≠ (openAt text i).head? := by
  have hd := h.described.innermost
  cases connective <;> cases other
  · exact absurd rfl hne
  · obtain ⟨j, hj, hp, ho⟩ := hd.or_iff.1 hl
    exact ⟨⟨j, hj, hp, ho⟩, fun k hk hkey hko => h.unmixed j k hj hk hp hkey (ho.trans hko.symm)⟩
  · obtain ⟨j, hj, hp, ho⟩ := hd.and_iff.1 hl
    exact ⟨⟨j, hj, hp, ho⟩, fun k hk hs hko => h.unmixed k j hk hj hs hp (hko.trans ho.symm)⟩
  · exact absurd rfl hne

/-- Outside all brackets a semicolon ends the condition, so both sorts of separator meet in a pair
only. -/
theorem Scanned.blames_connect (h : Scanned text position i reading) {connective : Connective}
    (hp : PartsAt text i connective) (hn : connective = .or → reading.enclosing ≠ [])
    (hf : reading.level.connect connective (position + i) = .error fault) :
    Blames text position i fault := by
  obtain ⟨⟨other, hl, hne⟩, rfl⟩ := Level.connect_eq_error hf
  obtain ⟨hother, hnone⟩ := h.parted hl hne
  cases ho : openAt text i with
  | nil =>
    have hor : other = .or := by
      cases connective with
      | and => cases other <;> simp at hne ⊢
      | or => exact absurd (h.enclosing_eq_nil_iff.2 ho) (hn rfl)
    obtain ⟨j, hj, hsep, hpair⟩ := hother
    rw [ho, List.head?_nil, List.head?_eq_none_iff] at hpair
    rw [hor] at hsep
    exact absurd (.inl ⟨hsep, by rw [depthAt, hpair]; rfl⟩) (h.unended j hj)
  | cons pair outer =>
    rw [ho] at hother hnone
    exact ⟨rfl, pair, connective, other, hne, by rw [ho]; rfl, hp, hother, hnone⟩

theorem Scanned.blames_finish (h : Scanned text position text.length reading)
    (hf : reading.finish (position + text.length) = .error fault) :
    Blames text position text.length fault ∨ ∃ p < text.length, Blames text position p fault := by
  unfold finish at hf
  split at hf
  · next hn => exact .inl (h.blames_outermost (.inr rfl) hn hf)
  · next around opened enclosing he =>
    obtain ⟨p, outer, ho, rfl, -⟩ := h.exists_openAt_eq he
    obtain ⟨hp, hc⟩ := innermost_bracket ho
    cases hf
    refine .inr ⟨p, hp, rfl, hc, ho ▸ List.mem_cons_self, fun j hj _ hm => ?_⟩
    rw [ho] at hm
    rcases List.mem_cons.1 hm with rfl | hm
    · exact Nat.lt_irrefl _ hj
    · exact Nat.lt_asymm hj (lt_of_mem_outer ho hm)

theorem Scanned.blames_token (h : Scanned text position i reading) (hc : text[i]? = some c)
    (hf : reading.onToken (position + i) (.ofChar c) = .error fault) :
    Blames text position i fault := by
  unfold Token.ofChar at hf
  split at hf
  · obtain ⟨hd, rfl⟩ := opening_fault hf
    have hs := h.shallow i (Nat.le_refl i)
    rw [h.enclosing_length] at hd
    exact ⟨rfl, hc, Nat.le_antisymm hs hd⟩
  · exact h.blames_closing hc hf
  · rcases semicolon_fault hf with ⟨hn, hf⟩ | ⟨hn, hf⟩
    · exact h.blames_outermost (.inl hc) hn hf
    · exact h.blames_connect (show PartsAt text i .or from hc) (fun _ => hn) hf
  · cases hf

end Reading

theorem exists_blames_of_read {position : Nat} {text : List Char} {fault : Fault}
    (h : read position text = .error fault) :
    ∃ i ≤ stopIndex text, Reading.Blames text position i fault := by
  obtain ⟨i, reading, hr, hh⟩ := Reading.exists_halts text position
  have hs := hr.scanned
  have hi := hs.le_stopIndex hr.le_length
  generalize hx : (read position text).map Stop.condition = result at hh
  rw [h] at hx
  cases hh with
  | finished he =>
    subst he
    rcases hs.blames_finish hx.symm with hb | ⟨p, hp, hb⟩
    · exact ⟨_, hi, hb⟩
    · exact ⟨p, Nat.le_trans (Nat.le_of_lt hp) hi, hb⟩
  | keyword hk hf =>
    cases hx
    exact ⟨i, hi, hs.blames_connect (show PartsAt text i .and from hk) nofun hf⟩
  | failed hc hf =>
    cases hx
    exact ⟨i, hi, hs.blames_token hc hf⟩
  | completed => cases hx

end Condition

namespace Clause
open Text Condition

/-- What is wrong with a text of clauses at position `p`. -/
def OffendsAt (text : List Char) (p : Nat) : FaultKind → Prop
  | .noConditions => False
  | .noValue => ∃ before segment after, (divide 0 text).segments = before ++ segment :: after ∧
      p = segment.sign ∧ text[p]? = some '@' ∧ BeginsAt text segment.start ∧
      (∀ c ∈ segment.value text, isBlank c = true) ∧
      ∀ earlier ∈ before, ∃ c ∈ earlier.value text, isBlank c = false
  | .unfinishedClause => ∃ start blanks c rest, (divide 0 text).remainder = some start ∧
      BeginsAt text start ∧ text.drop start = blanks ++ c :: rest ∧ p = start + blanks.length ∧
      (∀ x ∈ blanks, isBlank x = true) ∧ isBlank c = false ∧ c ≠ '@'
  | kind => ∃ before segment after, (divide 0 text).segments = before ++ segment :: after ∧
      (∀ earlier ∈ before,
        WellFormed (text.drop earlier.body) (stopIndex (text.drop earlier.body))) ∧
      ∃ i ≤ stopIndex (text.drop segment.body), p = segment.body + i ∧
        Condition.OffendsAt (text.drop segment.body) i kind

variable {text : List Char} {fault : Fault} {scan : Scan} {division : Division} {position p : Nat}

theorem exists_of_firstMark (h : firstMark position text = some p) :
    ∃ blanks c rest, text = blanks ++ c :: rest ∧ p = position + blanks.length ∧
      (∀ x ∈ blanks, isBlank x = true) ∧ isBlank c = false := by
  obtain ⟨i, hi, rfl⟩ := Option.map_eq_some_iff.1 h
  obtain ⟨hl, hc, hb⟩ := List.findIdx?_eq_some_iff_getElem.1 hi
  refine ⟨text.take i, text[i], text.drop (i + 1), ?_, ?_, ?_, by simpa using hc⟩
  · rw [← List.drop_eq_getElem_cons hl, List.take_append_drop]
  · rw [List.length_take, Nat.min_eq_left (Nat.le_of_lt hl)]
  · intro x hx
    obtain ⟨j, hj, rfl⟩ := List.mem_take_iff_getElem.1 hx
    simpa using hb j (Nat.lt_of_lt_of_le hj (Nat.min_le_left _ _))

theorem exists_of_forall₂_append_cons {α β : Type} {R : α → β → Prop} {before after : List α}
    {a : α} {others : List β} (h : List.Forall₂ R (before ++ a :: after) others) :
    ∃ front b back, others = front ++ b :: back ∧ List.Forall₂ R before front ∧ R a b := by
  induction before generalizing others with
  | nil =>
    obtain ⟨b, back, hab, -, rfl⟩ := List.forall₂_cons_left_iff.1 h
    exact ⟨[], b, back, rfl, .nil, hab⟩
  | cons x before ih =>
    obtain ⟨y, ys, hxy, hr, rfl⟩ := List.forall₂_cons_left_iff.1 h
    obtain ⟨front, b, back, rfl, hf, hab⟩ := ih hr
    exact ⟨y :: front, b, back, rfl, .cons hxy hf, hab⟩

theorem exists_of_forall₂_of_mem {α β : Type} {R : α → β → Prop} {front : List α} {back : List β}
    {b : β} (h : List.Forall₂ R front back) (hb : b ∈ back) : ∃ a ∈ front, R a b := by
  induction h with
  | nil => cases hb
  | cons hab _ ih =>
    rcases List.mem_cons.1 hb with rfl | hb
    · exact ⟨_, List.mem_cons_self, hab⟩
    · obtain ⟨a, ha, hr⟩ := ih hb
      exact ⟨a, List.mem_cons_of_mem _ ha, hr⟩

theorem offendsAt_of_failed (h : scan.Follows text (divide 0 text))
    (he : scan.ending = .failed fault) :
    ∃ p ≤ text.length, fault.position = some p ∧ fault.kind ≠ .noConditions ∧
      OffendsAt text p fault.kind := by
  rw [Scan.Follows, he] at h
  obtain ⟨before, segment, after, hs, hf, hr⟩ := h
  obtain ⟨i, hi, hp, ho⟩ := exists_blames_of_read hr
  have hbody : segment.body < text.length := (laidOut_of_mem (by simp [hs])).body_lt
  have hread : ∀ earlier ∈ before,
      WellFormed (text.drop earlier.body) (stopIndex (text.drop earlier.body)) := by
    intro earlier hm
    obtain ⟨entry, -, hentry⟩ := exists_of_forall₂_of_mem hf hm
    obtain ⟨stop, hok, -⟩ := hentry.condition
    exact (wellFormed_of_read hok).1
  have hle := stopIndex_le (text.drop segment.body)
  rw [List.length_drop] at hle
  obtain ⟨kind, position⟩ := fault
  refine ⟨segment.body + i, by omega, hp, ?_, ?_⟩
  · rintro rfl
    exact ho
  · cases kind <;> first | exact ho.elim | exact ⟨before, segment, after, hs, hread, i, hi, rfl, ho⟩

theorem offendsAt_of_blank {before after : List Entry} {entry : Entry}
    (h : List.Forall₂ (Entry.ReadFrom text) (before ++ entry :: after) (divide 0 text).segments)
    (hb : ∀ earlier ∈ before, earlier.clause.value ≠ "") (he : entry.clause.value = "") :
    entry.sign ≤ text.length ∧ OffendsAt text entry.sign .noValue := by
  obtain ⟨front, segment, back, hs, hf, hr⟩ := exists_of_forall₂_append_cons h
  have hl : segment.LaidOut text := laidOut_of_mem (by simp [hs])
  have hearlier : ∀ earlier ∈ front, ∃ c ∈ earlier.value text, isBlank c = false := by
    intro earlier hm
    obtain ⟨other, ho, hother⟩ := exists_of_forall₂_of_mem hf hm
    simpa [hother.value_eq_empty_iff] using hb other ho
  rw [hr.sign]
  exact ⟨Nat.le_of_lt (lt_length_of_getElem? hl.signed), front, segment, back, hs, rfl, hl.signed,
    hl.begins, hr.value_eq_empty_iff.1 he, hearlier⟩

theorem offendsAt_of_dangling {start mark : Nat} (hr : (divide 0 text).remainder = some start)
    (hm : firstMark start (cut '@' (text.drop start)).1 = some mark) :
    mark ≤ text.length ∧ OffendsAt text mark .unfinishedClause := by
  obtain ⟨blanks, c, rest, hv, rfl, hb, hc⟩ := exists_of_firstMark hm
  obtain ⟨hn, after, ha⟩ := exists_cut_append '@' (text.drop start)
  rw [hv] at hn ha
  have hat : c ≠ '@' := fun he => hn (by simp [he])
  have hl := congrArg List.length ha
  simp only [List.length_drop, List.length_append, List.length_cons] at hl
  exact ⟨by omega, start, blanks, c, rest ++ after, hr, beginsAt_remainder hr,
    by simpa using ha, rfl, hb, hc, hat⟩

/-- Only a value without a condition is rejected without a position. Every other fault points at a
character that offends, or just behind the text. -/
theorem offendsAt_of_readAll {value : String} (h : readAll (some value) = .error fault) :
    (fault.position = none ↔ fault.kind = .noConditions) ∧
      ∀ p, fault.position = some p →
        p ≤ value.toList.length ∧ OffendsAt value.toList p fault.kind := by
  have hne : value ≠ "" := by
    rintro rfl
    cases h
  have hv := (readAll_eq_verdict hne).symm.trans h
  generalize value.toList = text at hv
  have hf := scan_follows text
  rcases of_verdict_eq_error hv with he | ⟨hn, ⟨-, rfl⟩ | ⟨before, entry, after, he, hb, hval, rfl⟩ |
    ⟨mark, he, rfl⟩⟩
  · obtain ⟨p, hp, hfault, hk, ho⟩ := offendsAt_of_failed hf he
    refine ⟨by simp [hfault, hk], fun q hq => ?_⟩
    obtain rfl : p = q := Option.some.inj (hfault.symm.trans hq)
    exact ⟨hp, ho⟩
  · simp
  · have hs := hf.segments hn
    rw [he] at hs
    refine ⟨by simp, fun q hq => ?_⟩
    cases hq
    exact offendsAt_of_blank hs hb hval
  · rw [Scan.Follows, he] at hf
    obtain ⟨-, start, hr, hm⟩ := hf
    refine ⟨by simp, fun q hq => ?_⟩
    cases hq
    exact offendsAt_of_dangling hr hm.symm

/-- A semicolon behind a keyword, in an inner pair of the second clause. -/
theorem offendsAt_of_readAll_mixed :
    let value := "v @ (a);; w @ (x;y (b AND\u00a0(and c AND (d;e)) and f;g))"
    let fault : Fault := ⟨.mixedConnectives, some 49⟩
    readAll (some value) = .error fault ∧
      (fault.position = none ↔ fault.kind = .noConditions) ∧
      ∀ p, fault.position = some p →
        p ≤ value.toList.length ∧ OffendsAt value.toList p fault.kind := by
  intro value fault
  have h : readAll (some value) = .error fault := by decide +kernel
  exact ⟨h, offendsAt_of_readAll h⟩

end Clause

end ConditionalTags
