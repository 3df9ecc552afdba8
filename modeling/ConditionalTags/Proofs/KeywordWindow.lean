import ConditionalTags.Proofs.Course

/-! # The keyword through a window

A keyword can be told from the few characters around its last letter, looked at through a window onto
the text of one bracket pair. Where the pair begins the window is short, and the bracket that opened
the pair is never in it. At every character that a reading looks at, in whichever level, the window
tells the same as the whole text does, and so does the pending text, by which the reader goes. A reader
that went by the window, and took two letters back where it sees a keyword, would be the same reader.
-/
namespace ConditionalTags

namespace Keyword

/-- The three characters in front of `index`, as far as the text has them, the one at `index` and the
one behind, without which there is no window. -/
def window? (text : List Char) (index : Nat) : Option (List Char) :=
  if index + 2 ≤ text.length then some ((text.take (index + 2)).drop (index - 3)) else none

def isAlone : List Char → Bool
  | [a, n, d, x] => spells a n d && mayPrecede (some x)
  | _ => false

def endsApart : List Char → Bool
  | [] => false
  | c :: rest => (c == ' ' || c == ')') && isAlone rest || endsApart rest

/-- The window ends with the keyword and the character behind it. A space or a closing bracket stands
in front, or else the window begins there. -/
def endsWindow (window : List Char) : Bool :=
  isAlone window || endsApart window

def seenAt (text : List Char) (index : Nat) : Bool :=
  (window? text index).any endsWindow

variable {text : List Char} {index k : Nat}

theorem seenAt_eq_false_of_lt (h : index < 2) : seenAt text index = false := by
  obtain rfl | rfl : index = 0 ∨ index = 1 := by omega
  all_goals
    match text with
    | [] | [_] | [_, _] | _ :: _ :: _ :: _ => simp [seenAt, window?, endsWindow, endsApart, isAlone]

theorem seenAt_two : seenAt text 2 = leads text := by
  match text with
  | [] | [_] | [_, _] | [_, _, _] | a :: n :: d :: x :: rest =>
    simp [seenAt, window?, endsWindow, endsApart, isAlone, leads, mayPrecede]

theorem seenAt_add_three : seenAt text (k + 3) = true ↔
    ∃ c, text[k]? = some c ∧ (c = ' ' ∨ c = ')') ∧ leads (text.drop (k + 1)) = true := by
  have hw : (text.take (k + 3 + 2)).drop (k + 3 - 3) = (text.drop k).take 5 := by
    rw [List.drop_take]
    congr 1
    omega
  have hl : k + 3 + 2 ≤ text.length ↔ 5 ≤ (text.drop k).length := by
    rw [List.length_drop]
    omega
  have hk : text[k]? = (text.drop k)[0]? := by rw [List.getElem?_drop, Nat.add_zero]
  have hd : text.drop (k + 1) = (text.drop k).drop 1 := by rw [List.drop_drop]
  rw [seenAt, window?, hw, if_congr hl rfl rfl, hk, hd]
  match text.drop k with
  | [] | [_] | [_, _] | [_, _, _] | [_, _, _, _] | c :: a :: n :: d :: x :: rest =>
    simp [endsWindow, endsApart, isAlone, leads, mayPrecede]

end Keyword

namespace Condition

def KeywordEndsAt (text : List Char) (i : Nat) : Prop :=
  ∃ k, i = k + 2 ∧ KeywordAt text k

/-- Where the text of the first of these bracket pairs begins. The outermost level, which stands in no
pair, begins with the whole text. -/
def textStart (brackets : List Nat) : Nat :=
  brackets.head?.elim 0 (· + 1)

variable {text : List Char} {brackets : List Nat} {i k start index : Nat} {c : Char}

theorem KeywordEndsAt.toLower_eq (h : KeywordEndsAt text i) (hc : text[i]? = some c) :
    c.toLower = 'd' := by
  obtain ⟨k, rfl, hk⟩ := h
  exact hk.toLower_eq.2.2 c hc

theorem textStart_le (h : brackets <:+ openAt text i) : textStart brackets ≤ i := by
  cases brackets with
  | nil => exact Nat.zero_le i
  | cons p outer => exact (getElem?_of_mem_openAt (h.subset List.mem_cons_self)).1

theorem mayFollow_textStart (h : brackets <:+ openAt text i) :
    Keyword.mayFollow (text.take (textStart brackets)).getLast? = true := by
  cases brackets with
  | nil => rfl
  | cons p outer =>
    have hp := (getElem?_of_mem_openAt (h.subset List.mem_cons_self)).2
    change Keyword.mayFollow (text.take (p + 1)).getLast? = true
    rw [getLast?_take_succ hp]
    rfl

theorem keywordEndsAt_of_seenAt (h : Keyword.mayFollow (text.take start).getLast? = true)
    (hs : Keyword.seenAt (text.drop start) index = true) : KeywordEndsAt text (start + index) := by
  match index with
  | 0 | 1 =>
    rw [Keyword.seenAt_eq_false_of_lt (by decide)] at hs
    cases hs
  | 2 =>
    rw [Keyword.seenAt_two] at hs
    refine ⟨start, rfl, ?_⟩
    rw [KeywordAt, Keyword.starts, hs, h]
    rfl
  | k + 3 =>
    obtain ⟨c, hc, hf, hl⟩ := Keyword.seenAt_add_three.1 hs
    rw [List.getElem?_drop] at hc
    rw [List.drop_drop, ← Nat.add_assoc] at hl
    refine ⟨start + k + 1, by omega, ?_⟩
    rw [KeywordAt, Keyword.starts, hl, getLast?_take_succ hc]
    rcases hf with rfl | rfl <;> rfl

theorem seenAt_of_keywordAt (h : textStart (openAt text (start + k)) = start)
    (hk : KeywordAt text (start + k)) : Keyword.seenAt (text.drop start) (k + 2) = true := by
  have hs := hk
  rw [KeywordAt, Keyword.starts, Bool.and_eq_true] at hs
  cases k with
  | zero =>
    rw [Keyword.seenAt_two]
    exact hs.2
  | succ k =>
    obtain ⟨a, n, d, ha, -⟩ := hk.letters
    have hl : start + k < text.length :=
      Nat.lt_of_succ_lt (lt_length_of_getElem? ha)
    obtain ⟨c, hc⟩ : ∃ c, text[start + k]? = some c := ⟨_, List.getElem?_eq_getElem hl⟩
    have hn : c ≠ '(' := by
      rintro rfl
      rw [← Nat.add_assoc, openAt_succ_of_opening hc] at h
      have he : start + k + 1 = start := h
      omega
    have hf := hs.1
    rw [← Nat.add_assoc, getLast?_take_succ hc] at hf
    refine Keyword.seenAt_add_three.2 ⟨c, ?_, by simpa [Keyword.mayFollow, hn] using hf, ?_⟩
    · rw [List.getElem?_drop]
      exact hc
    · rw [List.drop_drop]
      exact hs.2

theorem seenAt_iff_keywordEndsAt (h : textStart (openAt text (start + index)) = start) :
    Keyword.seenAt (text.drop start) index = true ↔ KeywordEndsAt text (start + index) := by
  constructor
  · refine keywordEndsAt_of_seenAt ?_
    have hf := mayFollow_textStart (List.suffix_refl (openAt text (start + index)))
    rwa [h] at hf
  · rintro ⟨k, hi, hk⟩
    rw [hi, hk.openAt_eq (Nat.le_add_right k 2) (by omega)] at h
    have hle : start ≤ k := h ▸ textStart_le (List.suffix_refl (openAt text k))
    obtain ⟨j, rfl⟩ := Nat.exists_eq_add_of_le hle
    obtain rfl : index = j + 2 := by omega
    exact seenAt_of_keywordAt h hk

namespace Reading

/-- Where the text of the level inside `enclosing` begins: behind its bracket, whose position is on
record. `position` is that of the whole text. -/
def levelStart (position : Nat) (enclosing : List (Level × Nat)) : Nat :=
  enclosing.head?.elim 0 fun around => around.2 + 1 - position

/-- A level whose text begins at `start` looks at the character `c` at position `i`, with what it has
read so far in `level`. That is the innermost level, and at the bracket that closes it also the level
around, which has just taken it in. -/
inductive LooksAt (text : List Char) (position i : Nat) (c : Char) : Nat → Level → Prop
  | innermost {reading : Reading} : stateAt text position i = some reading → text[i]? = some c →
      LooksAt text position i c (levelStart position reading.enclosing) reading.level
  | around {level around : Level} {opened : Nat} {enclosing : List (Level × Nat)}
      {inner : Condition} : stateAt text position i = some ⟨level, (around, opened) :: enclosing⟩ →
      text[i]? = some c → c = ')' → level.close (position + i) = .ok inner →
      LooksAt text position i c (levelStart position enclosing)
        { around with members := around.members ++ [inner] }

variable {position : Nat} {reading : Reading} {level : Level} {enclosing : List (Level × Nat)}

theorem levelStart_eq (h : enclosing.map Prod.snd = brackets.map (position + ·)) :
    levelStart position enclosing = textStart brackets := by
  cases enclosing with
  | nil =>
    cases brackets with
    | nil => rfl
    | cons => cases h
  | cons around enclosing =>
    cases brackets with
    | nil => cases h
    | cons p outer =>
      have hp : around.2 = position + p := (List.cons.inj h).1
      change around.2 + 1 - position = p + 1
      omega

theorem Amid.brackets_eq (h : Amid text position i reading) :
    reading.enclosing.map Prod.snd = (openAt text i).map (position + ·) := by
  cases h with
  | whole hr => exact hr.scanned.described.brackets_eq
  | first hr _ hk =>
    rw [hk.openAt_eq (Nat.le_succ _) (by omega)]
    exact hr.scanned.described.brackets_eq
  | second hr _ hk =>
    rw [hk.openAt_eq (Nat.le_add_right _ 2) (by omega)]
    exact hr.scanned.described.brackets_eq

theorem LooksAt.getElem?_eq (h : LooksAt text position i c start level) : text[i]? = some c := by
  cases h with
  | innermost _ hc => exact hc
  | around _ hc => exact hc

theorem LooksAt.exists_brackets (h : LooksAt text position i c start level) :
    ∃ brackets, brackets <:+ openAt text i ∧ textStart brackets = start ∧
      (brackets = openAt text i ∨ c = ')') := by
  cases h with
  | innermost hs =>
    have hb := (amid_of_stateAt hs).brackets_eq
    exact ⟨_, List.suffix_refl _, (levelStart_eq hb).symm, .inl rfl⟩
  | around hs _ hc =>
    have hb := (amid_of_stateAt hs).brackets_eq
    cases ho : openAt text i with
    | nil => rw [ho] at hb; cases hb
    | cons p outer =>
      rw [ho] at hb
      exact ⟨outer, List.suffix_cons p outer, (levelStart_eq (List.cons.inj hb).2).symm, .inr hc⟩

theorem LooksAt.seenAt_iff (h : LooksAt text position i c start level) :
    ∃ index, i = start + index ∧
      (Keyword.seenAt (text.drop start) index = true ↔ KeywordEndsAt text i) := by
  obtain ⟨brackets, hb, hs, hor⟩ := h.exists_brackets
  obtain ⟨index, rfl⟩ := Nat.exists_eq_add_of_le (hs ▸ textStart_le hb)
  refine ⟨index, rfl, ?_⟩
  rcases hor with rfl | rfl
  · exact seenAt_iff_keywordEndsAt hs
  · have hn : ¬KeywordEndsAt text (start + index) := fun hk =>
      absurd (hk.toLower_eq h.getElem?_eq) (by decide)
    exact ⟨keywordEndsAt_of_seenAt (hs ▸ mayFollow_textStart hb), fun hk => absurd hk hn⟩

theorem LooksAt.beforeKeyword?_eq_none (h : LooksAt text position i c start level)
    (hn : ¬KeywordEndsAt text i) : level.beforeKeyword? c text[i + 1]? = none := by
  cases h with
  | innermost hs hc =>
    cases amid_of_stateAt hs with
    | whole hr =>
      have hf := hr.follows
      rw [drop_eq_cons hc] at hf
      rw [← List.head?_drop]
      exact hf.beforeKeyword?_eq_none
    | first hr _ hk =>
      have hln := hk.toLower_eq.2.1 c hc
      exact Level.beforeKeyword?_eq_none_of_ne (by rw [hln]; decide) _
    | second _ _ hk => exact absurd ⟨_, rfl, hk⟩ hn
  | around _ _ hc =>
    subst hc
    exact Level.beforeKeyword?_eq_none_of_ne (by decide) _

/-- Where a keyword ends, its first two letters are the last of the pending text. In front of them
stands what was pending when the level came to the keyword. -/
theorem LooksAt.exists_pending_eq (h : LooksAt text position i c start level)
    (he : KeywordEndsAt text i) : ∃ k a n earlier, i = k + 2 ∧ text[k]? = some a ∧
      text[k + 1]? = some n ∧ LooksAt text position k a start earlier ∧
      level.pending = n :: a :: earlier.pending ∧
      level.beforeKeyword? c text[i + 1]? = some earlier.pending := by
  cases h with
  | innermost hs hc =>
    obtain ⟨k, rfl, hk⟩ := he
    generalize hi : k + 2 = i at hs hc
    cases amid_of_stateAt hs with
    | whole hr =>
      have := hr.scanned.whole k (by omega) hk
      omega
    | @first j earlier a hr hst hkj ha =>
      obtain rfl : j = k + 1 := by omega
      exact absurd hkj hk.not_succ.1
    | @second j earlier a n hr hst hkj ha hn =>
      obtain rfl : k = j := by omega
      exact ⟨k, a, n, earlier.level, hi.symm, ha, hn, .innermost hst ha, rfl,
        hr.beforeKeyword?_eq_some hk ha hn hc⟩
  | around _ hc hp => exact absurd (he.toLower_eq hc) (by rw [hp]; decide)

theorem exists_looksAt_of_read {stop : Stop} (h : read position text = .ok stop)
    (hi : position + i ≤ stop.position) (hc : text[i]? = some c) :
    ∃ start level, LooksAt text position i c start level := by
  obtain ⟨reading, hr⟩ := exists_stateAt_of_read h hi
  exact ⟨_, _, .innermost hr hc⟩

/-- What becomes of a letter if one goes by the window onto the text of its level: where a keyword is
seen, the two letters that are pending already are taken back. -/
def letterByWindow (reading : Reading) (text : List Char) (position i : Nat) (c : Char) :
    Except Fault Progress :=
  let start := levelStart position reading.enclosing
  if Keyword.seenAt (text.drop start) (i - start) then do
    let pending := reading.level.pending.drop 2
    let level ← { reading.level with pending }.connect .and (position + i - 2)
    return .more { reading with level }
  else return .more { reading with level := reading.level.push c }

theorem letter_eq_letterByWindow (h : stateAt text position i = some reading)
    (hc : text[i]? = some c) :
    reading.letter (position + i) c text[i + 1]? = reading.letterByWindow text position i c := by
  have hl : LooksAt text position i c _ reading.level := .innermost h hc
  obtain ⟨index, hi, hs⟩ := hl.seenAt_iff
  have hd : i - levelStart position reading.enclosing = index := by omega
  by_cases he : KeywordEndsAt text i
  · obtain ⟨k, a, n, earlier, -, -, -, -, hp, hb⟩ := hl.exists_pending_eq he
    simp only [letter, hb, letterByWindow, hd, hs.2 he, hp, ↓reduceIte, List.drop_succ_cons,
      List.drop_zero]
  · have hw : ¬Keyword.seenAt (text.drop (levelStart position reading.enclosing)) index = true :=
      fun hw => he (hs.1 hw)
    simp only [letter, hl.beforeKeyword?_eq_none he, letterByWindow, hd, if_neg hw]

/-- At every character, and for whichever level looks at it, a keyword that ends there is seen through
the window onto the text of the level, is there in the whole text, and is found by the reader; or it is
none of these. The last two characters that are pending are then the two in front of the character.
Without them remains what was pending when the level looked at the first of them. -/
theorem LooksAt.seenAt_iff_and_pending_eq (h : LooksAt text position i c start level) :
    ∃ index, i = start + index ∧
      (Keyword.seenAt (text.drop start) index = true ↔ KeywordEndsAt text i) ∧
      ((level.beforeKeyword? c text[i + 1]?).isSome = true ↔ KeywordEndsAt text i) ∧
      (Keyword.seenAt (text.drop start) index = true →
        ∃ k a n earlier, i = k + 2 ∧ text[k]? = some a ∧ text[k + 1]? = some n ∧
          LooksAt text position k a start earlier ∧
          level.pending = n :: a :: earlier.pending ∧
          level.beforeKeyword? c text[i + 1]? = some earlier.pending) := by
  obtain ⟨index, hi, hs⟩ := h.seenAt_iff
  refine ⟨index, hi, hs, ⟨fun hb => ?_, fun he => ?_⟩, fun hw => h.exists_pending_eq (hs.1 hw)⟩
  · refine Classical.byContradiction fun hn => ?_
    rw [h.beforeKeyword?_eq_none hn] at hb
    cases hb
  · obtain ⟨_, _, _, _, -, -, -, -, -, hb⟩ := h.exists_pending_eq he
    rw [hb]
    rfl

/-- The keyword stands where a pair begins, and the window is short. The level around has two letters
of a keyword pending. -/
theorem LooksAt.seenAt_iff_and_pending_eq_opening :
    let text := "wet an(aNd(b) c)".toList
    let level : Level := { pending := ['N', 'a'] }
    LooksAt text 4 9 'd' 7 level ∧ Keyword.seenAt (text.drop 7) 2 = true ∧
      KeywordEndsAt text 9 ∧ (level.beforeKeyword? 'd' text[10]?).isSome = true ∧
      ∃ k a n earlier, 9 = k + 2 ∧ text[k]? = some a ∧ text[k + 1]? = some n ∧
        LooksAt text 4 k a 7 earlier ∧ level.pending = n :: a :: earlier.pending ∧
        level.beforeKeyword? 'd' text[10]? = some earlier.pending := by
  intro text level
  have hs : stateAt text 4 9 =
      some ⟨level, [({ pending := ['n', 'a', ' ', 't', 'e', 'w'] }, 10)]⟩ := by rfl
  have h : LooksAt text 4 9 'd' 7 level := .innermost hs rfl
  obtain ⟨index, hi, hw, hb, hp⟩ := h.seenAt_iff_and_pending_eq
  obtain rfl : index = 2 := by omega
  have hseen : Keyword.seenAt (text.drop 7) 2 = true := by decide
  exact ⟨h, hseen, hw.1 hseen, hb.2 (hw.1 hseen), hp hseen⟩

end Reading

end Condition

end ConditionalTags
