import ConditionalTags.Proofs.LevelContent

/-! # What has been read so far

Every level describes its own bracket pair, from the innermost one outwards, and the text in front of
the position that has been reached is in order: its brackets match and do not nest too deep, no pair has
both connectives, and every pair that is closed has text. Each token keeps it so.
-/
namespace ConditionalTags.Condition
open Text

namespace Reading
open Level

/-- Every level describes its own pair: the innermost one up to `upto`, each of the others up to the
bracket that was opened in it. `position` is that of the text. -/
def Described (text : List Char) (position : Nat) :
    Nat → Level → List (Level × Nat) → List Nat → Prop
  | upto, level, [], [] => level.Describes text upto none
  | upto, level, (around, opened) :: enclosing, p :: outer =>
    level.Describes text upto (some p) ∧ opened = position + p ∧
      Described text position p around enclosing outer
  | _, _, _, _ => False

variable {text : List Char} {position upto i : Nat} {level : Level}
  {enclosing : List (Level × Nat)} {brackets : List Nat}

theorem Described.innermost (h : Described text position upto level enclosing brackets) :
    level.Describes text upto brackets.head? := by
  unfold Described at h
  split at h
  · exact h
  · exact h.1
  · exact h.elim

theorem Described.replace {i : Nat} {next : Level}
    (h : Described text position upto level enclosing brackets)
    (hn : next.Describes text i brackets.head?) :
    Described text position i next enclosing brackets := by
  unfold Described at h ⊢
  split at h
  · exact hn
  · exact ⟨hn, h.2⟩
  · exact h.elim

theorem Described.brackets_eq (h : Described text position upto level enclosing brackets) :
    enclosing.map Prod.snd = brackets.map (position + ·) := by
  induction enclosing generalizing upto level brackets with
  | nil =>
    cases brackets with
    | nil => rfl
    | cons p outer => exact h.elim
  | cons around enclosing ih =>
    cases brackets with
    | nil => exact h.elim
    | cons p outer => rw [List.map_cons, List.map_cons, h.2.1, ih h.2.2]

theorem Described.length_eq (h : Described text position upto level enclosing brackets) :
    enclosing.length = brackets.length := by
  simpa using congrArg List.length h.brackets_eq

/-- The text in front of position `i` has been read, and nothing was wrong with it so far. -/
structure Scanned (text : List Char) (position i : Nat) (reading : Reading) : Prop where
  described : Described text position i reading.level reading.enclosing (openAt text i)
  unended : ∀ j < i, ¬EndsAt text j
  opened : ∀ j < i, text[j]? = some ')' → openAt text j ≠ []
  shallow : ∀ j ≤ i, depthAt text j ≤ maxDepth
  unmixed : ∀ j k, j < i → k < i → text[j]? = some ';' → KeywordAt text k →
    (openAt text j).head? ≠ (openAt text k).head?
  filled : ∀ p < i, text[p]? = some '(' →
    p ∈ openAt text i ∨ ∃ j < i, TextAt text j ∧ p ∈ openAt text j
  /-- No keyword has been read in part. -/
  whole : ∀ k < i, KeywordAt text k → k + 3 ≤ i

variable {reading next : Reading} {c : Char}

theorem scanned_zero (text : List Char) (position : Nat) : Scanned text position 0 {} where
  described := by
    refine ⟨⟨nofun, ?_⟩, ⟨nofun, ?_⟩, ⟨?_, ?_⟩⟩
    · rintro ⟨j, hj, -⟩
      exact absurd hj (Nat.not_lt_zero j)
    · rintro ⟨j, hj, -⟩
      exact absurd hj (Nat.not_lt_zero j)
    · rintro (hm | ⟨c, hc, -⟩)
      · exact absurd rfl hm
      · cases hc
    · rintro ⟨j, hj, -⟩
      exact absurd hj (Nat.not_lt_zero j)
  unended _ hj := absurd hj (Nat.not_lt_zero _)
  opened _ hj := absurd hj (Nat.not_lt_zero _)
  shallow j hj := by
    obtain rfl := Nat.le_zero.1 hj
    exact Nat.zero_le _
  unmixed _ _ hj := absurd hj (Nat.not_lt_zero _)
  filled _ hj := absurd hj (Nat.not_lt_zero _)
  whole _ hj := absurd hj (Nat.not_lt_zero _)

theorem Scanned.enclosing_length (h : Scanned text position i reading) :
    reading.enclosing.length = depthAt text i :=
  h.described.length_eq

theorem Scanned.enclosing_eq_nil_iff (h : Scanned text position i reading) :
    reading.enclosing = [] ↔ openAt text i = [] := by
  rw [← List.length_eq_zero_iff, h.enclosing_length, depthAt, List.length_eq_zero_iff]

/-- A stretch of text without brackets is read in its level. -/
theorem Scanned.advance {upto : Nat} (h : Scanned text position i reading) (hle : i ≤ upto)
    (hb : ∀ k, i ≤ k → k < upto → text[k]? ≠ some '(' ∧ text[k]? ≠ some ')')
    (he : ∀ k, i ≤ k → k < upto → ¬EndsAt text k)
    (hw : ∀ k, i ≤ k → k < upto → KeywordAt text k → k + 3 ≤ upto)
    (hm : ∀ j k, j < upto → k < upto → i ≤ j ∨ i ≤ k → text[j]? = some ';' →
      KeywordAt text k → (openAt text j).head? ≠ (openAt text k).head?)
    (hd : level.Describes text upto (openAt text i).head?) :
    Scanned text position upto { reading with level } := by
  have hopen : ∀ k, i ≤ k → k ≤ upto → openAt text k = openAt text i := fun k hk hku =>
    openAt_eq_of_forall hk fun j hj hjk => hb j hj (Nat.lt_of_lt_of_le hjk hku)
  have hup := hopen upto hle (Nat.le_refl upto)
  refine ⟨?_, ?_, ?_, ?_, ?_, ?_, ?_⟩
  · rw [hup]
    exact h.described.replace hd
  · intro j hj
    by_cases hij : i ≤ j
    · exact he j hij hj
    · exact h.unended j (Nat.lt_of_not_le hij)
  · intro j hj hc
    by_cases hij : i ≤ j
    · exact absurd hc (hb j hij hj).2
    · exact h.opened j (Nat.lt_of_not_le hij) hc
  · intro j hj
    by_cases hij : i ≤ j
    · rw [depthAt, hopen j hij hj]
      exact h.shallow i (Nat.le_refl i)
    · exact h.shallow j (Nat.le_of_not_le hij)
  · intro j k hj hk hs hkey
    by_cases hik : i ≤ j ∨ i ≤ k
    · exact hm j k hj hk hik hs hkey
    · exact h.unmixed j k (by omega) (by omega) hs hkey
  · intro p hp hc
    by_cases hip : i ≤ p
    · exact absurd hc (hb p hip hp).1
    · rcases h.filled p (Nat.lt_of_not_le hip) hc with ho | ⟨j, hj, ht⟩
      · exact .inl (hup ▸ ho)
      · exact .inr ⟨j, Nat.lt_of_lt_of_le hj hle, ht⟩
  · intro k hk hkey
    by_cases hik : i ≤ k
    · exact hw k hik hk hkey
    · exact Nat.le_trans (h.whole k (Nat.lt_of_not_le hik) hkey) hle

theorem Scanned.push (h : Scanned text position i reading) (hc : text[i]? = some c)
    (hm : isMark c = false) (hk : ¬KeywordAt text i) :
    Scanned text position (i + 1) { reading with level := reading.level.push c } := by
  obtain ⟨ho, hcl, hs⟩ := isMark_eq_false_iff.1 hm
  have hi : ∀ k, i ≤ k → k < i + 1 → k = i := fun k _ _ => by omega
  refine h.advance (Nat.le_succ i) ?_ ?_ ?_ ?_ (h.described.innermost.push hc hm ?_)
  · intro k hk hku
    rw [hi k hk hku, hc]
    simpa using And.intro ho hcl
  · intro k hk hku he
    rw [hi k hk hku, EndsAt, hc] at he
    rcases he with ⟨he, -⟩ | ⟨he, -⟩
    · exact hs (Option.some.inj he)
    · exact hcl (Option.some.inj he)
  · intro k hik hku he
    exact absurd (hi k hik hku ▸ he) hk
  · rintro j k hj hku (hij | hik) hsj hkey
    · rw [hi j hij hj, hc] at hsj
      exact absurd (Option.some.inj hsj) hs
    · exact absurd (hi k hik hku ▸ hkey) hk
  · intro k hki he
    rcases Nat.lt_or_eq_of_le hki with hlt | rfl
    · exact h.whole k hlt he
    · exact absurd he hk

theorem Scanned.semicolon (h : Scanned text position i reading) (hc : text[i]? = some ';')
    (hn : reading.enclosing ≠ []) (hl : reading.level.connect .or (position + i) = .ok level) :
    Scanned text position (i + 1) { reading with level } := by
  have hi : ∀ k, i ≤ k → k < i + 1 → k = i := fun k _ _ => by omega
  have hk : ¬KeywordAt text i := not_keywordAt_of_isMark hc rfl
  refine h.advance (Nat.le_succ i) ?_ ?_ ?_ ?_ (h.described.innermost.semicolon hc hl)
  · intro k hk hku
    rw [hi k hk hku, hc]
    decide
  · intro k hk hku he
    rw [hi k hk hku, EndsAt, hc] at he
    rcases he with ⟨-, hz⟩ | ⟨he, -⟩
    · exact hn (h.enclosing_eq_nil_iff.2 (List.length_eq_zero_iff.1 hz))
    · cases he
  · intro k hik hku he
    exact absurd (hi k hik hku ▸ he) hk
  · rintro j k hj hku (hij | hik) - hkey heq
    · obtain rfl := hi j hij hj
      have hlt : k < j := Nat.lt_of_le_of_ne (Nat.le_of_lt_succ hku) (fun he => hk (he ▸ hkey))
      have ha := h.described.innermost.and_iff.2 ⟨k, hlt, hkey, heq.symm⟩
      rw [Level.connect_eq_ok_iff, ha] at hl
      cases hl.1
    · exact absurd (hi k hik hku ▸ hkey) hk

theorem Scanned.keyword (h : Scanned text position i reading) (hk : KeywordAt text i)
    (hl : reading.level.connect .and (position + i) = .ok level) :
    Scanned text position (i + 3) { reading with level } := by
  have hmark : ∀ k, i ≤ k → k < i + 3 →
      text[k]? ≠ some '(' ∧ text[k]? ≠ some ')' ∧ text[k]? ≠ some ';' :=
    fun _ => hk.getElem?_ne
  have hi : ∀ k, i ≤ k → k < i + 3 → KeywordAt text k → k = i := by
    intro k hik hku hkey
    obtain rfl | rfl | rfl : k = i ∨ k = i + 1 ∨ k = i + 2 := by omega
    · rfl
    · exact absurd hkey hk.not_succ.1
    · exact absurd hkey hk.not_succ.2
  refine h.advance (by omega) ?_ ?_ ?_ ?_ (h.described.innermost.keyword hk hl)
  · intro k hik hku
    exact ⟨(hmark k hik hku).1, (hmark k hik hku).2.1⟩
  · rintro k hik hku (⟨he, -⟩ | ⟨he, -⟩)
    · exact (hmark k hik hku).2.2 he
    · exact (hmark k hik hku).2.1 he
  · intro k hik hku hkey
    exact Nat.le_of_eq (congrArg (· + 3) (hi k hik hku hkey))
  · intro j k hj hku hor hs hkey heq
    have hji : j < i := Nat.lt_of_not_le fun hij => (hmark j hij hj).2.2 hs
    obtain rfl := hi k (hor.resolve_left (Nat.not_le_of_lt hji)) hku hkey
    have ha := h.described.innermost.or_iff.2 ⟨j, hji, hs, heq⟩
    rw [Level.connect_eq_ok_iff, ha] at hl
    cases hl.1

theorem Scanned.opening (h : Scanned text position i reading) (hc : text[i]? = some '(')
    (hd : reading.enclosing.length < maxDepth) :
    Scanned text position (i + 1) ⟨{}, (reading.level, position + i) :: reading.enclosing⟩ := by
  have ho := openAt_succ_of_opening hc
  have hkey : ¬KeywordAt text i := not_keywordAt_of_isMark hc rfl
  have hends : ¬EndsAt text i := by
    rw [EndsAt, hc]
    simp
  refine ⟨?_, ?_, ?_, ?_, ?_, ?_, ?_⟩
  · rw [ho]
    exact ⟨Level.describes_empty i, rfl, h.described⟩
  · exact Nat.forall_lt_succ_right.2 ⟨h.unended, hends⟩
  · exact Nat.forall_lt_succ_right.2 ⟨h.opened, fun he => by rw [hc] at he; cases he⟩
  · intro j hj
    rcases Nat.lt_or_eq_of_le hj with hj | rfl
    · exact h.shallow j (Nat.le_of_lt_succ hj)
    · rw [depthAt, ho, List.length_cons, ← depthAt, ← h.enclosing_length]
      exact hd
  · intro j k hj hk hs hkeyk
    have hji : j ≠ i := fun he => by rw [he, hc] at hs; cases hs
    have hki : k ≠ i := fun he => hkey (he ▸ hkeyk)
    exact h.unmixed j k (by omega) (by omega) hs hkeyk
  · intro p hp hcp
    rw [ho]
    rcases Nat.lt_or_eq_of_le (Nat.le_of_lt_succ hp) with hp | rfl
    · rcases h.filled p hp hcp with hm | ⟨j, hj, ht⟩
      · exact .inl (List.mem_cons_of_mem i hm)
      · exact .inr ⟨j, Nat.lt_succ_of_lt hj, ht⟩
    · exact .inl List.mem_cons_self
  · intro k hk hkeyk
    rcases Nat.lt_or_eq_of_le (Nat.le_of_lt_succ hk) with hk | rfl
    · exact Nat.le_succ_of_le (h.whole k hk hkeyk)
    · exact absurd hkeyk hkey

variable {around : Level} {opened : Nat} {inner : Condition}

theorem Scanned.exists_openAt_eq (h : Scanned text position i reading)
    (he : reading.enclosing = (around, opened) :: enclosing) :
    ∃ p outer, openAt text i = p :: outer ∧ opened = position + p ∧
      reading.level.Describes text i (some p) ∧
      Described text position p around enclosing outer := by
  have hd := h.described
  rw [he] at hd
  cases ho : openAt text i with
  | nil => rw [ho] at hd; exact hd.elim
  | cons p outer =>
    rw [ho] at hd
    exact ⟨p, outer, rfl, hd.2.1, hd.1, hd.2.2⟩

theorem Scanned.filled_of_closing {p q : Nat} {outer : List Nat}
    (h : Scanned text position i reading) (hc : text[i]? = some ')')
    (ho : openAt text i = p :: outer) (hd : reading.level.Describes text i (some p))
    (hcl : reading.level.close (position + i) = .ok inner) (hq : q < i + 1)
    (hcq : text[q]? = some '(') : q ∈ outer ∨ ∃ j < i, TextAt text j ∧ q ∈ openAt text j := by
  have hqi : q ≠ i := fun he => by rw [he, hc] at hcq; cases hcq
  rcases h.filled q (by omega) hcq with hm | hj
  · rw [ho] at hm
    rcases List.mem_cons.1 hm with rfl | hm
    · obtain ⟨j, hj, ht, hp⟩ := hd.content_iff.1 (Level.exists_close_iff.1 ⟨inner, hcl⟩)
      exact .inr ⟨j, hj, ht, hp q rfl⟩
    · exact .inl hm
  · exact .inr hj

theorem Scanned.closing (h : Scanned text position i reading) (hc : text[i]? = some ')')
    (he : reading.enclosing = (around, opened) :: enclosing)
    (hcl : reading.level.close (position + i) = .ok inner) (hn : enclosing ≠ []) :
    Scanned text position (i + 1) ⟨around.enter inner, enclosing⟩ := by
  obtain ⟨p, outer, ho, -, hd, hds⟩ := h.exists_openAt_eq he
  have hs : openAt text (i + 1) = outer := by rw [openAt_succ_of_closing hc, ho, List.tail_cons]
  have hkey : ¬KeywordAt text i := not_keywordAt_of_isMark hc rfl
  have hlen : enclosing.length = outer.length := hds.length_eq
  have hpos : 0 < enclosing.length := List.length_pos_iff.2 hn
  refine ⟨?_, ?_, ?_, ?_, ?_, ?_, ?_⟩
  · rw [hs]
    exact hds.replace (hds.innermost.enter hd ho hcl)
  · refine Nat.forall_lt_succ_right.2 ⟨h.unended, ?_⟩
    rintro (⟨he, -⟩ | ⟨-, hz⟩)
    · rw [hc] at he
      cases he
    · rw [depthAt, ho, List.length_cons] at hz
      omega
  · exact Nat.forall_lt_succ_right.2 ⟨h.opened, fun _ => by rw [ho]; nofun⟩
  · intro j hj
    rcases Nat.lt_or_eq_of_le hj with hj | rfl
    · exact h.shallow j (Nat.le_of_lt_succ hj)
    · have hi := h.shallow i (Nat.le_refl i)
      rw [depthAt, ho, List.length_cons] at hi
      rw [depthAt, hs]
      omega
  · intro j k hj hk hsj hkeyk
    have hji : j ≠ i := fun he => by rw [he, hc] at hsj; cases hsj
    have hki : k ≠ i := fun he => hkey (he ▸ hkeyk)
    exact h.unmixed j k (by omega) (by omega) hsj hkeyk
  · intro q hq hcq
    rw [hs]
    rcases h.filled_of_closing hc ho hd hcl hq hcq with hm | ⟨j, hj, ht⟩
    · exact .inl hm
    · exact .inr ⟨j, Nat.lt_succ_of_lt hj, ht⟩
  · intro k hk hkeyk
    rcases Nat.lt_or_eq_of_le (Nat.le_of_lt_succ hk) with hk | rfl
    · exact Nat.le_succ_of_le (h.whole k hk hkeyk)
    · exact absurd hkeyk hkey

theorem Scanned.onToken (h : Scanned text position i reading) (hc : text[i]? = some c)
    (hk : ¬KeywordAt text i)
    (ht : reading.onToken (position + i) (.ofChar c) = .ok (.more next)) :
    Scanned text position (i + 1) next := by
  unfold Token.ofChar at ht
  split at ht
  · obtain ⟨hd, hn⟩ := opening_cases ht
    cases hn
    exact h.opening hc hd
  · obtain ⟨around, opened, enclosing, inner, he, hcl, ⟨hn, hp⟩ | ⟨-, _, -, hp⟩⟩ :=
      closing_cases ht
    · cases hp
      exact h.closing hc he hcl hn
    · cases hp
  · obtain ⟨hn, level, hl, hp⟩ | ⟨-, _, -, hp⟩ := semicolon_cases ht
    · cases hp
      exact h.semicolon hc hn hl
    · cases hp
  · next hob hcb hsb =>
    cases ht
    exact h.push hc (isMark_eq_false_iff.2 ⟨hob, hcb, hsb⟩) hk

end Reading

end ConditionalTags.Condition
