import ConditionalTags.Proofs.Token

/-! # Positions in a condition text

Everything here is said of positions in the whole text, without any reading: which brackets are open
in front of a position, where a keyword stands, which characters are text, and where a condition that
begins the text stops.
-/
namespace ConditionalTags.Condition
open Text

/-- The positions of the brackets that `past` leaves open, the innermost first. `past` has its newest
character first. -/
def openBrackets : List Char → List Nat
  | [] => []
  | '(' :: past => past.length :: openBrackets past
  | ')' :: past => (openBrackets past).tail
  | _ :: past => openBrackets past

/-- The brackets that are open in front of position `i`. The first of them is the pair that the
position belongs to. -/
def openAt (text : List Char) (i : Nat) : List Nat :=
  openBrackets (text.take i).reverse

def depthAt (text : List Char) (i : Nat) : Nat :=
  (openAt text i).length

def KeywordAt (text : List Char) (i : Nat) : Prop :=
  Keyword.starts (text.take i).getLast? (text.drop i) = true

/-- The character at position `i` is neither blank nor a mark nor a letter of a keyword. -/
def TextAt (text : List Char) (i : Nat) : Prop :=
  ∃ c, text[i]? = some c ∧ isMark c = false ∧ isBlank c = false ∧
    ∀ k, KeywordAt text k → ¬(k ≤ i ∧ i < k + 3)

/-- A semicolon outside all brackets ends the condition, and so does the closing bracket of an
outermost pair. -/
def EndsAt (text : List Char) (i : Nat) : Prop :=
  text[i]? = some ';' ∧ depthAt text i = 0 ∨ text[i]? = some ')' ∧ depthAt text i = 1

instance (text : List Char) : DecidablePred (EndsAt text) := fun _ =>
  inferInstanceAs (Decidable (_ ∨ _))

/-- The first position that ends the condition, or else where the text ends. -/
def stopIndex (text : List Char) : Nat :=
  (List.range text.length).findIdx fun i => decide (EndsAt text i)

variable {text : List Char} {i j p : Nat} {c : Char} {outer : List Nat}

theorem reverse_take_succ (h : text[i]? = some c) :
    (text.take (i + 1)).reverse = c :: (text.take i).reverse := by
  rw [List.take_add_one, h, Option.toList_some, List.reverse_append]
  rfl

theorem lt_length_of_getElem? (h : text[i]? = some c) : i < text.length :=
  (List.getElem?_eq_some_iff.1 h).1

theorem openAt_succ_of_opening (h : text[i]? = some '(') :
    openAt text (i + 1) = i :: openAt text i := by
  have hl := lt_length_of_getElem? h
  rw [openAt, reverse_take_succ h, openBrackets, List.length_reverse, List.length_take,
    Nat.min_eq_left (Nat.le_of_lt hl)]
  rfl

theorem openAt_succ_of_closing (h : text[i]? = some ')') :
    openAt text (i + 1) = (openAt text i).tail := by
  rw [openAt, reverse_take_succ h]
  rfl

theorem openAt_succ_of_ne (h : text[i]? = some c) (ho : c ≠ '(') (hc : c ≠ ')') :
    openAt text (i + 1) = openAt text i := by
  rw [openAt, reverse_take_succ h, openBrackets]
  · rfl
  · exact ho
  · exact hc

theorem openAt_succ_of_none (h : text[i]? = none) : openAt text (i + 1) = openAt text i := by
  rw [openAt, List.take_add_one, h, Option.toList_none, List.append_nil]
  rfl

theorem openAt_succ_cases (text : List Char) (i : Nat) :
    (text[i]? = some '(' ∧ openAt text (i + 1) = i :: openAt text i) ∨
    (text[i]? = some ')' ∧ openAt text (i + 1) = (openAt text i).tail) ∨
    (text[i]? ≠ some '(' ∧ text[i]? ≠ some ')' ∧ openAt text (i + 1) = openAt text i) := by
  cases h : text[i]? with
  | none => exact .inr (.inr ⟨nofun, nofun, openAt_succ_of_none h⟩)
  | some c =>
    by_cases ho : c = '('
    · subst ho
      exact .inl ⟨rfl, openAt_succ_of_opening h⟩
    · by_cases hc : c = ')'
      · subst hc
        exact .inr (.inl ⟨rfl, openAt_succ_of_closing h⟩)
      · exact .inr (.inr ⟨by simpa using ho, by simpa using hc, openAt_succ_of_ne h ho hc⟩)

theorem getElem?_of_mem_openAt (h : p ∈ openAt text i) : p < i ∧ text[p]? = some '(' := by
  induction i with
  | zero => cases h
  | succ i ih =>
    rcases openAt_succ_cases text i with ⟨ho, he⟩ | ⟨-, he⟩ | ⟨-, -, he⟩
    · rw [he] at h
      rcases List.mem_cons.1 h with rfl | h
      · exact ⟨Nat.lt_succ_self p, ho⟩
      · exact ⟨Nat.lt_succ_of_lt (ih h).1, (ih h).2⟩
    · rw [he] at h
      have hm := ih (List.mem_of_mem_tail h)
      exact ⟨Nat.lt_succ_of_lt hm.1, hm.2⟩
    · rw [he] at h
      exact ⟨Nat.lt_succ_of_lt (ih h).1, (ih h).2⟩

theorem openAt_descending (text : List Char) (i : Nat) : (openAt text i).Pairwise (· > ·) := by
  induction i with
  | zero => exact List.Pairwise.nil
  | succ i ih =>
    rcases openAt_succ_cases text i with ⟨-, he⟩ | ⟨-, he⟩ | ⟨-, -, he⟩
    · rw [he]
      exact List.Pairwise.cons (fun p hp => (getElem?_of_mem_openAt hp).1) ih
    · rw [he]
      exact ih.sublist (List.tail_sublist _)
    · rw [he]
      exact ih

theorem innermost_bracket (h : openAt text i = p :: outer) : p < i ∧ text[p]? = some '(' :=
  getElem?_of_mem_openAt (h ▸ List.mem_cons_self)

theorem lt_of_mem_outer {q : Nat} (h : openAt text i = p :: outer) (hq : q ∈ outer) : q < p :=
  (List.pairwise_cons.1 (h ▸ openAt_descending text i)).1 q hq

theorem not_mem_outer (h : openAt text i = p :: outer) : p ∉ outer :=
  fun hm => Nat.lt_irrefl p (lt_of_mem_outer h hm)

theorem not_mem_openAt_succ (hc : text[i]? = some ')') (ho : openAt text i = p :: outer) :
    p ∉ openAt text (i + 1) := by
  rw [openAt_succ_of_closing hc, ho]
  exact not_mem_outer ho

/-- A bracket that is open at `i` has been open ever since, with all the brackets around it. -/
theorem suffix_openAt (h : p :: outer <:+ openAt text i) (hp : p < j) (hj : j ≤ i) :
    p :: outer <:+ openAt text j := by
  induction i with
  | zero => omega
  | succ i ih =>
    rcases Nat.lt_or_eq_of_le hj with hj | rfl
    · refine ih ?_ (Nat.le_of_lt_succ hj)
      rcases openAt_succ_cases text i with ⟨-, he⟩ | ⟨-, he⟩ | ⟨-, -, he⟩
      · rw [he] at h
        rcases List.suffix_cons_iff.1 h with he | h
        · have hi := (List.cons.inj he).1
          omega
        · exact h
      · rw [he] at h
        exact h.trans (List.tail_suffix _)
      · rwa [he] at h
    · exact h

theorem not_mem_openAt (h : p ∉ openAt text i) (hp : p < i) (hj : i ≤ j) : p ∉ openAt text j := by
  induction hj with
  | refl => exact h
  | @step j hj ih =>
    intro hm
    have hle : i ≤ j := hj
    rcases openAt_succ_cases text j with ⟨-, he⟩ | ⟨-, he⟩ | ⟨-, -, he⟩
    · rw [he] at hm
      rcases List.mem_cons.1 hm with rfl | hm
      · omega
      · exact ih hm
    · rw [he] at hm
      exact ih (List.mem_of_mem_tail hm)
    · rw [he] at hm
      exact ih hm

theorem head?_openAt_ne (h : openAt text i = p :: outer) (hp : p < j) (hj : j ≤ i) :
    (openAt text j).head? ≠ outer.head? := by
  have hs : p :: outer <:+ openAt text i := h ▸ List.suffix_rfl
  obtain ⟨inner, he⟩ := suffix_openAt hs hp hj
  have hd := openAt_descending text j
  rw [← he] at hd ⊢
  cases outer with
  | nil => cases inner <;> simp
  | cons q outer =>
    rw [List.pairwise_append] at hd
    have hpq : p > q := (List.pairwise_cons.1 hd.2.1).1 q List.mem_cons_self
    cases inner with
    | nil =>
      intro hh
      cases hh
      omega
    | cons x inner =>
      have hx : x > q := hd.2.2 x List.mem_cons_self q (by simp)
      intro hh
      cases hh
      omega

theorem drop_eq_cons (h : text[i]? = some c) : text.drop i = c :: text.drop (i + 1) := by
  obtain ⟨hl, rfl⟩ := List.getElem?_eq_some_iff.1 h
  exact List.drop_eq_getElem_cons hl

theorem getLast?_take_succ (h : text[i]? = some c) : (text.take (i + 1)).getLast? = some c := by
  rw [List.take_add_one, h]
  exact List.getLast?_concat

theorem getElem?_of_drop_eq {front rest : List Char} (h : text.drop i = front ++ rest)
    (hj : j < front.length) : text[i + j]? = front[j]? := by
  rw [← List.getElem?_drop, h, List.getElem?_append_left hj]

theorem KeywordAt.letters (h : KeywordAt text i) : ∃ a n d, text[i]? = some a ∧
    text[i + 1]? = some n ∧ text[i + 2]? = some d ∧ Keyword.spells a n d = true := by
  rw [KeywordAt, Keyword.starts, Bool.and_eq_true, Keyword.leads_eq_true_iff] at h
  obtain ⟨-, a, n, d, x, rest, he, hs, -⟩ := h
  have hd : text.drop i = [a, n, d] ++ x :: rest := he
  have hf : ∀ j < 3, text[i + j]? = [a, n, d][j]? := fun _ hj => getElem?_of_drop_eq hd hj
  exact ⟨a, n, d, hf 0 (by decide), hf 1 (by decide), hf 2 (by decide), hs⟩

theorem KeywordAt.toLower_eq (h : KeywordAt text i) :
    (∀ c, text[i]? = some c → c.toLower = 'a') ∧ (∀ c, text[i + 1]? = some c → c.toLower = 'n') ∧
      ∀ c, text[i + 2]? = some c → c.toLower = 'd' := by
  obtain ⟨a, n, d, ha, hn, hd, hs⟩ := h.letters
  obtain ⟨hla, hln, hld⟩ := Keyword.spells_eq_true_iff.1 hs
  refine ⟨fun c hc => ?_, fun c hc => ?_, fun c hc => ?_⟩
  · cases hc.symm.trans ha
    exact hla
  · cases hc.symm.trans hn
    exact hln
  · cases hc.symm.trans hd
    exact hld

theorem KeywordAt.starts {a n d : Char} (h : KeywordAt text i) (ha : text[i]? = some a)
    (hn : text[i + 1]? = some n) (hd : text[i + 2]? = some d) :
    Keyword.starts (text.take i).reverse.head? (a :: n :: d :: text.drop (i + 3)) = true := by
  rw [List.head?_reverse, ← drop_eq_cons hd, ← drop_eq_cons hn, ← drop_eq_cons ha]
  exact h

theorem not_keywordAt_of_ne (h : text[i]? = some c) (hc : c.toLower ≠ 'a') :
    ¬KeywordAt text i := by
  rw [KeywordAt, drop_eq_cons h, Keyword.starts_eq_false_of_ne hc]
  exact Bool.false_ne_true

theorem not_keywordAt_of_isMark (h : text[i]? = some c) (hc : isMark c = true) :
    ¬KeywordAt text i := by
  rw [KeywordAt, drop_eq_cons h, starts_of_isMark hc]
  exact Bool.false_ne_true

/-- Keywords do not overlap. -/
theorem KeywordAt.not_succ (h : KeywordAt text i) :
    ¬KeywordAt text (i + 1) ∧ ¬KeywordAt text (i + 2) := by
  obtain ⟨a, n, d, -, hn, hd, hs⟩ := h.letters
  obtain ⟨-, hln, hld⟩ := Keyword.spells_eq_true_iff.1 hs
  exact ⟨not_keywordAt_of_ne hn (by rw [hln]; decide),
    not_keywordAt_of_ne hd (by rw [hld]; decide)⟩

theorem KeywordAt.unmarked (h : KeywordAt text i) (hi : i ≤ j) (hj : j < i + 3) :
    ∃ c, text[j]? = some c ∧ isMark c = false := by
  obtain ⟨a, n, d, ha, hn, hd, hs⟩ := h.letters
  obtain ⟨hla, hln, hld⟩ := Keyword.spells_eq_true_iff.1 hs
  obtain rfl | rfl | rfl : j = i ∨ j = i + 1 ∨ j = i + 2 := by omega
  · exact ⟨a, ha, isMark_eq_false_of_toLower (by rw [hla]; decide)⟩
  · exact ⟨n, hn, isMark_eq_false_of_toLower (by rw [hln]; decide)⟩
  · exact ⟨d, hd, isMark_eq_false_of_toLower (by rw [hld]; decide)⟩

theorem openAt_eq_of_forall (hi : i ≤ j)
    (h : ∀ k, i ≤ k → k < j → text[k]? ≠ some '(' ∧ text[k]? ≠ some ')') :
    openAt text j = openAt text i := by
  induction hi with
  | refl => rfl
  | @step j hij ih =>
    have hj := h j hij (Nat.lt_succ_self j)
    rcases openAt_succ_cases text j with ⟨ho, -⟩ | ⟨hc, -⟩ | ⟨-, -, he⟩
    · exact absurd ho hj.1
    · exact absurd hc hj.2
    · exact he.trans (ih fun k hk hkj => h k hk (Nat.lt_succ_of_lt hkj))

theorem KeywordAt.getElem?_ne (h : KeywordAt text i) (hi : i ≤ j) (hj : j < i + 3) :
    text[j]? ≠ some '(' ∧ text[j]? ≠ some ')' ∧ text[j]? ≠ some ';' := by
  obtain ⟨c, hc, hm⟩ := h.unmarked hi hj
  rw [hc]
  simpa using isMark_eq_false_iff.1 hm

theorem KeywordAt.openAt_eq (h : KeywordAt text i) (hi : i ≤ j) (hj : j ≤ i + 3) :
    openAt text j = openAt text i :=
  openAt_eq_of_forall hi fun _ hik hkj =>
    have hne := h.getElem?_ne hik (Nat.lt_of_lt_of_le hkj hj)
    ⟨hne.1, hne.2.1⟩

theorem stopIndex_le (text : List Char) : stopIndex text ≤ text.length := by
  refine Nat.le_trans List.findIdx_le_length ?_
  exact Nat.le_of_eq List.length_range

theorem endsAt_lt (h : EndsAt text i) : i < text.length := by
  rcases h with ⟨h, -⟩ | ⟨h, -⟩ <;> exact lt_length_of_getElem? h

theorem not_endsAt_of_lt (h : i < stopIndex text) : ¬EndsAt text i := by
  have hn := List.not_of_lt_findIdx h
  simpa using hn

theorem endsAt_stopIndex (h : stopIndex text < text.length) : EndsAt text (stopIndex text) := by
  have hf : (List.range text.length).findIdx (fun i => decide (EndsAt text i)) <
      (List.range text.length).length := by rwa [List.length_range]
  simpa [stopIndex] using List.findIdx_getElem (w := hf)

theorem le_stopIndex (hl : i ≤ text.length) (h : ∀ j < i, ¬EndsAt text j) :
    i ≤ stopIndex text := by
  apply Nat.le_of_not_lt
  intro hs
  exact h _ hs (endsAt_stopIndex (Nat.lt_of_lt_of_le hs hl))

theorem stopIndex_eq (he : EndsAt text i) (h : ∀ j < i, ¬EndsAt text j) : stopIndex text = i := by
  apply Nat.le_antisymm
  · exact Nat.le_of_not_lt fun hs => not_endsAt_of_lt hs he
  · exact le_stopIndex (Nat.le_of_lt (endsAt_lt he)) h

end ConditionalTags.Condition
