import ConditionalTags.Condition.Reader

/-! # The tokens of a condition text

Brackets, semicolons and keywords are the tokens that shape a condition; every other character is a
token of text. Whether three letters are the keyword is seen from the text alone, from the character
in front of them and from the one behind.
-/
namespace ConditionalTags

namespace Keyword

/-- Nothing, a space or a bracket stands in front of the keyword. -/
def mayFollow : Option Char → Bool
  | some c => c == ' ' || c == '(' || c == ')'
  | none => true

def leads : List Char → Bool
  | a :: n :: d :: rest => spells a n d && mayPrecede rest.head?
  | _ => false

/-- The keyword stands at the head of `text`; `previous` is the character in front of `text`. -/
def starts (previous : Option Char) (text : List Char) : Bool :=
  mayFollow previous && leads text

theorem spells_eq_true_iff {a n d : Char} :
    spells a n d = true ↔ a.toLower = 'a' ∧ n.toLower = 'n' ∧ d.toLower = 'd' := by
  simp [spells, and_assoc]

theorem leads_eq_true_iff {text : List Char} :
    leads text = true ↔ ∃ a n d x rest, text = a :: n :: d :: x :: rest ∧
      spells a n d = true ∧ (x = ' ' ∨ x = '(') := by
  constructor
  · intro h
    match text with
    | [] | [_] | [_, _] => cases h
    | [a, n, d] => simp [leads, mayPrecede] at h
    | a :: n :: d :: x :: rest =>
      simp only [leads, mayPrecede, List.head?_cons, Bool.and_eq_true, Bool.or_eq_true,
        beq_iff_eq] at h
      exact ⟨a, n, d, x, rest, rfl, h⟩
  · rintro ⟨a, n, d, x, rest, rfl, hs, hx⟩
    simp [leads, mayPrecede, hs, hx]

/-- A keyword that begins in `text` is inside it, or fills it up to its end: no letter of it is
further right. -/
theorem leads_append_cons {text rest : List Char} {c : Char} (hn : text ≠ [])
    (hcn : c.toLower ≠ 'n') (hcd : c.toLower ≠ 'd') : leads (text ++ c :: rest) = true ↔
      leads text = true ∨
        ∃ a n d, text = [a, n, d] ∧ spells a n d = true ∧ (c = ' ' ∨ c = '(') := by
  constructor
  · intro h
    obtain ⟨a, n, d, x, after, he, hs, hx⟩ := leads_eq_true_iff.1 h
    obtain ⟨-, hsn, hsd⟩ := spells_eq_true_iff.1 hs
    rcases text with _ | ⟨_, _ | ⟨_, _ | ⟨_, _ | ⟨y, last⟩⟩⟩⟩
    · exact absurd rfl hn
    · obtain ⟨-, rfl, -⟩ : _ = a ∧ c = n ∧ rest = d :: x :: after := by simpa using he
      exact absurd hsn hcn
    · obtain ⟨-, -, rfl, -⟩ : _ = a ∧ _ = n ∧ c = d ∧ rest = x :: after := by simpa using he
      exact absurd hsd hcd
    · obtain ⟨rfl, rfl, rfl, rfl, -⟩ : _ = a ∧ _ = n ∧ _ = d ∧ c = x ∧ rest = after := by
        simpa using he
      exact .inr ⟨_, _, _, rfl, hs, hx⟩
    · obtain ⟨rfl, rfl, rfl, rfl, -⟩ :
          _ = a ∧ _ = n ∧ _ = d ∧ y = x ∧ last ++ c :: rest = after := by simpa using he
      exact .inl (leads_eq_true_iff.2 ⟨_, _, _, y, last, rfl, hs, hx⟩)
  · rintro (h | ⟨a, n, d, rfl, hs, hc⟩)
    · obtain ⟨a, n, d, x, after, rfl, hs, hx⟩ := leads_eq_true_iff.1 h
      exact leads_eq_true_iff.2 ⟨a, n, d, x, after ++ c :: rest, rfl, hs, hx⟩
    · exact leads_eq_true_iff.2 ⟨a, n, d, c, rest, rfl, hs, hc⟩

theorem starts_eq_false_of_ne {c : Char} (h : c.toLower ≠ 'a') (previous : Option Char)
    (rest : List Char) : starts previous (c :: rest) = false := by
  rw [← Bool.not_eq_true]
  intro hs
  rw [starts, Bool.and_eq_true, leads_eq_true_iff] at hs
  obtain ⟨-, a, n, d, x, rest', he, hl, -⟩ := hs
  obtain ⟨rfl, -⟩ := List.cons.inj he
  exact h (spells_eq_true_iff.1 hl).1

end Keyword

namespace Condition

inductive Token
  | opening
  | closing
  | semicolon
  | keyword
  | text (c : Char)
  deriving DecidableEq, Repr

def Token.ofChar : Char → Token
  | '(' => opening
  | ')' => closing
  | ';' => semicolon
  | c => text c

/-- The characters that are tokens of their own kind. -/
def isMark (c : Char) : Bool :=
  c == '(' || c == ')' || c == ';'

/-- The tokens of `text` with their positions. `position` is that of the first character, and
`previous` the character in front of it. -/
def tokens (previous : Option Char) (position : Nat) : List Char → List (Token × Nat)
  | [] => []
  | a :: n :: d :: rest =>
    if Keyword.starts previous (a :: n :: d :: rest) then
      (.keyword, position) :: tokens (some d) (position + 3) rest
    else (.ofChar a, position) :: tokens (some a) (position + 1) (n :: d :: rest)
  | c :: rest => (.ofChar c, position) :: tokens (some c) (position + 1) rest

variable {previous : Option Char} {position : Nat} {c : Char} {rest : List Char}

@[simp] theorem tokens_nil : tokens previous position [] = [] := rfl

theorem tokens_of_starts {a n d : Char}
    (h : Keyword.starts previous (a :: n :: d :: rest) = true) :
    tokens previous position (a :: n :: d :: rest) =
      (.keyword, position) :: tokens (some d) (position + 3) rest := by
  rw [tokens, if_pos h]

theorem tokens_of_not_starts (h : Keyword.starts previous (c :: rest) = false) :
    tokens previous position (c :: rest) =
      (.ofChar c, position) :: tokens (some c) (position + 1) rest := by
  match rest with
  | [] | [_] => rfl
  | n :: d :: rest => rw [tokens, if_neg (by simp [h])]

theorem isMark_eq_false_iff : isMark c = false ↔ c ≠ '(' ∧ c ≠ ')' ∧ c ≠ ';' := by
  simp [isMark, and_assoc]

theorem isMark_eq_false_of_toLower (h : isMark c.toLower = false) : isMark c = false := by
  rw [← Bool.not_eq_true]
  intro hm
  simp only [isMark, Bool.or_eq_true, beq_iff_eq] at hm
  rcases hm with (rfl | rfl) | rfl <;> exact absurd h (by decide)

theorem Token.ofChar_of_not_isMark (h : isMark c = false) : ofChar c = text c := by
  unfold ofChar
  split <;> first | rfl | exact absurd h (by decide)

theorem starts_of_isMark (h : isMark c = true) (previous : Option Char) (rest : List Char) :
    Keyword.starts previous (c :: rest) = false := by
  simp only [isMark, Bool.or_eq_true, beq_iff_eq] at h
  apply Keyword.starts_eq_false_of_ne
  rcases h with (rfl | rfl) | rfl <;> decide

theorem tokens_of_isMark (h : isMark c = true) :
    tokens previous position (c :: rest) =
      (.ofChar c, position) :: tokens (some c) (position + 1) rest :=
  tokens_of_not_starts (starts_of_isMark h previous rest)

theorem exists_tokens_eq_cons (h : rest ≠ []) (previous : Option Char) (position : Nat) :
    ∃ token more, tokens previous position rest = (token, position) :: more := by
  unfold tokens
  split
  · exact absurd rfl h
  · split <;> exact ⟨_, _, rfl⟩
  · exact ⟨_, _, rfl⟩

theorem position_eq_of_tokens_eq {text other : List Char} {p q : Nat}
    (h : tokens previous p text = tokens previous q other)
    (hl : p + text.length = q + other.length) : p = q := by
  by_cases ht : text = []
  · by_cases ho : other = []
    · rw [ht, ho] at hl
      exact hl
    · obtain ⟨token, more, he⟩ := exists_tokens_eq_cons ho previous q
      rw [ht, tokens_nil, he] at h
      cases h
  · obtain ⟨token, more, he⟩ := exists_tokens_eq_cons ht previous p
    by_cases ho : other = []
    · rw [ho, tokens_nil, he] at h
      cases h
    · obtain ⟨token', more', he'⟩ := exists_tokens_eq_cons ho previous q
      rw [he, he'] at h
      exact (Prod.mk.inj (List.cons.inj h).1).2

/-- Text is taken token by token: a keyword at once, everything else by the character. -/
@[elab_as_elim]
theorem token_induct {P : Option Char → List Char → Prop} (nil : ∀ previous, P previous [])
    (keyword : ∀ previous a n d rest, Keyword.starts previous (a :: n :: d :: rest) = true →
      P (some d) rest → P previous (a :: n :: d :: rest))
    (char : ∀ previous c rest, Keyword.starts previous (c :: rest) = false →
      P (some c) rest → P previous (c :: rest))
    (previous : Option Char) (text : List Char) : P previous text := by
  induction hl : text.length using Nat.strongRecOn generalizing previous text with
  | ind length ih =>
    subst hl
    match text with
    | [] => exact nil previous
    | c :: rest =>
      cases hs : Keyword.starts previous (c :: rest) with
      | false => exact char previous c rest hs (ih rest.length (by simp) _ _ rfl)
      | true =>
        have hlead := (Bool.and_eq_true _ _ ▸ hs : _ ∧ _).2
        obtain ⟨a, n, d, x, after, he, -, -⟩ := Keyword.leads_eq_true_iff.1 hlead
        rw [he] at hs ⊢
        exact keyword previous a n d (x :: after) hs (ih _ (by rw [he]; simp) _ _ rfl)

/-- No keyword stands across the place where `after` follows on `before`. -/
def Parted (before after : List Char) : Prop :=
  ∀ text, text ≠ [] → text <:+ before → Keyword.leads (text ++ after) = Keyword.leads text

theorem Parted.suffix {before after text : List Char} (h : Parted before after)
    (hs : text <:+ before) : Parted text after :=
  fun _ hn ht => h _ hn (ht.trans hs)

theorem parted_of_ends (hc : c = ')' ∨ c = ';') (before rest : List Char) :
    Parted before (c :: rest) := by
  intro text hn _
  have hletter : c.toLower ≠ 'n' ∧ c.toLower ≠ 'd' ∧ c ≠ ' ' ∧ c ≠ '(' := by
    rcases hc with rfl | rfl <;> decide
  rw [Bool.eq_iff_iff, Keyword.leads_append_cons hn hletter.1 hletter.2.1]
  constructor
  · rintro (h | ⟨a, n, d, -, -, h | h⟩)
    · exact h
    · exact absurd h hletter.2.2.1
    · exact absurd h hletter.2.2.2
  · exact .inl

theorem tokens_append {before after : List Char} (h : Parted before after) :
    tokens previous position (before ++ after) = tokens previous position before ++
      tokens (before.getLast?.or previous) (position + before.length) after := by
  induction previous, before using token_induct generalizing position with
  | nil previous => simp
  | keyword previous a n d rest hs ih =>
    have ha : Keyword.starts previous (a :: n :: d :: (rest ++ after)) = true := by
      rw [← hs, Keyword.starts, Keyword.starts, ← h (a :: n :: d :: rest) nofun List.suffix_rfl]
      rfl
    have hr : rest <:+ a :: n :: d :: rest := ⟨[a, n, d], rfl⟩
    have hlast : (a :: n :: d :: rest).getLast?.or previous = rest.getLast?.or (some d) := by
      cases rest <;> simp [List.getLast?_cons]
    rw [hlast, tokens_of_starts hs]
    simp only [List.cons_append]
    rw [tokens_of_starts ha, ih (h.suffix hr), List.length_cons, List.length_cons,
      List.length_cons, show position + (rest.length + 1 + 1 + 1) = position + 3 + rest.length by
        omega]
  | char previous c rest hs ih =>
    have ha : Keyword.starts previous (c :: (rest ++ after)) = false := by
      rw [← hs, Keyword.starts, Keyword.starts, ← h (c :: rest) nofun List.suffix_rfl]
      rfl
    have hlast : (c :: rest).getLast?.or previous = rest.getLast?.or (some c) := by
      cases rest <;> simp [List.getLast?_cons]
    rw [hlast, tokens_of_not_starts hs, List.cons_append, tokens_of_not_starts ha,
      ih (h.suffix (List.suffix_cons c rest)), List.length_cons,
      show position + (rest.length + 1) = position + 1 + rest.length by omega, List.cons_append]

end Condition

end ConditionalTags
