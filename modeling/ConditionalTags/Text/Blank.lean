/-! # Blank characters

The characters with the Unicode property White_Space, and text without the blanks at its two ends.
Space, tab and the line breaks are among them, and so are the no-break and ideographic spaces.
-/
namespace ConditionalTags.Text

/-- First and last code point of each range of blanks, in ascending order. -/
def blankRanges : List (Nat × Nat) :=
  [(0x09, 0x0D), (0x20, 0x20), (0x85, 0x85), (0xA0, 0xA0), (0x1680, 0x1680), (0x2000, 0x200A),
    (0x2028, 0x2029), (0x202F, 0x202F), (0x205F, 0x205F), (0x3000, 0x3000)]

def isBlank (c : Char) : Bool :=
  blankRanges.any fun range => decide (range.1 ≤ c.toNat) && decide (c.toNat ≤ range.2)

def trimStart (text : List Char) : List Char :=
  text.dropWhile isBlank

def trim (text : List Char) : List Char :=
  (trimStart (trimStart text).reverse).reverse

def trimmed (text : String) : String :=
  String.ofList (trim text.toList)

theorem trimStart_eq_nil_iff (text : List Char) :
    trimStart text = [] ↔ ∀ c ∈ text, isBlank c = true := by
  induction text with
  | nil => simp [trimStart]
  | cons c rest ih =>
    by_cases hc : isBlank c = true
    · rw [trimStart, List.dropWhile_cons, if_pos hc, List.forall_mem_cons]
      exact ih.trans (and_iff_right hc).symm
    · simp [trimStart, hc]

/-- What is left after the blanks in front starts with no blank. -/
theorem trimStart_eq_nil_of_forall (text : List Char)
    (h : ∀ c ∈ trimStart text, isBlank c = true) : trimStart text = [] := by
  induction text with
  | nil => rfl
  | cons c rest ih =>
    by_cases hc : isBlank c = true
    · simp only [trimStart, List.dropWhile_cons, hc] at h ⊢
      exact ih h
    · simp [trimStart, hc] at h

theorem trim_eq_nil_iff (text : List Char) : trim text = [] ↔ ∀ c ∈ text, isBlank c = true := by
  rw [← trimStart_eq_nil_iff, trim, List.reverse_eq_nil_iff, trimStart_eq_nil_iff]
  constructor
  · exact fun h => trimStart_eq_nil_of_forall text fun c hc => h c (List.mem_reverse.2 hc)
  · intro h c hc
    simp [h] at hc

end ConditionalTags.Text
