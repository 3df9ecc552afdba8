import ConditionalTags.Json.TagObject

/-! # What a string looks like

The grammar of a JSON string: characters as they are, by a letter behind a backslash, or by the
hexadecimal digits of one or two code units. The reader of strings takes what the grammar derives, and
gives the characters that are written there.
-/
namespace ConditionalTags.Tags

def HexDigit (c : Char) (value : Nat) : Prop :=
  "0123456789abcdef".toList[value]? = some c ∨ "0123456789ABCDEF".toList[value]? = some c

/-- Four hexadecimal digits. -/
inductive CodeUnit : List Char → Nat → Prop
  | digits {a b c d : Char} {first second third fourth : Nat} (ha : HexDigit a first)
      (hb : HexDigit b second) (hc : HexDigit c third) (hd : HexDigit d fourth) :
      CodeUnit [a, b, c, d] (first * 4096 + second * 256 + third * 16 + fourth)

/-- The letters behind a backslash, with the characters they stand for. -/
def escapes : List (Char × Char) :=
  [('"', '"'), ('\\', '\\'), ('/', '/'), ('b', '\x08'), ('f', '\x0c'), ('n', '\n'), ('r', '\r'),
    ('t', '\t')]

/-- A character by its number. Beyond the first plane it takes a pair of surrogates. -/
inductive Unicode : List Char → Char → Prop
  | unit {digits : List Char} {c : Char} (h : CodeUnit digits c.toNat) : Unicode digits c
  | pair {first second : List Char} {high low : Nat} {c : Char} (hfirst : CodeUnit first high)
      (hsecond : CodeUnit second low) (hhigh : 0xD800 ≤ high ∧ high < 0xDC00)
      (hlow : 0xDC00 ≤ low ∧ low < 0xE000)
      (hc : c.toNat = 0x10000 + (high - 0xD800) * 0x400 + (low - 0xDC00)) :
      Unicode (first ++ '\\' :: 'u' :: second) c

/-- A character of a string, escaped or not. -/
inductive Character : List Char → Char → Prop
  | plain {c : Char} (hcontrol : 0x20 ≤ c.toNat) (hquote : c ≠ '"') (hslash : c ≠ '\\') :
      Character [c] c
  | escape {name c : Char} (h : (name, c) ∈ escapes) : Character ['\\', name] c
  | unicode {digits : List Char} {c : Char} (h : Unicode digits c) :
      Character ('\\' :: 'u' :: digits) c

inductive Characters : List Char → List Char → Prop
  | nil : Characters [] []
  | cons {part text content : List Char} {c : Char} (h : Character part c)
      (hrest : Characters text content) : Characters (part ++ text) (c :: content)

inductive Quoted : List Char → String → Prop
  | quote {text content : List Char} (h : Characters text content) :
      Quoted ('"' :: text ++ ['"']) (String.ofList content)

variable {text rest : List Char} {c : Char}

instance (c : Char) (value : Nat) : Decidable (HexDigit c value) :=
  inferInstanceAs (Decidable (_ ∨ _))

theorem le_toNat_iff {first last : Char} :
    first ≤ c ∧ c ≤ last ↔ first.toNat ≤ c.toNat ∧ c.toNat ≤ last.toNat := by
  rfl

theorem hexValue?_eq_some_iff {value : Nat} : hexValue? c = some value ↔ HexDigit c value := by
  have hdigits : ∀ code < 58, 48 ≤ code → HexDigit (Char.ofNat code) (code - 48) := by decide
  have hsmall : ∀ code < 103, 97 ≤ code → HexDigit (Char.ofNat code) (code - 97 + 10) := by decide
  have hlarge : ∀ code < 71, 65 ≤ code → HexDigit (Char.ofNat code) (code - 65 + 10) := by decide
  have hback : ∀ value < 16, "0123456789abcdef".toList[value]?.bind hexValue? = some value ∧
      "0123456789ABCDEF".toList[value]?.bind hexValue? = some value := by decide
  constructor
  · intro h
    rw [← Char.ofNat_toNat c]
    simp only [hexValue?, le_toNat_iff] at h
    split at h
    · next hc =>
      rw [← Option.some.inj h]
      exact hdigits c.toNat (Nat.lt_succ_of_le hc.2) hc.1
    · split at h
      · next hc =>
        rw [← Option.some.inj h]
        exact hsmall c.toNat (Nat.lt_succ_of_le hc.2) hc.1
      · split at h
        · next hc =>
          rw [← Option.some.inj h]
          exact hlarge c.toNat (Nat.lt_succ_of_le hc.2) hc.1
        · cases h
  · rintro (h | h)
    · have hv := (hback value (List.getElem?_eq_some_iff.1 h).1).1
      rwa [h] at hv
    · have hv := (hback value (List.getElem?_eq_some_iff.1 h).1).2
      rwa [h] at hv

theorem codeUnit?_eq_some_iff {unit : Nat} :
    codeUnit? text = some (unit, rest) ↔ ∃ digits, CodeUnit digits unit ∧ text = digits ++ rest := by
  constructor
  · intro h
    rcases text with _ | ⟨a, _ | ⟨b, _ | ⟨c, _ | ⟨d, text⟩⟩⟩⟩
    any_goals cases h
    simp only [codeUnit?, Option.bind_eq_bind, Option.bind_eq_some_iff, hexValue?_eq_some_iff] at h
    obtain ⟨first, ha, second, hb, third, hc, fourth, hd, h⟩ := h
    obtain ⟨rfl, rfl⟩ := Prod.mk.inj (Option.some.inj h)
    have hunit : ((first * 16 + second) * 16 + third) * 16 + fourth =
        first * 4096 + second * 256 + third * 16 + fourth := by omega
    exact ⟨[a, b, c, d], hunit ▸ .digits ha hb hc hd, rfl⟩
  · rintro ⟨digits, ⟨ha, hb, hc, hd⟩, rfl⟩
    simp only [codeUnit?, List.cons_append, List.nil_append, hexValue?_eq_some_iff.2 ha,
      hexValue?_eq_some_iff.2 hb, hexValue?_eq_some_iff.2 hc, hexValue?_eq_some_iff.2 hd]
    simp
    omega

theorem isHighSurrogate_iff {unit : Nat} :
    isHighSurrogate unit = true ↔ 0xD800 ≤ unit ∧ unit < 0xDC00 := by
  simp [isHighSurrogate]

theorem isLowSurrogate_iff {unit : Nat} :
    isLowSurrogate unit = true ↔ 0xDC00 ≤ unit ∧ unit < 0xE000 := by
  simp [isLowSurrogate]

theorem HexDigit.lt {value : Nat} (h : HexDigit c value) : value < 16 := by
  rcases h with h | h
  · exact (List.getElem?_eq_some_iff.1 h).1
  · exact (List.getElem?_eq_some_iff.1 h).1

theorem CodeUnit.lt {digits : List Char} {unit : Nat} (h : CodeUnit digits unit) :
    unit < 0x10000 := by
  obtain ⟨ha, hb, hc, hd⟩ := h
  have hfirst := ha.lt
  have hsecond := hb.lt
  have hthird := hc.lt
  have hfourth := hd.lt
  omega

theorem not_surrogate (c : Char) : ¬(0xD800 ≤ c.toNat ∧ c.toNat < 0xE000) := by
  have hv : c.toNat < 0xD800 ∨ 0xDFFF < c.toNat ∧ c.toNat < 0x110000 := c.valid
  omega

theorem toNat_ofNat {code : Nat} (h : code < 0xD800 ∨ 0xDFFF < code ∧ code < 0x110000) :
    (Char.ofNat code).toNat = code := by
  rw [Char.ofNat, dif_pos h]
  rfl

theorem lowSurrogate?_eq_some_iff {unit : Nat} : lowSurrogate? text = some (unit, rest) ↔
    (0xDC00 ≤ unit ∧ unit < 0xE000) ∧
      ∃ digits, CodeUnit digits unit ∧ text = '\\' :: 'u' :: (digits ++ rest) := by
  constructor
  · intro h
    unfold lowSurrogate? at h
    split at h
    · next text =>
      obtain ⟨hu, hl⟩ := Option.filter_eq_some_iff.1 h
      obtain ⟨digits, hd, rfl⟩ := codeUnit?_eq_some_iff.1 hu
      exact ⟨isLowSurrogate_iff.1 hl, digits, hd, rfl⟩
    · cases h
  · rintro ⟨hl, digits, hd, rfl⟩
    exact Option.filter_eq_some_iff.2 ⟨codeUnit?_eq_some_iff.2 ⟨digits, hd, rfl⟩,
      isLowSurrogate_iff.2 hl⟩

theorem unicode_of_unicode? (h : unicode? text = some (c, rest)) :
    ∃ digits, Unicode digits c ∧ text = digits ++ rest := by
  rw [unicode?] at h
  split at h
  · cases h
  · next unit after hu =>
    obtain ⟨digits, hd, rfl⟩ := codeUnit?_eq_some_iff.1 hu
    split at h
    · next hhigh =>
      obtain ⟨⟨low, last⟩, hl, he⟩ := Option.map_eq_some_iff.1 h
      obtain ⟨rfl, rfl⟩ := Prod.mk.inj he
      obtain ⟨hlow, digits', hd', rfl⟩ := lowSurrogate?_eq_some_iff.1 hl
      have hhigh := isHighSurrogate_iff.1 hhigh
      exact ⟨_, .pair hd hd' hhigh hlow (toNat_ofNat (by omega)), by simp⟩
    · next hhigh =>
      split at h
      · cases h
      · next hlow =>
        obtain ⟨rfl, rfl⟩ := Prod.mk.inj (Option.some.inj h)
        rw [isHighSurrogate_iff] at hhigh
        rw [isLowSurrogate_iff] at hlow
        have hlt := hd.lt
        have hc : (Char.ofNat unit).toNat = unit := toNat_ofNat (by omega)
        exact ⟨digits, .unit (by rwa [hc]), rfl⟩

theorem unicode?_eq_some_iff : unicode? text = some (c, rest) ↔
    ∃ digits, Unicode digits c ∧ text = digits ++ rest := by
  refine ⟨unicode_of_unicode?, ?_⟩
  rintro ⟨digits, h, rfl⟩
  cases h with
  | unit hd =>
    have hn := not_surrogate c
    have hhigh : ¬isHighSurrogate c.toNat = true := by
      rw [isHighSurrogate_iff]
      omega
    have hlow : ¬isLowSurrogate c.toNat = true := by
      rw [isLowSurrogate_iff]
      omega
    simp [unicode?, codeUnit?_eq_some_iff.2 ⟨_, hd, rfl⟩, hhigh, hlow, Char.ofNat_toNat]
  | @pair first second high low _ hd hd' hhigh hlow hc =>
    have hl : lowSurrogate? ('\\' :: 'u' :: (second ++ rest)) = some (low, rest) :=
      lowSurrogate?_eq_some_iff.2 ⟨hlow, second, hd', rfl⟩
    have hu : codeUnit? (first ++ '\\' :: 'u' :: (second ++ rest)) =
        some (high, '\\' :: 'u' :: (second ++ rest)) := codeUnit?_eq_some_iff.2 ⟨first, hd, rfl⟩
    simp [unicode?, hu, isHighSurrogate_iff.2 hhigh, hl, surrogatePair, ← hc, Char.ofNat_toNat]

theorem simpleEscape?_eq_some_iff {name : Char} :
    simpleEscape? name = some c ↔ (name, c) ∈ escapes := by
  constructor
  · intro h
    unfold simpleEscape? at h
    split at h
    any_goals cases h
    all_goals decide
  · intro h
    simp only [escapes, List.mem_cons, Prod.mk.injEq, List.not_mem_nil, or_false] at h
    rcases h with ⟨rfl, rfl⟩ | ⟨rfl, rfl⟩ | ⟨rfl, rfl⟩ | ⟨rfl, rfl⟩ | ⟨rfl, rfl⟩ | ⟨rfl, rfl⟩ |
      ⟨rfl, rfl⟩ | ⟨rfl, rfl⟩
    all_goals rfl

theorem character_of_character? (hq : text.head? ≠ some '"') (h : character? text = some (c, rest)) :
    ∃ part, Character part c ∧ text = part ++ rest := by
  cases text with
  | nil => cases h
  | cons d text =>
    simp only [character?] at h
    split at h
    · next hd =>
      subst hd
      split at h
      · cases h
      · next text =>
        obtain ⟨digits, hu, rfl⟩ := unicode?_eq_some_iff.1 h
        exact ⟨_, .unicode hu, rfl⟩
      · next name text _ =>
        obtain ⟨d, he, hd⟩ := Option.map_eq_some_iff.1 h
        obtain ⟨rfl, rfl⟩ := Prod.mk.inj hd
        exact ⟨_, .escape (simpleEscape?_eq_some_iff.1 he), rfl⟩
    · next hd =>
      split at h
      · cases h
      · next hcontrol =>
        obtain ⟨rfl, rfl⟩ := Prod.mk.inj (Option.some.inj h)
        exact ⟨_, .plain (Nat.le_of_not_lt hcontrol) (by simpa using hq) hd, rfl⟩

theorem character?_append {part : List Char} (h : Character part c) (rest : List Char) :
    character? (part ++ rest) = some (c, rest) := by
  cases h with
  | plain hcontrol hquote hslash => simp [character?, hslash, Nat.not_lt.2 hcontrol]
  | @escape name _ he =>
    have hn : name ≠ 'u' := by
      rintro rfl
      simp [escapes] at he
    simp [character?, simpleEscape?_eq_some_iff.2 he]
  | @unicode digits _ hu =>
    have hc : unicode? (digits ++ rest) = some (c, rest) := unicode?_eq_some_iff.2 ⟨digits, hu, rfl⟩
    simpa [character?] using hc

theorem head?_append_ne_quote {part : List Char} (h : Character part c) (rest : List Char) :
    (part ++ rest).head? ≠ some '"' := by
  cases h with
  | plain hcontrol hquote hslash => simpa using hquote
  | escape he => simp
  | unicode hu => simp

theorem content?_eq_some_iff {content : List Char} : content? text = some (content, rest) ↔
    ∃ written, Characters written content ∧ text = written ++ '"' :: rest := by
  constructor
  · intro h
    fun_induction content? text generalizing content with
    | case1 text hq =>
      obtain ⟨rfl, rfl⟩ := Prod.mk.inj (Option.some.inj h)
      cases text with
      | nil => cases hq
      | cons d text =>
        obtain rfl : d = '"' := by simpa using hq
        exact ⟨[], .nil, rfl⟩
    | case2 => cases h
    | case3 text hq c middle hc _ ih =>
      obtain ⟨⟨later, last⟩, hm, he⟩ := Option.map_eq_some_iff.1 h
      obtain ⟨rfl, rfl⟩ := Prod.mk.inj he
      obtain ⟨part, hp, rfl⟩ := character_of_character? hq hc
      obtain ⟨written, hw, rfl⟩ := ih hm
      exact ⟨part ++ written, .cons hp hw, by simp⟩
  · rintro ⟨written, h, rfl⟩
    induction h with
    | nil => simp [content?]
    | @cons part written content c hp _ ih =>
      rw [List.append_assoc, content?, if_neg (head?_append_ne_quote hp _)]
      split
      · next hn => simp [character?_append hp] at hn
      · next d middle hd =>
        rw [character?_append hp] at hd
        cases hd
        simp [ih]

end ConditionalTags.Tags
