import ConditionalTags.Clause

/-! # Tags as a JSON object

The reader of a JSON object whose values are all strings. It takes nothing else: no other kind of
value, no comma behind the last field, no text behind the object. In a string a control character or
half of a surrogate pair is refused.
-/
namespace ConditionalTags.Tags

def isSpace (c : Char) : Bool :=
  c == ' ' || c == '\n' || c == '\r' || c == '\t'

def skipSpace (text : List Char) : List Char :=
  text.dropWhile isSpace

def hexValue? (c : Char) : Option Nat :=
  if '0' ≤ c ∧ c ≤ '9' then some (c.toNat - '0'.toNat)
  else if 'a' ≤ c ∧ c ≤ 'f' then some (c.toNat - 'a'.toNat + 10)
  else if 'A' ≤ c ∧ c ≤ 'F' then some (c.toNat - 'A'.toNat + 10)
  else none

def codeUnit? : List Char → Option (Nat × List Char)
  | a :: b :: c :: d :: rest => do
    let unit := ((← hexValue? a) * 16 + (← hexValue? b)) * 16 + (← hexValue? c)
    return (unit * 16 + (← hexValue? d), rest)
  | _ => none

def isHighSurrogate (unit : Nat) : Bool := 0xD800 ≤ unit && unit < 0xDC00

def isLowSurrogate (unit : Nat) : Bool := 0xDC00 ≤ unit && unit < 0xE000

/-- The second half of a surrogate pair, with the escape in front of it. -/
def lowSurrogate? : List Char → Option (Nat × List Char)
  | '\\' :: 'u' :: text => (codeUnit? text).filter fun read => isLowSurrogate read.1
  | _ => none

def surrogatePair (high low : Nat) : Char :=
  Char.ofNat (0x10000 + (high - 0xD800) * 0x400 + (low - 0xDC00))

/-- The character of an escape by code units, from its first digit on. -/
def unicode? (text : List Char) : Option (Char × List Char) :=
  match codeUnit? text with
  | none => none
  | some (unit, rest) =>
    if isHighSurrogate unit then
      (lowSurrogate? rest).map fun read => (surrogatePair unit read.1, read.2)
    else if isLowSurrogate unit then none
    else some (Char.ofNat unit, rest)

def simpleEscape? : Char → Option Char
  | '"' => some '"'
  | '\\' => some '\\'
  | '/' => some '/'
  | 'b' => some '\x08'
  | 'f' => some '\x0c'
  | 'n' => some '\n'
  | 'r' => some '\r'
  | 't' => some '\t'
  | _ => none

def character? : List Char → Option (Char × List Char)
  | [] => none
  | c :: rest =>
    if c = '\\' then
      match rest with
      | [] => none
      | 'u' :: rest => unicode? rest
      | name :: rest => (simpleEscape? name).map (·, rest)
    else if c.toNat < 0x20 then none
    else some (c, rest)

theorem codeUnit?_length {text rest : List Char} {unit : Nat}
    (h : codeUnit? text = some (unit, rest)) : rest.length < text.length := by
  rcases text with _ | ⟨a, _ | ⟨b, _ | ⟨c, _ | ⟨d, text⟩⟩⟩⟩ <;> simp [codeUnit?] at h
  simp only [Option.bind_eq_some_iff] at h
  obtain ⟨_, _, _, _, _, _, _, _, h⟩ := h
  simp only [Option.some.injEq, Prod.mk.injEq] at h
  simp only [← h.2, List.length_cons]
  omega

theorem lowSurrogate?_length {text rest : List Char} {unit : Nat}
    (h : lowSurrogate? text = some (unit, rest)) : rest.length < text.length := by
  simp only [lowSurrogate?] at h
  split at h
  · have hlt := codeUnit?_length (Option.filter_eq_some_iff.1 h).1
    simp only [List.length_cons]
    omega
  · simp at h

theorem unicode?_length {text rest : List Char} {c : Char}
    (h : unicode? text = some (c, rest)) : rest.length < text.length := by
  simp only [unicode?] at h
  split at h
  · simp at h
  · rename_i unit middle hu
    have hmiddle := codeUnit?_length hu
    split at h
    · simp only [Option.map_eq_some_iff, Prod.mk.injEq] at h
      obtain ⟨⟨low, last⟩, hl, _, hr⟩ := h
      have hlast := lowSurrogate?_length hl
      simp only [← hr]
      omega
    · split at h
      · simp at h
      · simp only [Option.some.injEq, Prod.mk.injEq] at h
        rwa [← h.2]

theorem character?_length {text rest : List Char} {c : Char}
    (h : character? text = some (c, rest)) : rest.length < text.length := by
  cases text with
  | nil => simp [character?] at h
  | cons d text =>
    simp only [character?] at h
    split at h
    · split at h
      · simp at h
      · have := unicode?_length h
        simp only [List.length_cons]
        omega
      · simp only [Option.map_eq_some_iff, Prod.mk.injEq] at h
        obtain ⟨_, _, _, h⟩ := h
        simp only [← h, List.length_cons]
        omega
    · split at h
      · simp at h
      · simp only [Option.some.injEq, Prod.mk.injEq] at h
        simp [← h.2]

/-- The content of a string from behind its opening quote, and the text behind its closing one. -/
def content? (text : List Char) : Option (List Char × List Char) :=
  if text.head? = some '"' then some ([], text.tail)
  else
    match h : character? text with
    | none => none
    | some (c, rest) =>
      have : rest.length < text.length := character?_length h
      (content? rest).map fun read => (c :: read.1, read.2)
termination_by text.length

theorem content?_length {text content rest : List Char} (h : content? text = some (content, rest)) :
    rest.length < text.length := by
  fun_induction content? text generalizing content with
  | case1 text hq =>
    simp only [Option.some.injEq, Prod.mk.injEq] at h
    cases text with
    | nil => simp at hq
    | cons c text => simp [← h.2]
  | case2 => simp at h
  | case3 text hq c middle hc hlt ih =>
    simp only [Option.map_eq_some_iff, Prod.mk.injEq] at h
    obtain ⟨⟨content, last⟩, hm, _, rfl⟩ := h
    exact Nat.lt_trans (ih hm) hlt

def string? (text : List Char) : Option (String × List Char) :=
  match skipSpace text with
  | '"' :: rest => (content? rest).map fun read => (String.ofList read.1, read.2)
  | _ => none

/-- The text behind `mark`. Space may stand in front. -/
def expect? (mark : Char) (text : List Char) : Option (List Char) :=
  match skipSpace text with
  | c :: rest => if c = mark then some rest else none
  | [] => none

def field? (text : List Char) : Option ((String × String) × List Char) := do
  let (key, rest) ← string? text
  let (value, rest) ← string? (← expect? ':' rest)
  return ((key, value), rest)

theorem skipSpace_length (text : List Char) : (skipSpace text).length ≤ text.length :=
  (List.dropWhile_suffix isSpace).length_le

theorem string?_length {text rest : List Char} {content : String}
    (h : string? text = some (content, rest)) : rest.length < text.length := by
  have hle := skipSpace_length text
  simp only [string?] at h
  split at h
  · rename_i after hs
    simp only [Option.map_eq_some_iff, Prod.mk.injEq] at h
    obtain ⟨⟨_, last⟩, hc, _, hr⟩ := h
    have hlt := content?_length hc
    simp only [hs, List.length_cons] at hle
    simp only [← hr]
    omega
  · simp at h

theorem expect?_length {mark : Char} {text rest : List Char} (h : expect? mark text = some rest) :
    rest.length < text.length := by
  have hle := skipSpace_length text
  simp only [expect?] at h
  split at h
  · rename_i c after hs
    split at h
    · simp only [Option.some.injEq] at h
      simp only [hs, List.length_cons, h] at hle
      omega
    · simp at h
  · simp at h

theorem field?_length {text rest : List Char} {field : String × String}
    (h : field? text = some (field, rest)) : rest.length < text.length := by
  simp only [field?, Option.bind_eq_bind, Option.bind_eq_some_iff] at h
  obtain ⟨⟨_, behindKey⟩, hk, behindColon, hc, ⟨_, last⟩, hv, h⟩ := h
  simp only [Option.pure_def, Option.some.injEq, Prod.mk.injEq] at h
  rw [← h.2]
  exact Nat.lt_trans (string?_length hv) (Nat.lt_trans (expect?_length hc) (string?_length hk))

/-- The fields up to the closing brace, and the text behind it. -/
def fields? (text : List Char) : Option (Tags × List Char) :=
  match hf : field? text with
  | none => none
  | some (field, rest) =>
    match hc : expect? ',' rest with
    | some next =>
      have : next.length < text.length := Nat.lt_trans (expect?_length hc) (field?_length hf)
      (fields? next).map fun read => (field :: read.1, read.2)
    | none => (expect? '}' rest).map fun last => ([field], last)
termination_by text.length

def object? (text : List Char) : Option (Tags × List Char) := do
  let rest ← expect? '{' text
  match expect? '}' rest with
  | some last => return ([], last)
  | none => fields? rest

def read? (text : List Char) : Option Tags := do
  let (tags, rest) ← object? text
  if (skipSpace rest).isEmpty then some tags else none

end ConditionalTags.Tags
