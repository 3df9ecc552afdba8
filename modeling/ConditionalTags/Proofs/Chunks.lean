import ConditionalTags.Proofs.WrittenLeaf

/-! # Reading part by part

Each part of a text leads from one level to the next, unless it opens more brackets than reading allows;
then reading fails at once. Parts that are read one after the other are read together.
-/
namespace ConditionalTags.Condition
open Text

namespace Reading

/-- Reading `chunk` in front of `after` leads from the one reading to the other. -/
def Advances (reading : Reading) (previous : Option Char) (position : Nat) (chunk : List Char)
    (next : Reading) (after : List Char) : Prop :=
  ∀ ends, reading.consume ends (tokens previous position (chunk ++ after)) =
    next.consume ends (tokens (chunk.getLast?.or previous) (position + chunk.length) after)

/-- Too many brackets are opened before `after` is reached. -/
def Overflows (reading : Reading) (previous : Option Char) (position : Nat)
    (chunk after : List Char) : Prop :=
  ∃ opened, ∀ ends, reading.consume ends (tokens previous position (chunk ++ after)) =
    .error ⟨.tooDeep, some opened⟩

/-- Reading `chunk` in front of `after` makes `level` one of which `P` holds, unless the chunk opens
more brackets than there is room for. -/
def Reads (level : Level) (enclosing : List (Level × Nat)) (chunk after : List Char)
    (P : Level → Prop) : Prop :=
  ∀ previous position,
    (NestsWithin (maxDepth - enclosing.length) chunk →
      ∃ next, Advances ⟨level, enclosing⟩ previous position chunk ⟨next, enclosing⟩ after ∧ P next) ∧
    (¬NestsWithin (maxDepth - enclosing.length) chunk →
      Overflows ⟨level, enclosing⟩ previous position chunk after)

variable {previous : Option Char} {position : Nat} {after : List Char} {c : Char}
  {reading next final : Reading} {chunk more : List Char} {level : Level}
  {enclosing : List (Level × Nat)} {P Q : Level → Prop}

theorem Advances.trans
    (h : reading.Advances previous position chunk next (more ++ after))
    (hn : next.Advances (chunk.getLast?.or previous) (position + chunk.length) more final after) :
    reading.Advances previous position (chunk ++ more) final after := by
  intro ends
  have hlast : (chunk ++ more).getLast?.or previous =
      more.getLast?.or (chunk.getLast?.or previous) := by
    rw [List.getLast?_append, Option.or_assoc]
  rw [List.append_assoc, h ends, hn ends, hlast, List.length_append, Nat.add_assoc]

theorem Advances.overflows
    (h : reading.Advances previous position chunk next (more ++ after))
    (hn : next.Overflows (chunk.getLast?.or previous) (position + chunk.length) more after) :
    reading.Overflows previous position (chunk ++ more) after := by
  obtain ⟨opened, hn⟩ := hn
  refine ⟨opened, fun ends => ?_⟩
  rw [List.append_assoc, h ends, hn ends]

theorem Overflows.append (h : reading.Overflows previous position chunk (more ++ after)) :
    reading.Overflows previous position (chunk ++ more) after := by
  obtain ⟨opened, h⟩ := h
  refine ⟨opened, fun ends => ?_⟩
  rw [List.append_assoc, h ends]

theorem Reads.append (hm : Matched chunk) (h : Reads level enclosing chunk (more ++ after) P)
    (hn : ∀ next, P next → Reads next enclosing more after Q) :
    Reads level enclosing (chunk ++ more) after Q := by
  intro previous position
  obtain ⟨hreach, hover⟩ := h previous position
  rw [nestsWithin_append hm]
  by_cases hc : NestsWithin (maxDepth - enclosing.length) chunk
  · obtain ⟨middle, hadv, hp⟩ := hreach hc
    obtain ⟨hreach, hover⟩ := hn middle hp (chunk.getLast?.or previous) (position + chunk.length)
    constructor
    · rintro ⟨-, hmore⟩
      obtain ⟨final, hfinal, hq⟩ := hreach hmore
      exact ⟨final, hadv.trans hfinal, hq⟩
    · intro hno
      exact hadv.overflows (hover fun hmore => hno ⟨hc, hmore⟩)
  · exact ⟨fun hw => absurd hw.1 hc, fun _ => (hover hc).append⟩

theorem Reads.imp (h : Reads level enclosing chunk after P) (hpq : ∀ next, P next → Q next) :
    Reads level enclosing chunk after Q := by
  intro previous position
  obtain ⟨hreach, hover⟩ := h previous position
  refine ⟨fun hw => ?_, hover⟩
  obtain ⟨next, hadv, hp⟩ := hreach hw
  exact ⟨next, hadv, hpq next hp⟩

theorem reads_of_advances (hb : ∀ c ∈ chunk, c ≠ '(' ∧ c ≠ ')')
    (h : ∀ previous position, ∃ next,
      Advances ⟨level, enclosing⟩ previous position chunk ⟨next, enclosing⟩ after ∧ P next) :
    Reads level enclosing chunk after P := by
  intro previous position
  exact ⟨fun _ => h previous position, fun hn => absurd (nestsWithin_of_unbracketed hb _) hn⟩

theorem advances_char (hm : isMark c = false) (hs : Keyword.starts previous (c :: after) = false) :
    Advances ⟨level, enclosing⟩ previous position [c] ⟨level.push c, enclosing⟩ after := by
  intro ends
  rw [List.singleton_append, tokens_of_not_starts hs]
  apply consume_of_more
  rw [Token.ofChar_of_not_isMark hm]
  rfl

theorem advances_keyword {a n d : Char} {joined : Level}
    (hs : Keyword.starts previous (a :: n :: d :: after) = true)
    (hc : level.connect .and position = .ok joined) :
    Advances ⟨level, enclosing⟩ previous position [a, n, d] ⟨joined, enclosing⟩ after := by
  intro ends
  change consume _ ends (tokens previous position (a :: n :: d :: after)) = _
  rw [tokens_of_starts hs]
  apply consume_of_more
  rw [onToken, hc]
  rfl

theorem advances_semicolon {joined : Level} (he : enclosing ≠ [])
    (hc : level.connect .or position = .ok joined) :
    Advances ⟨level, enclosing⟩ previous position [';'] ⟨joined, enclosing⟩ after := by
  intro ends
  rw [List.singleton_append, tokens_of_isMark rfl]
  apply consume_of_more
  change semicolon ⟨level, enclosing⟩ position = _
  rw [semicolon, hc, if_neg (by simpa using he)]
  rfl

theorem advances_of_quiet (hm : ∀ c ∈ chunk, isMark c = false) (hq : Quiet previous chunk after) :
    Advances ⟨level, enclosing⟩ previous position chunk
      ⟨{ level with pending := chunk.reverse ++ level.pending }, enclosing⟩ after := by
  induction chunk generalizing level previous position with
  | nil => exact fun ends => rfl
  | cons c rest ih =>
    obtain ⟨hc, hr⟩ := List.forall_mem_cons.1 hm
    obtain ⟨hs, hq⟩ := quiet_cons.1 hq
    have hall := (advances_char hc hs).trans (@ih (some c) (position + 1) (level.push c) hr hq)
    rw [List.singleton_append] at hall
    have hpending : (c :: rest).reverse ++ level.pending =
        rest.reverse ++ (level.push c).pending := by
      rw [List.reverse_cons, List.append_assoc]
      rfl
    rw [hpending]
    exact hall

theorem advances_opening (hd : enclosing.length < maxDepth) :
    Advances ⟨level, enclosing⟩ previous position ['('] ⟨{}, (level, position) :: enclosing⟩
      after := by
  have hopen : onToken ⟨level, enclosing⟩ position .opening =
      .ok (.more ⟨{}, (level, position) :: enclosing⟩) := by
    change openBracket _ position = _
    rw [openBracket, if_pos hd]
  intro ends
  rw [List.singleton_append, tokens_of_isMark rfl]
  exact consume_of_more hopen

theorem overflows_opening (hd : ¬enclosing.length < maxDepth) :
    Overflows ⟨level, enclosing⟩ previous position ('(' :: chunk) after := by
  have hopen : onToken ⟨level, enclosing⟩ position .opening =
      .error ⟨.tooDeep, some position⟩ := by
    change openBracket _ position = _
    rw [openBracket, if_neg hd]
  refine ⟨position, fun ends => ?_⟩
  rw [List.cons_append, tokens_of_isMark rfl]
  exact consume_of_error hopen

theorem nestsWithin_inside (hm : Matched chunk) (hd : enclosing.length < maxDepth)
    (around : Level × Nat) :
    NestsWithin (maxDepth - enclosing.length) (bracketed chunk) ↔
      NestsWithin (maxDepth - (around :: enclosing).length) chunk := by
  have hroom : maxDepth - enclosing.length = maxDepth - (around :: enclosing).length + 1 := by
    rw [List.length_cons]
    omega
  rw [nestsWithin_bracketed hm, hroom]
  constructor
  · rintro ⟨less, he, hn⟩
    rwa [Nat.succ.inj he]
  · exact fun hn => ⟨_, rfl, hn⟩

/-- An opening bracket and what is read inside, up to the closing bracket. -/
theorem reads_inside (hm : Matched chunk)
    (h : ∀ around, around ≠ [] → Reads {} around chunk (')' :: after) P)
    (level : Level) (enclosing : List (Level × Nat)) (previous : Option Char) (position : Nat) :
    (NestsWithin (maxDepth - enclosing.length) (bracketed chunk) →
      ∃ next, Advances ⟨level, enclosing⟩ previous position ('(' :: chunk)
        ⟨next, (level, position) :: enclosing⟩ (')' :: after) ∧ P next) ∧
    (¬NestsWithin (maxDepth - enclosing.length) (bracketed chunk) →
      Overflows ⟨level, enclosing⟩ previous position ('(' :: chunk) (')' :: after)) := by
  by_cases hd : enclosing.length < maxDepth
  · have hopen := @advances_opening previous position (chunk ++ ')' :: after) level enclosing hd
    obtain ⟨hreach, hover⟩ :=
      h ((level, position) :: enclosing) (List.cons_ne_nil _ _) (some '(') (position + 1)
    rw [nestsWithin_inside hm hd (level, position)]
    constructor
    · intro hn
      obtain ⟨next, hadv, hp⟩ := hreach hn
      exact ⟨next, hopen.trans hadv, hp⟩
    · intro hn
      exact hopen.overflows (hover hn)
  · constructor
    · intro hn
      obtain ⟨less, he, -⟩ := (nestsWithin_bracketed hm).1 hn
      omega
    · intro _
      exact overflows_opening hd

end Reading

end ConditionalTags.Condition
