import ConditionalTags.Proofs.Token

/-! # Pending text

The reader finds out about a keyword at its last letter, when the first two already are pending text. But
no keyword begins in pending text, whatever is still to come, so those two letters are all that is taken
back.
-/
namespace ConditionalTags.Condition
open Text

namespace Level

/-- The pending text is the end of what has been read, `past`, newest character first. It holds no
mark, and no keyword begins in it, whatever of `text` is still to come. -/
structure Follows (level : Level) (past text : List Char) : Prop where
  boundary : ∃ before, past = level.pending ++ before ∧
    level.afterBracket = Keyword.mayFollow before.head?
  unmarked : ∀ c ∈ level.pending, isMark c = false
  quiet : ∀ k, 0 < k → k ≤ level.pending.length →
    Keyword.starts (past.drop k).head? ((past.take k).reverse ++ text) = false

theorem follows_of_pending_eq_nil {level : Level} {past text : List Char}
    (hp : level.pending = []) (ha : level.afterBracket = Keyword.mayFollow past.head?) :
    level.Follows past text where
  boundary := ⟨past, by simp [hp], ha⟩
  unmarked c hc := by simp [hp] at hc
  quiet k hk hl := by simp [hp] at hl; omega

variable {level : Level} {past text rest : List Char} {c : Char}

theorem Follows.push (h : level.Follows past (c :: rest)) (hm : isMark c = false)
    (hs : Keyword.starts past.head? (c :: rest) = false) :
    (level.push c).Follows (c :: past) rest where
  boundary := by
    obtain ⟨before, rfl, ha⟩ := h.boundary
    exact ⟨before, rfl, ha⟩
  unmarked x hx := by
    rcases List.mem_cons.1 hx with rfl | hx
    · exact hm
    · exact h.unmarked x hx
  quiet k hk hl := by
    obtain ⟨k, rfl⟩ : ∃ j, k = j + 1 := ⟨k - 1, by omega⟩
    cases k with
    | zero => simpa using hs
    | succ k =>
      have hq := h.quiet (k + 1) (by omega) (by simpa [Level.push] using hl)
      simpa using hq

/-- No character completes a keyword: it would have begun in the pending text. -/
theorem Follows.beforeKeyword?_eq_none (h : level.Follows past (c :: rest)) :
    level.beforeKeyword? c rest.head? = none := by
  rw [beforeKeyword?]
  cases hk : Keyword.strip? (c :: level.pending) with
  | none => rfl
  | some pending =>
    obtain ⟨a, n, d, he, hs⟩ := Keyword.strip?_eq_some_iff.1 hk
    obtain ⟨rfl, hp⟩ := List.cons.inj he
    obtain ⟨before, hpast, ha⟩ := h.boundary
    have hq := h.quiet 2 (by decide) (by simp [hp])
    rw [hpast, hp] at hq
    simp only [List.cons_append, List.drop_succ_cons, List.drop_zero, List.take_succ_cons,
      List.take_zero, List.reverse_cons, List.reverse_nil, List.nil_append, Keyword.starts,
      Keyword.leads, hs, Bool.true_and] at hq
    apply if_neg
    intro hb
    rw [Bool.and_eq_true] at hb
    rw [hb.2, Bool.and_true] at hq
    cases pending with
    | nil =>
      rw [List.nil_append, ← ha] at hq
      exact Bool.noConfusion (hq.symm.trans hb.1)
    | cons x pending =>
      have hx : x = ' ' := by simpa using hb.1
      simp [hx, Keyword.mayFollow] at hq

theorem Follows.beforeKeyword?_eq_some {a n d : Char} (h : level.Follows past text)
    (hs : Keyword.starts past.head? (a :: n :: d :: rest) = true) :
    ((level.push a).push n).beforeKeyword? d rest.head? = some level.pending := by
  rw [Keyword.starts, Bool.and_eq_true, Keyword.leads, Bool.and_eq_true] at hs
  obtain ⟨hf, hl, hr⟩ := hs
  have hstrip : Keyword.strip? (d :: n :: a :: level.pending) = some level.pending :=
    Keyword.strip?_eq_some_iff.2 ⟨a, n, d, rfl, hl⟩
  obtain ⟨before, hpast, ha⟩ := h.boundary
  have hfront : level.pending.head?.elim level.afterBracket (· == ' ') = true := by
    cases hp : level.pending with
    | nil => rw [hpast, hp, List.nil_append] at hf; exact ha.trans hf
    | cons x pending =>
      have hx := isMark_eq_false_iff.1 (h.unmarked x (by simp [hp]))
      simpa [hpast, hp, Keyword.mayFollow, hx.1, hx.2.1] using hf
  have hpending : ((level.push a).push n).pending = n :: a :: level.pending := rfl
  have hafter : ((level.push a).push n).afterBracket = level.afterBracket := rfl
  rw [beforeKeyword?, hpending, hstrip]
  simp only [hafter, hfront, hr, Bool.and_self, ↓reduceIte]

theorem beforeKeyword?_eq_none_of_ne (h : c.toLower ≠ 'd') (next : Option Char) :
    level.beforeKeyword? c next = none := by
  rw [beforeKeyword?]
  cases hs : Keyword.strip? (c :: level.pending) with
  | none => rfl
  | some pending =>
    obtain ⟨a, n, d, he, hl⟩ := Keyword.strip?_eq_some_iff.1 hs
    obtain ⟨rfl, -⟩ := List.cons.inj he
    exact absurd (Keyword.spells_eq_true_iff.1 hl).2.2 h

theorem settle_of_trim_eq_nil (h : trim level.pending.reverse = []) :
    level.settle = { level with pending := [] } := by
  rw [settle]
  split
  · rfl
  · next hn => exact absurd h hn

theorem settle_of_trim_ne_nil (h : trim level.pending.reverse ≠ []) :
    level.settle = { level with
      members := level.members ++ [leaf (String.ofList (trim level.pending.reverse))],
      pending := [] } := by
  rw [settle]
  split
  · next hn => exact absurd hn h
  · rfl

@[simp] theorem settle_pending : level.settle.pending = [] := by
  by_cases h : trim level.pending.reverse = []
  · rw [settle_of_trim_eq_nil h]
  · rw [settle_of_trim_ne_nil h]

@[simp] theorem settle_connective : level.settle.connective = level.connective := by
  by_cases h : trim level.pending.reverse = []
  · rw [settle_of_trim_eq_nil h]
  · rw [settle_of_trim_ne_nil h]

@[simp] theorem enter_pending {inner : Condition} : (level.enter inner).pending = [] := by
  simp [enter]

theorem connect_eq_ok_iff {connective : Connective} {position : Nat} {next : Level} :
    level.connect connective position = .ok next ↔
      level.connective.all (· == connective) = true ∧
        { level.settle with afterBracket := false, connective := some connective } = next := by
  unfold connect
  by_cases h : level.connective.all (· == connective) = true
  · rw [if_pos h, Except.ok.injEq]
    exact (and_iff_right h).symm
  · rw [if_neg h]
    exact ⟨nofun, fun hn => absurd hn.1 h⟩

end Level

end ConditionalTags.Condition
