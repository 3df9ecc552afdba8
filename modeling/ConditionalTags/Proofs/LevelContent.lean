import ConditionalTags.Proofs.Layout
import ConditionalTags.Proofs.TokenReader
import Mathlib.Logic.Basic

/-! # What a level knows

A level has seen some of the text of its bracket pair: which separators are in it, and whether there is
text in it. So it knows by which connective it may be parted, and whether it comes to a condition.
-/
namespace ConditionalTags.Condition
open Text

namespace Level

def HasContent (level : Level) : Prop :=
  level.members ≠ [] ∨ ∃ c ∈ level.pending, isBlank c = false

variable {level next : Level} {position i : Nat} {c : Char} {text : List Char}

theorem settle_members_ne_nil_iff : level.settle.members ≠ [] ↔ level.HasContent := by
  by_cases h : trim level.pending.reverse = []
  · rw [settle_of_trim_eq_nil h]
    rw [trim_eq_nil_iff] at h
    refine ⟨.inl, fun hc => hc.resolve_right ?_⟩
    rintro ⟨c, hm, hb⟩
    rw [h c (List.mem_reverse.2 hm)] at hb
    cases hb
  · rw [settle_of_trim_ne_nil h]
    refine ⟨fun _ => .inr ?_, fun _ => List.append_ne_nil_of_right_ne_nil _ nofun⟩
    rw [trim_eq_nil_iff] at h
    simpa using h

theorem exists_close_iff : (∃ condition, level.close position = .ok condition) ↔
    level.HasContent := by
  rw [← settle_members_ne_nil_iff, ne_eq, ← group?_eq_none_iff (level.connective.getD .and), close]
  cases group? (level.connective.getD .and) level.settle.members <;> simp

theorem hasContent_push : (level.push c).HasContent ↔ level.HasContent ∨ isBlank c = false := by
  simp only [HasContent, push, List.mem_cons, exists_eq_or_imp]
  rw [or_left_comm, or_comm]

theorem hasContent_of_connect {connective : Connective}
    (h : level.connect connective position = .ok next) : next.HasContent ↔ level.HasContent := by
  obtain ⟨-, rfl⟩ := connect_eq_ok_iff.1 h
  have hs : level.settle.members ≠ [] ↔ level.HasContent := settle_members_ne_nil_iff
  simpa [HasContent] using hs

theorem hasContent_enter (inner : Condition) : (level.enter inner).HasContent := by
  refine .inl (settle_members_ne_nil_iff.2 (.inl ?_))
  exact List.append_ne_nil_of_right_ne_nil _ nofun

/-- What a level knows of its bracket pair, or of the outermost level for `none`, from the text in
front of position `upto`: its separators, and whether there is text in it. -/
structure Describes (level : Level) (text : List Char) (upto : Nat) (pair : Option Nat) :
    Prop where
  or_iff : level.connective = some .or ↔
    ∃ i < upto, text[i]? = some ';' ∧ (openAt text i).head? = pair
  and_iff : level.connective = some .and ↔
    ∃ i < upto, KeywordAt text i ∧ (openAt text i).head? = pair
  content_iff : level.HasContent ↔
    ∃ i < upto, TextAt text i ∧ ∀ p ∈ pair, p ∈ openAt text i

theorem mem_openAt_of_mem_head? : ∀ p ∈ (openAt text i).head?, p ∈ openAt text i :=
  fun _ => List.mem_of_mem_head?

theorem Describes.push (h : level.Describes text i (openAt text i).head?)
    (hc : text[i]? = some c) (hm : isMark c = false)
    (hk : ∀ k ≤ i, KeywordAt text k → k + 3 ≤ i) :
    (level.push c).Describes text (i + 1) (openAt text i).head? := by
  have hsemi : text[i]? ≠ some ';' := by
    rw [hc]
    simpa using (isMark_eq_false_iff.1 hm).2.2
  have hkey : ¬KeywordAt text i := fun he => by
    have hl := hk i (Nat.le_refl i) he
    omega
  have htext : TextAt text i ↔ isBlank c = false := by
    constructor
    · rintro ⟨x, hx, -, hb, -⟩
      cases hc.symm.trans hx
      exact hb
    · intro hb
      refine ⟨c, hc, hm, hb, fun k he hki => ?_⟩
      have hl := hk k hki.1 he
      omega
  refine ⟨?_, ?_, ?_⟩
  · rw [Nat.exists_lt_succ_right, ← h.or_iff]
    exact (or_iff_left fun hi => hsemi hi.1).symm
  · rw [Nat.exists_lt_succ_right, ← h.and_iff]
    exact (or_iff_left fun hi => hkey hi.1).symm
  · rw [Nat.exists_lt_succ_right, ← h.content_iff, hasContent_push, htext]
    exact or_congr Iff.rfl (and_iff_left mem_openAt_of_mem_head?).symm

theorem Describes.semicolon (h : level.Describes text i (openAt text i).head?)
    (hc : text[i]? = some ';') (hn : level.connect .or position = .ok next) :
    next.Describes text (i + 1) (openAt text i).head? := by
  have hkey : ¬KeywordAt text i := not_keywordAt_of_isMark hc rfl
  have htext : ¬TextAt text i := by
    rintro ⟨x, hx, hm, -, -⟩
    cases hc.symm.trans hx
    cases hm
  have hcontent := hasContent_of_connect hn
  obtain ⟨hl, rfl⟩ := connect_eq_ok_iff.1 hn
  refine ⟨⟨fun _ => ⟨i, Nat.lt_succ_self i, hc, rfl⟩, fun _ => rfl⟩, ⟨nofun, ?_⟩, ?_⟩
  · rw [Nat.exists_lt_succ_right, ← h.and_iff]
    rintro (ha | ha)
    · rw [ha] at hl
      cases hl
    · exact absurd ha.1 hkey
  · rw [Nat.exists_lt_succ_right, ← h.content_iff, hcontent]
    exact (or_iff_left fun hi => htext hi.1).symm

theorem Describes.keyword (h : level.Describes text i (openAt text i).head?)
    (hk : KeywordAt text i) (hn : level.connect .and position = .ok next) :
    next.Describes text (i + 3) (openAt text i).head? := by
  have hsemi : ∀ j, i ≤ j → j < i + 3 → text[j]? ≠ some ';' :=
    fun _ hi hj => (hk.getElem?_ne hi hj).2.2
  have htext : ∀ j, i ≤ j → j < i + 3 → ¬TextAt text j := by
    rintro j hi hj ⟨x, -, -, -, hx⟩
    exact hx i hk ⟨hi, hj⟩
  have hcontent := hasContent_of_connect hn
  obtain ⟨hl, rfl⟩ := connect_eq_ok_iff.1 hn
  refine ⟨⟨nofun, ?_⟩, ⟨fun _ => ⟨i, by omega, hk, rfl⟩, fun _ => rfl⟩, ?_⟩
  · rintro ⟨j, hj, hs, hp⟩
    by_cases hi : i ≤ j
    · exact absurd hs (hsemi j hi hj)
    · rw [h.or_iff.2 ⟨j, by omega, hs, hp⟩] at hl
      cases hl
  · rw [hcontent, h.content_iff]
    constructor
    · rintro ⟨j, hj, ht⟩
      exact ⟨j, by omega, ht⟩
    · rintro ⟨j, hj, ht, hp⟩
      by_cases hi : i ≤ j
      · exact absurd ht (htext j hi hj)
      · exact ⟨j, by omega, ht, hp⟩

/-- The level around a pair that closes at `i` learns that the pair has content, and nothing else. -/
theorem Describes.enter {p : Nat} {outer : List Nat} {inside : Level} {inner : Condition}
    (h : level.Describes text p outer.head?) (hi : inside.Describes text i (some p))
    (ho : openAt text i = p :: outer) (hcl : inside.close position = .ok inner) :
    (level.enter inner).Describes text (i + 1) outer.head? := by
  have hp := innermost_bracket ho
  have hpair : ∀ j, p < j → j < i + 1 → (openAt text j).head? ≠ outer.head? :=
    fun j hpj hj => head?_openAt_ne ho hpj (Nat.le_of_lt_succ hj)
  have hlater : ∀ {P : Nat → Prop}, ¬P p →
      ((∃ j < i + 1, P j ∧ (openAt text j).head? = outer.head?) ↔
        ∃ j < p, P j ∧ (openAt text j).head? = outer.head?) := by
    intro P hn
    constructor
    · rintro ⟨j, hj, hP, he⟩
      rcases Nat.lt_trichotomy j p with hjp | rfl | hpj
      · exact ⟨j, hjp, hP, he⟩
      · exact absurd hP hn
      · exact absurd he (hpair j hpj hj)
    · rintro ⟨j, hj, hr⟩
      exact ⟨j, by omega, hr⟩
  refine ⟨?_, ?_, ?_⟩
  · rw [hlater (by rw [hp.2]; nofun), ← h.or_iff]
    simp [Level.enter]
  · rw [hlater (not_keywordAt_of_isMark hp.2 rfl), ← h.and_iff]
    simp [Level.enter]
  · refine ⟨fun _ => ?_, fun _ => hasContent_enter inner⟩
    obtain ⟨j, hj, ht, hm⟩ := hi.content_iff.1 (exists_close_iff.1 ⟨inner, hcl⟩)
    have hpj := (getElem?_of_mem_openAt (hm p rfl)).1
    refine ⟨j, by omega, ht, fun q hq => ?_⟩
    have hs : p :: outer <:+ openAt text j :=
      suffix_openAt (ho ▸ List.suffix_rfl) hpj (Nat.le_of_lt hj)
    exact hs.subset (List.mem_cons_of_mem p (List.mem_of_mem_head? hq))

theorem describes_empty (i : Nat) : Describes {} text (i + 1) (some i) := by
  have hpair : ∀ j < i + 1, i ∉ openAt text j := by
    intro j hj hm
    have hl := (getElem?_of_mem_openAt hm).1
    omega
  refine ⟨⟨nofun, ?_⟩, ⟨nofun, ?_⟩, ⟨?_, ?_⟩⟩
  · rintro ⟨j, hj, -, he⟩
    exact absurd (List.mem_of_mem_head? he) (hpair j hj)
  · rintro ⟨j, hj, -, he⟩
    exact absurd (List.mem_of_mem_head? he) (hpair j hj)
  · rintro (hm | ⟨c, hc, -⟩)
    · exact absurd rfl hm
    · cases hc
  · rintro ⟨j, hj, -, hm⟩
    exact absurd (hm i rfl) (hpair j hj)

end Level

end ConditionalTags.Condition
