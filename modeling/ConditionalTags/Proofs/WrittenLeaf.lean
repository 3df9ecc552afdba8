import ConditionalTags.Proofs.Nesting

/-! # Written leaves

No keyword begins in a written leaf, whatever stands around it, so all of its characters become pending
text. Settled, they are the leaf again: the blanks around it are not seen.
-/
namespace ConditionalTags.Condition
open Text

/-- No keyword begins in `text`, with `previous` in front of it and `after` behind it. -/
def Quiet (previous : Option Char) (text after : List Char) : Prop :=
  ∀ front back, text = front ++ back → back ≠ [] →
    Keyword.starts (front.getLast?.or previous) (back ++ after) = false

variable {previous : Option Char} {text after : List Char} {c : Char}

theorem closes_append {a n d : Char} (front : List Char) (h : Keyword.spells a n d = true) :
    Keyword.closes (front ++ [a, n, d]) = front.getLast?.all (· == ' ') := by
  have hs : Keyword.strip? (front ++ [a, n, d]).reverse = some front.reverse := by
    rw [List.reverse_append]
    exact Keyword.strip?_eq_some_iff.2 ⟨a, n, d, rfl, h⟩
  rw [Keyword.closes, hs]
  simp

theorem getLast?_cons_or (c : Char) (rest : List Char) (previous : Option Char) :
    (c :: rest).getLast?.or previous = rest.getLast?.or (some c) := by
  cases rest <;> simp [List.getLast?_cons]

theorem quiet_cons {rest : List Char} : Quiet previous (c :: rest) after ↔
    Keyword.starts previous (c :: (rest ++ after)) = false ∧ Quiet (some c) rest after := by
  constructor
  · intro h
    refine ⟨h [] (c :: rest) rfl nofun, fun front back he hb => ?_⟩
    rw [← getLast?_cons_or c front previous]
    exact h (c :: front) back (by rw [he]; rfl) hb
  · rintro ⟨hs, hr⟩ front back he hb
    cases front with
    | nil =>
      obtain rfl : c :: rest = back := he
      exact hs
    | cons x front =>
      obtain ⟨rfl, hrest⟩ := List.cons.inj he
      rw [getLast?_cons_or]
      exact hr front back hrest hb

/-- A keyword that begins in a plain leaf would have to be at its very end, or between two spaces,
or at its front. None of them is left in writing. -/
theorem quiet_of_plainLeaf {leaf : String} (hp : PlainLeaf leaf)
    (hf : Keyword.opens leaf.toList = false ∨ previous = some '\t')
    (hb : Keyword.closes leaf.toList = false ∨ after.head? ≠ some ' ')
    (ha : ∃ c rest, after = c :: rest ∧ (c = ')' ∨ c = ';' ∨ c = ' ')) :
    Quiet previous leaf.toList after := by
  intro front back he hn
  rw [← Bool.not_eq_true]
  intro hs
  obtain ⟨hm, hl⟩ := (Bool.and_eq_true _ _ ▸ hs : _ ∧ _)
  have hspace : ∀ y, front.getLast? = some y → y = ' ' := by
    intro y hy
    have hmem : y ∈ leaf.toList := by
      rw [he]
      exact List.mem_append_left _ (List.mem_of_getLast? hy)
    have hu := isMark_eq_false_iff.1 (hp.unmarked y hmem)
    simpa [hy, Keyword.mayFollow, hu.1, hu.2.1] using hm
  obtain ⟨e, tail, rfl, hend⟩ := ha
  have hletter : e.toLower ≠ 'n' ∧ e.toLower ≠ 'd' := by
    rcases hend with rfl | rfl | rfl <;> decide
  rcases (Keyword.leads_append_cons hn hletter.1 hletter.2).1 hl with hl | ⟨a, n, d, rfl, hk, hx⟩
  · obtain ⟨a, n, d, x, rest, rfl, hk, hx⟩ := Keyword.leads_eq_true_iff.1 hl
    have hu := isMark_eq_false_iff.1 (hp.unmarked x (by rw [he]; simp))
    obtain rfl : x = ' ' := hx.resolve_right hu.1
    cases hfront : front.getLast? with
    | none =>
      rw [List.getLast?_eq_none_iff.1 hfront, List.nil_append] at he
      rcases hf with hf | hf
      · have ho := Keyword.opens_eq_true_iff.2 ⟨a, n, d, rest, he, hk⟩
        exact Bool.noConfusion (ho.symm.trans hf)
      · rw [hfront, hf] at hm
        cases hm
    | some z =>
      obtain ⟨before, hbefore⟩ := List.getLast?_eq_some_iff.1 hfront
      apply hp.quiet
      refine ⟨before, a, n, d, rest, ?_, hk⟩
      rw [he, hbefore, hspace z hfront, List.append_assoc]
      rfl
  · have hspace_end : e = ' ' := by
      rcases hend with rfl | rfl | rfl
      · rcases hx with hx | hx <;> cases hx
      · rcases hx with hx | hx <;> cases hx
      · rfl
    have hc : Keyword.closes leaf.toList = true := by
      rw [he, closes_append front hk]
      cases hy : front.getLast? with
      | none => rfl
      | some y => simp [hspace y hy]
    rcases hb with hb | hb
    · exact Bool.noConfusion (hc.symm.trans hb)
    · exact hb (by rw [hspace_end]; rfl)

theorem quiet_writtenLeaf {leaf : String} (hp : PlainLeaf leaf)
    (hb : Keyword.closes leaf.toList = false ∨ after.head? ≠ some ' ')
    (ha : ∃ c rest, after = c :: rest ∧ (c = ')' ∨ c = ';' ∨ c = ' ')) :
    Quiet previous (writtenLeaf leaf.toList) after := by
  rw [writtenLeaf]
  by_cases ho : Keyword.opens leaf.toList = true
  · rw [if_pos ho, quiet_cons]
    exact ⟨Keyword.starts_eq_false_of_ne (by decide) _ _, quiet_of_plainLeaf hp (.inr rfl) hb ha⟩
  · rw [if_neg ho]
    exact quiet_of_plainLeaf hp (.inl (Bool.not_eq_true _ ▸ ho)) hb ha

namespace Level

/-- The level has these members and awaits the next: nothing but blanks is pending. -/
structure Awaits (level : Level) (members : List Condition) (connective : Option Connective) :
    Prop where
  members : level.members = members
  blank : ∀ c ∈ level.pending, isBlank c = true
  connective : level.connective = connective

/-- The level has these members once the pending text is settled. -/
structure Holds (level : Level) (members : List Condition) (connective : Option Connective) :
    Prop where
  members : level.settle.members = members
  connective : level.connective = connective

variable {level : Level} {members : List Condition} {joined : Option Connective}

theorem awaits_empty : Awaits {} [] none where
  members := rfl
  blank := List.forall_mem_nil _
  connective := rfl

theorem settle_of_blank (h : ∀ c ∈ level.pending, isBlank c = true) :
    level.settle = { level with pending := [] } :=
  settle_of_trim_eq_nil ((trim_eq_nil_iff _).2 fun c hc => h c (List.mem_reverse.1 hc))

theorem settle_push_of_isBlank (h : isBlank c = true) : (level.push c).settle = level.settle := by
  have ht : trim (level.push c).pending.reverse = trim level.pending.reverse := by
    rw [push, List.reverse_cons, trim_append_right]
    simpa using h
  by_cases hn : trim level.pending.reverse = []
  · have hb : ∀ x ∈ level.pending, isBlank x = true := fun x hx =>
      (trim_eq_nil_iff _).1 hn x (List.mem_reverse.2 hx)
    have hc : ∀ x ∈ (level.push c).pending, isBlank x = true := by
      intro x hx
      rcases List.mem_cons.1 hx with rfl | hx
      · exact h
      · exact hb x hx
    rw [settle_of_blank hb, settle_of_blank hc]
    rfl
  · rw [settle_of_trim_ne_nil hn, settle_of_trim_ne_nil (by rw [ht]; exact hn), ht]
    rfl

theorem Awaits.holds_leaf {text : String} (h : level.Awaits members joined) (hp : PlainLeaf text) :
    Holds { level with pending := (writtenLeaf text.toList).reverse ++ level.pending }
      (members ++ [leaf text]) joined := by
  have ht : trim text.toList = text.toList := by
    have := congrArg String.toList hp.trimmed
    rwa [trimmed, String.toList_ofList] at this
  have hw : trim (writtenLeaf text.toList) = text.toList := by
    rw [writtenLeaf]
    split
    · exact (@trim_append ['\t'] (List.forall_mem_singleton.2 (by decide)) text.toList).trans ht
    · exact ht
  have hall : trim ((writtenLeaf text.toList).reverse ++ level.pending).reverse = text.toList := by
    rw [List.reverse_append, List.reverse_reverse,
      trim_append fun c hc => h.blank c (List.mem_reverse.1 hc), hw]
  have hn : text.toList ≠ [] := fun he => hp.ne_empty (String.toList_eq_nil_iff.1 he)
  constructor
  · rw [settle_of_trim_ne_nil (by rw [hall]; exact hn), hall, String.ofList_toList, h.members]
  · exact h.connective

theorem Awaits.holds_enter {inner : Condition} (h : level.Awaits members joined) :
    (level.enter inner).Holds (members ++ [inner]) joined := by
  have he : level.enter inner =
      { level with members := level.members ++ [inner], pending := [], afterBracket := true } := by
    rw [enter, @settle_of_blank { level with members := level.members ++ [inner] } h.blank]
  rw [he]
  constructor
  · rw [settle_of_blank (by simp), h.members]
  · exact h.connective

theorem Holds.close {condition : Condition} (h : level.Holds members joined)
    (hg : group? (joined.getD .and) members = some condition) (position : Nat) :
    level.close position = .ok condition := by
  rw [Level.close, h.members, h.connective, hg]

end Level

end ConditionalTags.Condition
