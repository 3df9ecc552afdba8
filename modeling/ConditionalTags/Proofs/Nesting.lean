import ConditionalTags.Proofs.Layout
import ConditionalTags.Proofs.Plain

/-! # How deep a written condition nests

In the written form of a plain condition every bracket that is opened is closed again, because the
leaves have none. So the depth inside a part of it is that of the part alone, on top of the depth
where the part begins, and whether a bound is kept can be seen part by part.
-/
namespace ConditionalTags.Condition

def depthStep (depth : Nat) (c : Char) : Nat :=
  if c = '(' then depth + 1 else if c = ')' then depth - 1 else depth

/-- The number of open brackets behind a text that begins with `depth` of them. -/
def depthFrom (depth : Nat) (text : List Char) : Nat :=
  text.foldl depthStep depth

/-- No closing bracket of the text closes one that stands in front of it, and none of its own is
left open. -/
structure Matched (text : List Char) : Prop where
  closed : depthFrom 0 text = 0
  level : ∀ depth i, depthFrom depth (text.take i) = depth + depthFrom 0 (text.take i)

/-- At most `bound` brackets are open at once. -/
def NestsWithin (bound : Nat) (text : List Char) : Prop :=
  ∀ i, depthAt text i ≤ bound

variable {text other : List Char} {bound depth : Nat} {c : Char}

theorem length_openBrackets_cons (c : Char) (past : List Char) :
    (openBrackets (c :: past)).length = depthStep (openBrackets past).length c := by
  rw [depthStep]
  by_cases ho : c = '('
  · subst ho
    rfl
  · by_cases hc : c = ')'
    · subst hc
      exact List.length_tail
    · rw [if_neg ho, if_neg hc, openBrackets]
      · exact ho
      · exact hc

theorem length_openBrackets (text past : List Char) :
    (openBrackets (text.reverse ++ past)).length = depthFrom (openBrackets past).length text := by
  induction text generalizing past with
  | nil => rfl
  | cons c rest ih =>
    have h := ih (c :: past)
    rw [length_openBrackets_cons] at h
    rw [List.reverse_cons, List.append_assoc]
    exact h

theorem depthAt_eq (text : List Char) (i : Nat) : depthAt text i = depthFrom 0 (text.take i) := by
  have h := length_openBrackets (text.take i) []
  rwa [List.append_nil] at h

theorem depthFrom_append (depth : Nat) (text other : List Char) :
    depthFrom depth (text ++ other) = depthFrom (depthFrom depth text) other :=
  List.foldl_append

theorem depthFrom_of_unbracketed (h : ∀ c ∈ text, c ≠ '(' ∧ c ≠ ')') (depth : Nat) :
    depthFrom depth text = depth := by
  induction text with
  | nil => rfl
  | cons c rest ih =>
    obtain ⟨⟨ho, hc⟩, hr⟩ := List.forall_mem_cons.1 h
    have hs : depthStep depth c = depth := by rw [depthStep, if_neg ho, if_neg hc]
    change depthFrom (depthStep depth c) rest = depth
    rw [hs, ih hr]

theorem matched_of_unbracketed (h : ∀ c ∈ text, c ≠ '(' ∧ c ≠ ')') : Matched text where
  closed := depthFrom_of_unbracketed h 0
  level depth i := by
    have ht : ∀ c ∈ text.take i, c ≠ '(' ∧ c ≠ ')' := fun c hc => h c (List.mem_of_mem_take hc)
    rw [depthFrom_of_unbracketed ht, depthFrom_of_unbracketed ht]
    rfl

theorem Matched.append (ht : Matched text) (ho : Matched other) : Matched (text ++ other) where
  closed := by rw [depthFrom_append, ht.closed, ho.closed]
  level depth i := by
    rw [List.take_append, depthFrom_append, depthFrom_append, ho.level (depthFrom depth _),
      ho.level (depthFrom 0 _), ht.level depth i, Nat.add_assoc]

theorem depthFrom_take_bracketed (ht : Matched text) (depth i : Nat) :
    depthFrom depth ((bracketed text).take (i + 1)) =
      if i ≤ text.length then depth + 1 + depthFrom 0 (text.take i) else depth := by
  have hs : depthStep depth '(' = depth + 1 := rfl
  have hb : (bracketed text).take (i + 1) = '(' :: (text.take i ++ [')'].take (i - text.length)) := by
    rw [bracketed, List.cons_append, List.take_succ_cons, List.take_append]
  rw [hb]
  change depthFrom (depthStep depth '(') _ = _
  rw [hs, depthFrom_append, ht.level]
  by_cases hi : i ≤ text.length
  · rw [if_pos hi, Nat.sub_eq_zero_of_le hi]
    rfl
  · rw [if_neg hi, List.take_of_length_le (by omega), ht.closed, List.take_of_length_le (by simp; omega)]
    rfl

theorem Matched.bracketed (ht : Matched text) : Matched (bracketed text) where
  closed := by
    have h := depthFrom_take_bracketed ht 0 (text.length + 1)
    rw [if_neg (by omega), List.take_of_length_le (by simp [Condition.bracketed])] at h
    exact h
  level depth i := by
    cases i with
    | zero => rfl
    | succ i =>
      rw [depthFrom_take_bracketed ht, depthFrom_take_bracketed ht]
      by_cases hi : i ≤ text.length
      · rw [if_pos hi, if_pos hi]
        omega
      · rw [if_neg hi, if_neg hi]
        rfl

/-- Behind the end of a text the depth is that at its end. -/
theorem nestsWithin_iff : NestsWithin bound text ↔ ∀ i < text.length + 1, depthAt text i ≤ bound := by
  constructor
  · exact fun h i _ => h i
  · intro h i
    by_cases hi : i < text.length + 1
    · exact h i hi
    · have hl := h text.length (Nat.lt_succ_self _)
      rw [depthAt_eq, List.take_length] at hl
      rw [depthAt_eq, List.take_of_length_le (by omega)]
      exact hl

instance (bound : Nat) (text : List Char) : Decidable (NestsWithin bound text) :=
  decidable_of_iff _ nestsWithin_iff.symm

theorem nestsWithin_of_unbracketed (h : ∀ c ∈ text, c ≠ '(' ∧ c ≠ ')') (bound : Nat) :
    NestsWithin bound text := by
  intro i
  rw [depthAt_eq, depthFrom_of_unbracketed fun c hc => h c (List.mem_of_mem_take hc)]
  exact Nat.zero_le bound

theorem nestsWithin_append (ht : Matched text) :
    NestsWithin bound (text ++ other) ↔ NestsWithin bound text ∧ NestsWithin bound other := by
  constructor
  · intro h
    refine ⟨fun i => ?_, fun i => ?_⟩
    · by_cases hi : i ≤ text.length
      · have hw := h i
        rw [depthAt_eq, List.take_append_of_le_length hi] at hw
        rwa [depthAt_eq]
      · rw [depthAt_eq, List.take_of_length_le (by omega), ht.closed]
        exact Nat.zero_le bound
    · have hw := h (text.length + i)
      rw [depthAt_eq, List.take_length_add_append, depthFrom_append, ht.closed] at hw
      rwa [depthAt_eq]
  · rintro ⟨hw, ho⟩ i
    rw [depthAt_eq, List.take_append, depthFrom_append]
    by_cases hi : i ≤ text.length
    · rw [Nat.sub_eq_zero_of_le hi, List.take_zero]
      have h := hw i
      rwa [depthAt_eq] at h
    · rw [List.take_of_length_le (by omega), ht.closed]
      have h := ho (i - text.length)
      rwa [depthAt_eq] at h

theorem nestsWithin_bracketed (ht : Matched text) :
    NestsWithin bound (bracketed text) ↔ ∃ less, bound = less + 1 ∧ NestsWithin less text := by
  constructor
  · intro h
    have hone := h 1
    rw [depthAt_eq, depthFrom_take_bracketed ht, if_pos (Nat.zero_le _)] at hone
    obtain ⟨less, rfl⟩ : ∃ less, bound = less + 1 := ⟨bound - 1, by omega⟩
    refine ⟨less, rfl, fun i => ?_⟩
    by_cases hi : i ≤ text.length
    · have hw := h (i + 1)
      rw [depthAt_eq, depthFrom_take_bracketed ht, if_pos hi] at hw
      rw [depthAt_eq]
      omega
    · rw [depthAt_eq, List.take_of_length_le (by omega), ht.closed]
      exact Nat.zero_le less
  · rintro ⟨less, rfl, h⟩ i
    rw [depthAt_eq]
    cases i with
    | zero => exact Nat.zero_le _
    | succ i =>
      rw [depthFrom_take_bracketed ht]
      have hw := h i
      rw [depthAt_eq] at hw
      split <;> omega

/-- What stands between the brackets around a condition. -/
def body : Condition → List Char
  | leaf text => writtenLeaf text.toList
  | join connective first second others =>
    guarded connective first first.written ++ writtenOthers connective (second :: others)

theorem written_join {connective : Connective} {first second : Condition}
    {others : List Condition} :
    (join connective first second others).written =
      bracketed (join connective first second others).body := by
  rw [written, body, writtenOthers]
  simp only [List.append_assoc]

theorem writtenCondition_eq (condition : Condition) :
    Clause.writtenCondition condition = bracketed condition.body := by
  cases condition with
  | leaf text => rfl
  | join connective first second others => exact written_join

/-- A member stands in brackets unless it is a leaf that needs none. -/
theorem guarded_cases (connective : Connective) (member : Condition) :
    (∃ text, member = leaf text ∧ member.needsBrackets connective = false ∧
      guarded connective member member.written = writtenLeaf text.toList) ∨
    guarded connective member member.written = bracketed member.body := by
  rw [guarded]
  cases member with
  | join connective first second others => exact .inr written_join
  | leaf text =>
    cases hn : needsBrackets connective (leaf text) with
    | true => exact .inr rfl
    | false => exact .inl ⟨text, rfl, rfl, rfl⟩

theorem unmarked_writtenLeaf {text : String} (h : PlainLeaf text) :
    ∀ c ∈ writtenLeaf text.toList, isMark c = false := by
  intro c hc
  rw [writtenLeaf] at hc
  split at hc
  · rcases List.mem_cons.1 hc with rfl | hc
    · rfl
    · exact h.unmarked c hc
  · exact h.unmarked c hc

theorem unbracketed_of_unmarked (h : ∀ c ∈ text, isMark c = false) :
    ∀ c ∈ text, c ≠ '(' ∧ c ≠ ')' := fun c hc =>
  ⟨(isMark_eq_false_iff.1 (h c hc)).1, (isMark_eq_false_iff.1 (h c hc)).2.1⟩

theorem unbracketed_separator (connective : Connective) :
    ∀ c ∈ connective.separator, c ≠ '(' ∧ c ≠ ')' := by
  cases connective <;> simp [Connective.separator]

theorem matched_guarded {connective : Connective} {member : Condition} (hp : member.Plain)
    (hb : Matched member.body) : Matched (guarded connective member member.written) := by
  rcases guarded_cases connective member with ⟨text, rfl, -, hg⟩ | hg
  · rw [hg]
    exact matched_of_unbracketed (unbracketed_of_unmarked (unmarked_writtenLeaf (plain_leaf.1 hp)))
  · rw [hg]
    exact hb.bracketed

theorem matched_writtenOthers {connective : Connective} {others : List Condition}
    (h : ∀ c ∈ others, c.Plain ∧ Matched c.body) : Matched (writtenOthers connective others) := by
  induction others with
  | nil => exact matched_of_unbracketed nofun
  | cons c rest ih =>
    obtain ⟨⟨hp, hb⟩, hr⟩ := List.forall_mem_cons.1 h
    have hs := matched_of_unbracketed (unbracketed_separator connective)
    exact (hs.append (matched_guarded hp hb)).append (ih hr)

theorem matched_body {condition : Condition} (hp : condition.Plain) : Matched condition.body := by
  induction condition using Condition.induct with
  | leaf text =>
    exact matched_of_unbracketed (unbracketed_of_unmarked (unmarked_writtenLeaf (plain_leaf.1 hp)))
  | join connective first second others ih₁ ih₂ iho =>
    obtain ⟨h₁, h₂, ho⟩ := plain_join.1 hp
    apply (matched_guarded h₁ (ih₁ h₁)).append
    apply matched_writtenOthers
    intro c hc
    rcases List.mem_cons.1 hc with rfl | hc
    · exact ⟨h₂, ih₂ h₂⟩
    · exact ⟨ho c hc, iho c hc (ho c hc)⟩

end ConditionalTags.Condition
