import ConditionalTags.Proofs.Appending
import ConditionalTags.Proofs.Brackets
import ConditionalTags.Proofs.Nesting

/-! # Brackets around a condition

A bracket pair around all that was read of a condition leaves the condition as it is. The reading
inside the pair goes along with the reading without it, with one more level at the bottom of its
stack, and it fails only where the stack is full already. The last closing bracket then does what the
end of the text or the semicolon does outside.
-/
namespace ConditionalTags.Condition

variable {position opened : Nat} {c : Char} {following : Option Char} {text : List Char} {stop : Stop}

namespace Level

variable {level : Level} {condition : Condition}

theorem close_eq_ok_of_close (h : level.close position = .ok condition) (other : Nat) :
    level.close other = .ok condition := by
  rw [close] at h ⊢
  split at h
  · exact h
  · cases h

end Level

namespace Stop

variable {rest : List Char}

theorem consumed_of_eq (h : stop.position = position) :
    stop.consumed position text = if stop.rest.head? = some ')' then [')'] else [] := by
  rw [consumed, h, Nat.sub_self, List.take_zero, List.nil_append]

theorem consumed_cons (h : position < stop.position) :
    stop.consumed position (c :: rest) = c :: stop.consumed (position + 1) rest := by
  have hs : stop.position - position = stop.position - (position + 1) + 1 := by omega
  rw [consumed, consumed, hs, List.take_succ_cons, List.cons_append]

end Stop

theorem exists_read_at (h : read position text = .ok stop) (other : Nat) :
    ∃ moved, read other text = .ok moved ∧ moved.condition = stop.condition ∧
      moved.consumed other text = stop.consumed position text := by
  have hp := read_moved position 0 text
  have ho := read_moved other 0 text
  rw [Nat.add_zero] at hp ho
  rw [h] at hp
  cases hr : read 0 text with
  | error fault => rw [hr] at hp; cases hp
  | ok start =>
    rw [hr] at hp ho
    obtain rfl : stop = start.moved position := Except.ok.inj hp
    have hc : ∀ offset, (start.moved offset).consumed offset text = start.consumed 0 text := by
      intro offset
      rw [Stop.consumed, Stop.consumed, Stop.moved, Nat.add_sub_cancel_left, Nat.sub_zero]
    exact ⟨_, ho, rfl, (hc other).trans (hc position).symm⟩

/-- The depth stays below `bound` all along the text, from `depth` on. -/
def StaysBelow (bound depth : Nat) (text : List Char) : Prop :=
  ∀ i, depthFrom depth (text.take i) < bound

theorem staysBelow_nil {bound depth : Nat} : StaysBelow bound depth [] ↔ depth < bound := by
  simp [StaysBelow, depthFrom]

theorem staysBelow_cons {bound depth : Nat} :
    StaysBelow bound depth (c :: text) ↔
      depth < bound ∧ StaysBelow bound (depthStep depth c) text := by
  constructor
  · exact fun h => ⟨h 0, fun i => h (i + 1)⟩
  · rintro ⟨hd, h⟩ (_ | i)
    · exact hd
    · exact h i

theorem StaysBelow.lt {bound depth : Nat} (h : StaysBelow bound depth text) : depth < bound :=
  h 0

namespace Reading

variable {reading next : Reading} {condition : Condition}

/-- The same reading inside one more bracket pair, which was opened at `opened`. -/
def inside (opened : Nat) (reading : Reading) : Reading :=
  { reading with enclosing := reading.enclosing ++ [({}, opened)] }

theorem enclosing_length_of_step (h : reading.step position c following = .ok (.more next)) :
    next.enclosing.length = depthStep reading.enclosing.length c := by
  unfold step at h
  split at h
  · obtain ⟨-, hn⟩ := opening_cases h
    cases hn
    rfl
  · obtain ⟨around, opened, enclosing, inner, he, -, ⟨-, hn⟩ | ⟨-, _, -, hn⟩⟩ := closing_cases h
    · cases hn
      rw [he]
      rfl
    · cases hn
  · obtain ⟨-, level, -, hn⟩ | ⟨-, _, -, hn⟩ := semicolon_cases h
    · cases hn
      rfl
    · cases hn
  · next ho hc _ =>
    rw [depthStep, if_neg ho, if_neg hc]
    obtain ⟨before, level, -, -, hn⟩ | ⟨-, hn⟩ := letter_cases h <;> cases hn <;> rfl

/-- Inside the pair a character does the same, unless it opens a bracket too many. -/
theorem step_inside (h : reading.step position c following = .ok (.more next))
    (hd : reading.enclosing.length < maxDepth) :
    (reading.inside opened).step position c following =
      if next.enclosing.length < maxDepth then .ok (.more (next.inside opened))
      else .error ⟨.tooDeep, some position⟩ := by
  have hl := enclosing_length_of_step h
  unfold step at h ⊢
  split at h
  · obtain ⟨-, hn⟩ := opening_cases h
    cases hn
    simp only [openBracket, inside, List.length_append, List.length_cons, List.length_nil,
      List.cons_append]
  · obtain ⟨around, opened, enclosing, inner, he, hi, ⟨-, hn⟩ | ⟨-, _, -, hn⟩⟩ := closing_cases h
    · cases hn
      have hlt : enclosing.length < maxDepth := by
        rw [he, List.length_cons] at hd
        omega
      rw [if_pos hlt]
      simp [closeBracket, inside, he, hi, bind, Except.bind, pure, Except.pure]
    · cases hn
  · obtain ⟨-, level, hc, hn⟩ | ⟨-, _, -, hn⟩ := semicolon_cases h
    · cases hn
      rw [if_pos hd]
      simp [semicolon, inside, hc, bind, Except.bind, pure, Except.pure]
    · cases hn
  · next ho hc _ =>
    rw [depthStep, if_neg ho, if_neg hc] at hl
    rw [hl, if_pos hd]
    obtain ⟨before, level, hb, hk, hn⟩ | ⟨hb, hn⟩ := letter_cases h
    · cases hn
      simp [letter, inside, hb, hk, bind, Except.bind, pure, Except.pure]
    · cases hn
      simp [letter, inside, hb, pure, Except.pure]

theorem run_inside_closing {level : Level} (h : level.close position = .ok condition)
    (after : List Char) :
    (Reading.inside opened ⟨level, []⟩).run position (')' :: after) =
      .ok ⟨condition, position, ')' :: after⟩ := by
  apply run_of_complete
  change closeBracket ⟨level, [({}, opened)]⟩ position = _
  simp only [closeBracket, h, bind, Except.bind]
  rfl

theorem mayPrecede_consumed (h : reading.run position text = .ok stop) (after : List Char) :
    Keyword.mayPrecede (stop.consumed position text ++ ')' :: after).head? =
      Keyword.mayPrecede text.head? := by
  have hl := position_add_length_of_run h
  obtain ⟨before, ht⟩ := rest_suffix_of_run h
  cases before with
  | nil =>
    rw [List.nil_append] at ht
    rw [Stop.consumed_of_eq (by rw [ht] at hl; omega), ht]
    rcases rest_of_run h with hr | ⟨c, rest, hr, rfl | rfl⟩ <;> rw [← ht, hr] <;> rfl
  | cons c before =>
    rw [← ht, List.cons_append, Stop.consumed_cons]
    · rfl
    · rw [← ht, List.length_append, List.length_cons] at hl
      omega

theorem run_inside_complete {rest used : List Char}
    (h : reading.step position c following = .ok (.complete condition))
    (hd : reading.enclosing.length < maxDepth)
    (hu : Stop.consumed ⟨condition, position, c :: rest⟩ position (c :: rest) = used)
    (after : List Char) :
    StaysBelow maxDepth reading.enclosing.length used ∧
      (reading.inside opened).run position (used ++ ')' :: after) =
        .ok ⟨condition, position + used.length, ')' :: after⟩ := by
  rw [Stop.consumed_of_eq rfl, List.head?_cons] at hu
  rcases ends_of_complete h with rfl | rfl
  · obtain ⟨around, outer, enclosing, inner, he, hi, ⟨-, hn⟩ | ⟨rfl, _, hc, hn⟩⟩ := closing_cases h
    · cases hn
    · cases hn
      rw [if_pos rfl] at hu
      subst hu
      have hstep : (reading.inside opened).step position ')' (some ')') =
          .ok (.more (Reading.inside opened ⟨around.enter inner, []⟩)) := by
        simp [step, closeBracket, inside, he, hi, bind, Except.bind, pure, Except.pure]
      rw [staysBelow_cons, staysBelow_nil, List.singleton_append, run_of_more hstep]
      refine ⟨⟨hd, ?_⟩, run_inside_closing (Level.close_eq_ok_of_close hc _) after⟩
      rw [he]
      exact Nat.zero_lt_succ _
  · obtain ⟨-, level, -, hn⟩ | ⟨he, _, hc, hn⟩ := semicolon_cases h
    · cases hn
    · cases hn
      obtain ⟨level, enclosing⟩ := reading
      cases he
      rw [if_neg (by decide)] at hu
      subst hu
      exact ⟨staysBelow_nil.2 hd, run_inside_closing hc after⟩

/-- The reading inside the pair goes along as long as the stack is not full, and comes to the same
condition at the closing bracket of the pair. -/
theorem run_inside {used : List Char} (h : reading.run position text = .ok stop)
    (hd : reading.enclosing.length < maxDepth) (hu : stop.consumed position text = used)
    (after : List Char) :
    (StaysBelow maxDepth reading.enclosing.length used →
      (reading.inside opened).run position (used ++ ')' :: after) =
        .ok ⟨stop.condition, position + used.length, ')' :: after⟩) ∧
    (¬StaysBelow maxDepth reading.enclosing.length used →
      ∃ deep, (reading.inside opened).run position (used ++ ')' :: after) =
        .error ⟨.tooDeep, some deep⟩) := by
  induction text generalizing reading position used with
  | nil =>
    obtain ⟨level, enclosing⟩ := reading
    rw [run, finish] at h
    cases enclosing with
    | cons outside enclosing => cases h
    | nil =>
      cases hc : level.close position with
      | error fault => simp [hc, bind, Except.bind] at h
      | ok condition =>
        simp only [hc, bind, Except.bind, pure, Except.pure] at h
        cases h
        rw [Stop.consumed_of_eq rfl, List.head?_nil, if_neg (by decide)] at hu
        subst hu
        exact ⟨fun _ => run_inside_closing hc after, absurd (staysBelow_nil.2 hd)⟩
  | cons c rest ih =>
    cases hs : reading.step position c rest.head? with
    | error fault => rw [run_of_error hs] at h; cases h
    | ok progress =>
      cases progress with
      | complete condition =>
        rw [run_of_complete hs] at h
        cases h
        obtain ⟨hb, hr⟩ := run_inside_complete hs hd hu after
        exact ⟨fun _ => hr, absurd hb⟩
      | more next =>
        rw [run_of_more hs] at h
        have hp : position < stop.position := by
          have hle := (rest_suffix_of_run h).length_le
          have hlen := position_add_length_of_run h
          omega
        rw [Stop.consumed_cons hp] at hu
        subst hu
        have hstep := @step_inside _ opened _ _ _ _ hs hd
        rw [← step_congr (mayPrecede_consumed h after)] at hstep
        rw [staysBelow_cons, ← enclosing_length_of_step hs, and_iff_right hd, List.cons_append]
        by_cases hn : next.enclosing.length < maxDepth
        · rw [if_pos hn] at hstep
          have hl : position + (c :: stop.consumed (position + 1) rest).length =
              position + 1 + (stop.consumed (position + 1) rest).length := by
            rw [List.length_cons]
            omega
          rw [run_of_more hstep, hl]
          exact ih h hn rfl
        · rw [if_neg hn] at hstep
          exact ⟨fun hb => absurd hb.lt hn, fun _ => ⟨position, run_of_error hstep⟩⟩

end Reading

theorem staysBelow_iff_nestsWithin {bound : Nat} :
    StaysBelow (bound + 1) 0 text ↔ NestsWithin bound text := by
  simp only [StaysBelow, NestsWithin, depthAt_eq, Nat.lt_succ_iff]

theorem exists_consumed_eq_take (h : read position text = .ok stop) :
    ∃ n ≤ stopIndex text + 1, stop.consumed position text = text.take n := by
  have hp := (wellFormed_of_read h).2
  have hr := rest_eq_drop_of_read h
  rw [Stop.consumed, hp, Nat.add_sub_cancel_left, hr, List.head?_drop]
  by_cases hc : text[stopIndex text]? = some ')'
  · exact ⟨stopIndex text + 1, Nat.le_refl _, by rw [if_pos hc, List.take_add_one, hc]; rfl⟩
  · exact ⟨stopIndex text, Nat.le_succ _, by rw [if_neg hc, List.append_nil]⟩

theorem nestsWithin_consumed (h : read position text = .ok stop) :
    NestsWithin maxDepth (stop.consumed position text) := by
  obtain ⟨n, hn, hu⟩ := exists_consumed_eq_take h
  intro i
  have hs := (wellFormed_of_read h).1.shallow (min i n) (by omega)
  rw [depthAt_eq] at hs ⊢
  rwa [hu, List.take_take]

/-- Brackets around all that was read of a condition leave the condition as it is, whatever follows
them, unless they make one bracket too many. -/
theorem read_bracketed_consumed (h : read position text = .ok stop) (other : Nat)
    (after : List Char) :
    let used := stop.consumed position text
    NestsWithin maxDepth used ∧
      (NestsWithin (maxDepth - 1) used →
        read other (bracketed used ++ after) =
          .ok ⟨stop.condition, other + (used.length + 1), ')' :: after⟩) ∧
      (¬NestsWithin (maxDepth - 1) used →
        ∃ deep, read other (bracketed used ++ after) = .error ⟨.tooDeep, some deep⟩) := by
  intro used
  obtain ⟨moved, hread, hcondition, hused⟩ := exists_read_at h (other + 1)
  have hr := @Reading.run_inside _ other _ _ _ _ hread (Nat.zero_lt_succ _) hused after
  have ho : read other (bracketed used ++ after) =
      (Reading.inside other {}).run (other + 1) (used ++ ')' :: after) := by
    rw [bracketed, List.cons_append, List.cons_append, List.append_assoc]
    exact Reading.run_of_more rfl
  have hb : StaysBelow maxDepth 0 used ↔ NestsWithin (maxDepth - 1) used :=
    staysBelow_iff_nestsWithin
  rw [← ho, hcondition, Nat.add_assoc, Nat.add_comm 1] at hr
  rw [← hb]
  exact ⟨nestsWithin_consumed h, hr⟩

/-- Text in front of a pair, a blank member and a keyword that is text; and as many brackets as may
be open at once. -/
theorem read_bracketed_consumed_juxtaposed :
    let text := "x and y (a; ;b and) ;z".toList
    let pair := join .or (leaf "a") (leaf "b and") []
    let stop : Stop := ⟨join .and (leaf "x") pair [leaf "y"], 21, ") ;z".toList⟩
    let nested := List.replicate 20 '(' ++ 'a' :: List.replicate 20 ')'
    (read 3 text = .ok stop ∧ NestsWithin (maxDepth - 1) (stop.consumed 3 text) ∧
      read 5 (bracketed (stop.consumed 3 text) ++ "and".toList) =
        .ok ⟨stop.condition, 25, ")and".toList⟩) ∧
    read 0 nested = .ok ⟨leaf "a", 40, [')']⟩ ∧ ¬NestsWithin (maxDepth - 1) nested ∧
      ∃ deep, read 5 (bracketed nested ++ "and".toList) = .error ⟨.tooDeep, some deep⟩ := by
  intro text pair stop nested
  have h : read 3 text = .ok stop := by rfl
  have hn : NestsWithin (maxDepth - 1) (stop.consumed 3 text) := by decide +kernel
  have hnested : read 0 nested = .ok ⟨leaf "a", 40, [')']⟩ := by rfl
  have hdeep : ¬NestsWithin (maxDepth - 1) nested := by decide +kernel
  exact ⟨⟨h, hn, (read_bracketed_consumed h 5 "and".toList).2.1 hn⟩, hnested, hdeep,
    (read_bracketed_consumed hnested 5 "and".toList).2.2 hdeep⟩

end ConditionalTags.Condition
