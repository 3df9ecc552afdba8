import ConditionalTags.Proofs.Blame
import ConditionalTags.Proofs.Offset

/-! # One value behind another

A semicolon behind a value that ends with a condition begins a new clause, and what follows is read as
a value of its own. No keyword reaches across the semicolon, and nothing of the first value is left
for the second but the count of its characters.
-/
namespace ConditionalTags

namespace Condition

variable {position : Nat} {text : List Char} {stop : Stop}

namespace Reading

variable {reading : Reading} {c : Char} {following other : Option Char}

/-- Of what follows a character it only matters whether it may follow the keyword. -/
theorem step_congr (h : Keyword.mayPrecede following = Keyword.mayPrecede other) :
    reading.step position c following = reading.step position c other := by
  have hk : reading.level.beforeKeyword? c following = reading.level.beforeKeyword? c other := by
    simp only [Level.beforeKeyword?, h]
  unfold step
  split
  · rfl
  · rfl
  · rfl
  · simp only [letter, hk]

theorem run_append (h : reading.run position text = .ok stop) (more : List Char) :
    reading.run position (text ++ ';' :: more) =
      .ok { stop with rest := stop.rest ++ ';' :: more } := by
  induction text generalizing reading position with
  | nil =>
    rw [run, finish] at h
    cases he : reading.enclosing with
    | cons outside enclosing => rw [he] at h; cases h
    | nil =>
      rw [he] at h
      cases hc : reading.level.close position with
      | error fault => simp [hc, bind, Except.bind] at h
      | ok condition =>
        simp only [hc, bind, Except.bind, pure, Except.pure] at h
        cases h
        refine run_of_complete ?_
        simp [step, semicolon, he, hc, bind, Except.bind, pure, Except.pure]
  | cons c rest ih =>
    have hs : reading.step position c (rest ++ ';' :: more).head? =
        reading.step position c rest.head? := step_congr (by cases rest <;> rfl)
    cases hstep : reading.step position c rest.head? with
    | error fault => rw [run_of_error hstep] at h; cases h
    | ok progress =>
      cases progress with
      | more next =>
        rw [run_of_more hstep] at h
        exact (run_of_more (hs.trans hstep)).trans (ih h)
      | complete condition =>
        rw [run_of_complete hstep] at h
        cases h
        exact run_of_complete (hs.trans hstep)

end Reading

theorem read_append (h : read position text = .ok stop) (more : List Char) :
    read position (text ++ ';' :: more) = .ok { stop with rest := stop.rest ++ ';' :: more } :=
  Reading.run_append h more

end Condition

namespace Clause
open Text Condition

variable {position : Nat} {text : List Char} {clauses : List Clause}

/-- What the second scan has read comes behind what the first has, and it ends as the second does. -/
instance : Append Scan :=
  ⟨fun first second => ⟨first.entries ++ second.entries, second.ending⟩⟩

namespace Scan

variable {first second : Scan}

theorem append_entries : (first ++ second).entries = first.entries ++ second.entries := rfl

theorem append_ending : (first ++ second).ending = second.ending := rfl

theorem entries_ne_nil_of_verdict (h : first.verdict = .ok clauses) : first.entries ≠ [] := by
  intro he
  cases hend : first.ending <;> simp [verdict, he, hend] at h

theorem find?_append (h : first.verdict = .ok clauses) :
    (first ++ second).entries.find? (fun entry => entry.clause.value.isEmpty) =
      second.entries.find? fun entry => entry.clause.value.isEmpty := by
  have hv := (of_verdict_eq_ok h).2
  have hn : first.entries.find? (fun entry => entry.clause.value.isEmpty) = none := by
    simpa [List.find?_eq_none] using hv
  rw [append_entries, List.find?_append, hn, Option.none_or]

theorem verdict_append (h : first.verdict = .ok clauses) (hn : second.entries ≠ []) :
    (first ++ second).verdict = second.verdict.map (clauses ++ ·) := by
  obtain ⟨entry, entries, he⟩ := List.exists_cons_of_ne_nil (entries_ne_nil_of_verdict h)
  obtain ⟨entry', entries', he'⟩ := List.exists_cons_of_ne_nil hn
  obtain ⟨rfl, -⟩ := of_verdict_eq_ok h
  rw [verdict, verdict, find?_append h, append_entries, append_ending, he, he']
  cases second.ending with
  | failed fault => rfl
  | settled =>
    cases List.find? _ (entry' :: entries') <;> simp [Except.map]
  | dangling mark =>
    cases List.find? _ (entry' :: entries') <;> cases mark <;> simp [Except.map]

theorem verdict_append_of_eq_nil (h : first.verdict = .ok clauses) (hn : second.entries = []) :
    (first ++ second).verdict =
      match second.ending with
      | .failed fault => .error fault
      | .dangling (some mark) => .error ⟨.unfinishedClause, some mark⟩
      | _ => .ok clauses := by
  obtain ⟨entry, entries, he⟩ := List.exists_cons_of_ne_nil (entries_ne_nil_of_verdict h)
  obtain ⟨rfl, -⟩ := of_verdict_eq_ok h
  rw [verdict, find?_append h, append_entries, append_ending, he, hn]
  cases second.ending with
  | failed fault => rfl
  | settled => simp
  | dangling mark => cases mark <;> simp

end Scan

variable {value after : List Char} {stop : Condition.Stop}

theorem body_append (hb : after.dropWhile (· == ' ') ≠ []) (more : List Char) :
    (after ++ more).dropWhile (· == ' ') = after.dropWhile (· == ' ') ++ more := by
  have hn : (after.dropWhile (· == ' ')).isEmpty = false := by simpa using hb
  simp [List.dropWhile_append, hn]

theorem body_append_ne_nil (hb : after.dropWhile (· == ' ') ≠ []) (more : List Char) :
    (after ++ more).dropWhile (· == ' ') ≠ [] := by
  rw [body_append hb]
  exact List.append_ne_nil_of_left_ne_nil hb more

theorem bodyAt_append (hb : after.dropWhile (· == ' ') ≠ []) (more : List Char) :
    bodyAt position value (after ++ more) = bodyAt position value after := by
  have hl : (after.takeWhile (· == ' ')).length ≠ after.length := by
    intro he
    have ha := congrArg List.length
      (List.takeWhile_append_dropWhile : after.takeWhile (· == ' ') ++ after.dropWhile _ = after)
    rw [List.length_append, he] at ha
    exact hb (List.length_eq_zero_iff.1 (by omega))
  simp [bodyAt, List.takeWhile_append, hl]

theorem read_bodyAt_append (hb : after.dropWhile (· == ' ') ≠ [])
    (hr : Condition.read (bodyAt position value after) (after.dropWhile (· == ' ')) = .ok stop)
    (more : List Char) :
    Condition.read (bodyAt position value (after ++ ';' :: more))
        ((after ++ ';' :: more).dropWhile (· == ' ')) =
      .ok { stop with rest := stop.rest ++ ';' :: more } := by
  rw [body_append hb, bodyAt_append hb]
  exact Condition.read_append hr more

theorem bodyAt_add_length (hv : cut '@' text = (value, some after)) :
    bodyAt position value after + (after.dropWhile (· == ' ')).length = position + text.length := by
  have ht := congrArg List.length (eq_of_cut_eq_some hv).1
  have ha := congrArg List.length
    (List.takeWhile_append_dropWhile : after.takeWhile (· == ' ') ++ after.dropWhile _ = after)
  simp only [List.length_append, List.length_cons] at ht ha
  rw [bodyAt]
  omega

theorem position_add_length_of_signed (hv : cut '@' text = (value, some after))
    (hr : Condition.read (bodyAt position value after) (after.dropWhile (· == ' ')) = .ok stop) :
    stop.position + stop.rest.length = position + text.length :=
  (Condition.position_add_length_of_read hr).trans (bodyAt_add_length hv)

theorem next_add_length {skipped next : List Char} (hv : cut '@' text = (value, some after))
    (hr : Condition.read (bodyAt position value after) (after.dropWhile (· == ' ')) = .ok stop)
    (hs : cut ';' stop.rest = (skipped, some next)) :
    stop.position + skipped.length + 1 + next.length = position + text.length := by
  have hp := position_add_length_of_signed hv hr
  have hn := congrArg List.length (eq_of_cut_eq_some hs).1
  simp only [List.length_append, List.length_cons] at hn
  omega

theorem scan_append (h : (scan position text).ending = .settled) (more : List Char) :
    scan position (text ++ ';' :: more) =
      scan position text ++ scan (position + text.length + 1) more := by
  induction position, text using scan_induct with
  | unsigned position text value hv => simp [scan_of_unsigned hv] at h
  | blank position text value after hv hb => simp [scan_of_blank hv hb] at h
  | failed position text value after fault hv hb hr => simp [scan_of_error hv hb hr] at h
  | last position text value after stop skipped hv hb hr hs =>
    obtain ⟨hrest, hn⟩ := eq_of_cut_eq_none hs
    have hl := position_add_length_of_signed hv hr
    rw [scan_of_last hv hb hr hs, scan_of_more (cut_append_of_eq_some hv _)
      (body_append_ne_nil hb _) (read_bodyAt_append hb hr more) (cut_append (hrest ▸ hn) more), hl]
    rfl
  | more position text value after stop skipped next hv hb hr hs ih =>
    rw [scan_of_more hv hb hr hs] at h ⊢
    rw [scan_of_more (cut_append_of_eq_some hv _) (body_append_ne_nil hb _)
      (read_bodyAt_append hb hr more) (cut_append_of_eq_some hs _), ih h, next_add_length hv hr hs]
    rfl

theorem of_entries_eq_nil (h : (scan position text).entries = []) :
    (∃ fault, (scan position text).ending = .failed fault) ∨
      (scan position text).ending = .dangling (firstMark position (cut '@' text).1) := by
  induction position, text using scan_induct with
  | unsigned position text value hv => exact .inr (by rw [scan_of_unsigned hv, hv])
  | blank position text value after hv hb => exact .inr (by rw [scan_of_blank hv hb, hv])
  | failed position text value after fault hv hb hr =>
    exact .inl ⟨fault, by rw [scan_of_error hv hb hr]⟩
  | last position text value after stop skipped hv hb hr hs => simp [scan_of_last hv hb hr hs] at h
  | more position text value after stop skipped next hv hb hr hs ih =>
    simp [scan_of_more hv hb hr hs] at h

section

variable {first second : String} (ha : readAll (some first) = .ok clauses)
  (hs : (scan 0 first.toList).ending = .settled)
include ha hs

/-- Two values with a semicolon between them are scanned one after the other. -/
theorem readAll_eq_append (second : String) :
    (scan 0 first.toList).verdict = .ok clauses ∧
      readAll (some (first ++ ";" ++ second)) =
        (scan 0 first.toList ++ (scan 0 second.toList).moved (first.length + 1)).verdict := by
  have hn : first ≠ "" := by
    rintro rfl
    simp [scan_nil] at hs
  have ht : (first ++ ";" ++ second).toList = first.toList ++ ';' :: second.toList := by
    simp [String.toList_append]
  have hne : first ++ ";" ++ second ≠ "" := by
    intro he
    simp [he] at ht
  have hl : 0 + first.toList.length + 1 = first.length + 1 + 0 := by simp [String.length_toList]
  refine ⟨by rw [← readAll_eq_verdict hn, ha], ?_⟩
  rw [readAll_eq_verdict hne, ht, scan_append hs, hl, scan_moved]

theorem readAll_append_of_ok {later : List Clause} (hb : readAll (some second) = .ok later) :
    readAll (some (first ++ ";" ++ second)) = .ok (clauses ++ later) := by
  obtain ⟨hv, hw⟩ := readAll_eq_append ha hs second
  by_cases hn : second = ""
  · subst hn
    cases hb
    rw [hw, String.toList_empty, scan_nil, Scan.verdict_append_of_eq_nil hv rfl, List.append_nil]
    rfl
  · rw [readAll_eq_verdict hn] at hb
    have he : ((scan 0 second.toList).moved (first.length + 1)).entries ≠ [] := by
      simpa [Scan.moved] using Scan.entries_ne_nil_of_verdict hb
    rw [hw, Scan.verdict_append hv he, verdict_moved, hb]
    rfl

theorem readAll_append_of_error {kind : FaultKind} {p : Nat}
    (hb : readAll (some second) = .error ⟨kind, some p⟩) :
    readAll (some (first ++ ";" ++ second)) = .error ⟨kind, some (first.length + 1 + p)⟩ := by
  obtain ⟨hv, hw⟩ := readAll_eq_append ha hs second
  replace hb := verdict_of_readAll_eq_error hb
  by_cases he : (scan 0 second.toList).entries = []
  · rw [hw, Scan.verdict_append_of_eq_nil hv (by simp [Scan.moved, he])]
    rcases of_entries_eq_nil he with ⟨fault, hf⟩ | hd
    · cases (verdict_of_failed hf).symm.trans hb
      simp [Scan.moved, hf, Ending.moved, Fault.moved]
    · simp [Scan.verdict, he, hd] at hb
  · rw [hw, Scan.verdict_append hv (by simpa [Scan.moved] using he), verdict_moved, hb]
    rfl

theorem readAll_append_of_noConditions {position : Option Nat}
    (hb : readAll (some second) = .error ⟨.noConditions, position⟩) :
    readAll (some (first ++ ";" ++ second)) =
      match (second.toList.takeWhile (· != '@')).findIdx? fun c => !isBlank c with
      | some q => .error ⟨.unfinishedClause, some (first.length + 1 + q)⟩
      | none => .ok clauses := by
  obtain ⟨hv, hw⟩ := readAll_eq_append ha hs second
  replace hb := verdict_of_readAll_eq_error hb
  have hf : ∀ fault, (scan 0 second.toList).ending ≠ .failed fault := by
    intro fault hf
    obtain ⟨p, -, -, hk, -⟩ := offendsAt_of_failed (scan_follows second.toList) hf
    cases (verdict_of_failed hf).symm.trans hb
    exact hk rfl
  have he : (scan 0 second.toList).entries = [] := by
    rcases of_verdict_eq_error hb with hfail | ⟨-, ⟨he, -⟩ | ⟨_, _, _, -, -, -, hx⟩ | ⟨_, -, hx⟩⟩
    · exact absurd hfail (hf _)
    · exact he
    · cases hx
    · cases hx
  rcases of_entries_eq_nil he with ⟨fault, hfail⟩ | hd
  · exact absurd hfail (hf fault)
  · rw [hw, Scan.verdict_append_of_eq_nil hv (by simp [Scan.moved, he])]
    simp only [Scan.moved, Ending.moved, hd, firstMark, cut_fst, Option.map_map]
    cases List.findIdx? _ _ <;> simp

/-- A second value behind a semicolon is read as it is alone: its clauses come behind those of the
first, and its fault moves by what stands in front. If it has no clause, then text in front of its
`@` is an unfinished clause, and without such text nothing is wrong. -/
theorem readAll_append :
    (∀ later, readAll (some second) = .ok later →
        readAll (some (first ++ ";" ++ second)) = .ok (clauses ++ later)) ∧
      (∀ kind p, readAll (some second) = .error ⟨kind, some p⟩ →
        readAll (some (first ++ ";" ++ second)) =
          .error ⟨kind, some (first.length + 1 + p)⟩) ∧
      ∀ position, readAll (some second) = .error ⟨.noConditions, position⟩ →
        readAll (some (first ++ ";" ++ second)) =
          match (second.toList.takeWhile (· != '@')).findIdx? fun c => !isBlank c with
          | some q => .error ⟨.unfinishedClause, some (first.length + 1 + q)⟩
          | none => .ok clauses :=
  ⟨fun _ => readAll_append_of_ok ha hs, fun _ _ => readAll_append_of_error ha hs,
    fun _ => readAll_append_of_noConditions ha hs⟩

end

/-- Behind a value that ends with skipped text: two clauses, two faults, text without a sign, and
nothing but blanks in front of one. -/
theorem readAll_append_skipped :
    let first := "no @ (a;b and) c"
    let clauses : List Clause := [⟨"no", some (join .or (leaf "a") (leaf "b and") [])⟩]
    readAll (some first) = .ok clauses ∧ (scan 0 first.toList).ending = .settled ∧
      readAll (some (first ++ ";" ++ " yes@d;x@and")) =
        .ok (clauses ++ [⟨"yes", some (leaf "d")⟩, ⟨"x", some (leaf "and")⟩]) ∧
      readAll (some (first ++ ";" ++ "y @ (d;e and f)")) =
        .error ⟨.mixedConnectives, some (first.length + 1 + 9)⟩ ∧
      readAll (some (first ++ ";" ++ "y @ d; @ e")) =
        .error ⟨.noValue, some (first.length + 1 + 7)⟩ ∧
      readAll (some (first ++ ";" ++ " z ")) =
        .error ⟨.unfinishedClause, some (first.length + 1 + 1)⟩ ∧
      readAll (some (first ++ ";" ++ "\t@ ")) = .ok clauses := by
  intro first clauses
  have ha : readAll (some first) = .ok clauses := by decide +kernel
  have hs : (scan 0 first.toList).ending = .settled := by decide +kernel
  have hok : readAll (some " yes@d;x@and") =
      .ok [⟨"yes", some (leaf "d")⟩, ⟨"x", some (leaf "and")⟩] := by decide +kernel
  have hmixed : readAll (some "y @ (d;e and f)") = .error ⟨.mixedConnectives, some 9⟩ := by
    decide +kernel
  have hblank : readAll (some "y @ d; @ e") = .error ⟨.noValue, some 7⟩ := by decide +kernel
  have hunsigned := (readAll_append ha hs).2.2 none
    (by decide +kernel : readAll (some " z ") = .error ⟨.noConditions, none⟩)
  have hnothing := (readAll_append ha hs).2.2 none
    (by decide +kernel : readAll (some "\t@ ") = .error ⟨.noConditions, none⟩)
  rw [show List.findIdx? (fun c => !isBlank c) _ = some 1 by decide +kernel] at hunsigned
  rw [show List.findIdx? (fun c => !isBlank c) _ = none by decide +kernel] at hnothing
  exact ⟨ha, hs, (readAll_append ha hs).1 _ hok, (readAll_append ha hs).2.1 _ _ hmixed,
    (readAll_append ha hs).2.1 _ _ hblank, hunsigned, hnothing⟩

end Clause

end ConditionalTags
