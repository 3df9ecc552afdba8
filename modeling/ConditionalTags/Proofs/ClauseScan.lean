import ConditionalTags.Clause

/-! # One clause at a time

What a scan comes to, by how far its first clause can be read. The rest of the text is read from
behind the semicolon that ends the clause.
-/
namespace ConditionalTags.Clause
open Text

variable {position : Nat} {text value after skipped next : List Char} {stop : Condition.Stop}

instance {ε α : Type} [DecidableEq ε] [DecidableEq α] : DecidableEq (Except ε α)
  | .ok a, .ok b => decidable_of_iff (a = b) (by rw [Except.ok.injEq])
  | .error a, .error b => decidable_of_iff (a = b) (by rw [Except.error.injEq])
  | .ok _, .error _ => isFalse nofun
  | .error _, .ok _ => isFalse nofun

/-- Where the condition begins: behind the `@` and the spaces after it. -/
def bodyAt (position : Nat) (value after : List Char) : Nat :=
  position + value.length + 1 + (after.takeWhile (· == ' ')).length

def entryOf (position : Nat) (value : List Char) (stop : Condition.Stop) : Entry :=
  ⟨⟨String.ofList (trim value), some stop.condition⟩, position + value.length⟩

theorem scan_of_unsigned (hv : cut '@' text = (value, none)) :
    scan position text = ⟨[], .dangling (firstMark position value)⟩ := by
  rw [scan]
  split
  · next other h =>
    rw [hv] at h
    cases h
    rfl
  · next h => rw [hv] at h; cases h

theorem scan_nil (position : Nat) : scan position [] = ⟨[], .dangling none⟩ :=
  scan_of_unsigned (rfl : cut '@' [] = ([], none))

theorem scan_of_signed (hv : cut '@' text = (value, some after)) :
    scan position text =
      if (after.dropWhile (· == ' ')).isEmpty then ⟨[], .dangling (firstMark position value)⟩
      else
        match Condition.read (bodyAt position value after) (after.dropWhile (· == ' ')) with
        | .error fault => ⟨[], .failed fault⟩
        | .ok stop =>
          match cut ';' stop.rest with
          | (_, none) => ⟨[entryOf position value stop], .settled⟩
          | (skipped, some next) =>
            { scan (stop.position + skipped.length + 1) next with
              entries := entryOf position value stop ::
                (scan (stop.position + skipped.length + 1) next).entries } := by
  rw [scan]
  split
  · next h => rw [hv] at h; cases h
  · next other rest h =>
    rw [hv] at h
    cases h
    dsimp only
    split
    · rfl
    · rw [bodyAt]
      split
      · next fault hr => rw [hr]
      · next stop hr =>
        rw [hr]
        dsimp only
        split
        · next hs => rw [hs]; rfl
        · next hs => rw [hs]; rfl

theorem scan_of_blank (hv : cut '@' text = (value, some after))
    (hb : after.dropWhile (· == ' ') = []) :
    scan position text = ⟨[], .dangling (firstMark position value)⟩ := by
  rw [scan_of_signed hv, hb]
  rfl

theorem scan_of_error {fault : Fault} (hv : cut '@' text = (value, some after))
    (hb : after.dropWhile (· == ' ') ≠ [])
    (hr : Condition.read (bodyAt position value after) (after.dropWhile (· == ' ')) =
      .error fault) :
    scan position text = ⟨[], .failed fault⟩ := by
  rw [scan_of_signed hv, if_neg (by simpa using hb), hr]

theorem scan_of_last (hv : cut '@' text = (value, some after))
    (hb : after.dropWhile (· == ' ') ≠ [])
    (hr : Condition.read (bodyAt position value after) (after.dropWhile (· == ' ')) = .ok stop)
    (hs : cut ';' stop.rest = (skipped, none)) :
    scan position text = ⟨[entryOf position value stop], .settled⟩ := by
  rw [scan_of_signed hv, if_neg (by simpa using hb), hr]
  dsimp only
  rw [hs]

theorem scan_of_more (hv : cut '@' text = (value, some after))
    (hb : after.dropWhile (· == ' ') ≠ [])
    (hr : Condition.read (bodyAt position value after) (after.dropWhile (· == ' ')) = .ok stop)
    (hs : cut ';' stop.rest = (skipped, some next)) :
    scan position text =
      { scan (stop.position + skipped.length + 1) next with
        entries := entryOf position value stop ::
          (scan (stop.position + skipped.length + 1) next).entries } := by
  rw [scan_of_signed hv, if_neg (by simpa using hb), hr]
  dsimp only
  rw [hs]

/-- A scan goes from clause to clause. It ends with a value that has no condition, at a condition that
is at fault, or with a condition that no semicolon follows. -/
@[elab_as_elim]
theorem scan_induct {P : Nat → List Char → Prop}
    (unsigned : ∀ position text value, cut '@' text = (value, none) → P position text)
    (blank : ∀ position text value after, cut '@' text = (value, some after) →
      after.dropWhile (· == ' ') = [] → P position text)
    (failed : ∀ position text value after fault, cut '@' text = (value, some after) →
      after.dropWhile (· == ' ') ≠ [] →
      Condition.read (bodyAt position value after) (after.dropWhile (· == ' ')) = .error fault →
      P position text)
    (last : ∀ position text value after stop skipped, cut '@' text = (value, some after) →
      after.dropWhile (· == ' ') ≠ [] →
      Condition.read (bodyAt position value after) (after.dropWhile (· == ' ')) = .ok stop →
      cut ';' stop.rest = (skipped, none) → P position text)
    (more : ∀ position text value after stop skipped next, cut '@' text = (value, some after) →
      after.dropWhile (· == ' ') ≠ [] →
      Condition.read (bodyAt position value after) (after.dropWhile (· == ' ')) = .ok stop →
      cut ';' stop.rest = (skipped, some next) →
      P (stop.position + skipped.length + 1) next → P position text)
    (position : Nat) (text : List Char) : P position text := by
  induction position, text using scan.induct with
  | case1 position text value hv => exact unsigned position text value hv
  | case2 position text value after hv body hb =>
    exact blank position text value after hv (List.isEmpty_iff.1 hb)
  | case3 position text value after hv sign spaces body hb fault hr =>
    exact failed position text value after fault hv (fun he => hb (List.isEmpty_iff.2 he)) hr
  | case4 position text value after hv sign spaces body hb stop hr skipped hs =>
    exact last position text value after stop skipped hv (fun he => hb (List.isEmpty_iff.2 he)) hr hs
  | case5 position text value after hv sign spaces body hb stop hr skipped next hs _ ih =>
    exact more position text value after stop skipped next hv
      (fun he => hb (List.isEmpty_iff.2 he)) hr hs ih

theorem next_suffix (hv : cut '@' text = (value, some after))
    (hr : Condition.read (bodyAt position value after) (after.dropWhile (· == ' ')) = .ok stop)
    (hs : cut ';' stop.rest = (skipped, some next)) : next <:+ text := by
  have hnext : next <:+ stop.rest := ⟨skipped ++ [';'], by simp [(eq_of_cut_eq_some hs).1]⟩
  have hrest := Condition.rest_suffix_of_read hr
  have hafter : after <:+ text := ⟨value ++ ['@'], by simp [(eq_of_cut_eq_some hv).1]⟩
  exact hnext.trans (hrest.trans ((List.dropWhile_suffix _).trans hafter))

/-- What every clause of a text has, by following the scan from clause to clause. Each of them is read
where a suffix of the text begins. -/
theorem forall_mem_scan_of_suffix {P : Entry → Prop} {whole : List Char}
    (h : ∀ position text value after stop, text <:+ whole → cut '@' text = (value, some after) →
      Condition.read (bodyAt position value after) (after.dropWhile (· == ' ')) = .ok stop →
      P (entryOf position value stop))
    (position : Nat) (text : List Char) (ht : text <:+ whole) :
    ∀ entry ∈ (scan position text).entries, P entry := by
  induction position, text using scan_induct with
  | unsigned position text value hv =>
    rw [scan_of_unsigned hv]
    exact nofun
  | blank position text value after hv hb =>
    rw [scan_of_blank hv hb]
    exact nofun
  | failed position text value after fault hv hb hr =>
    rw [scan_of_error hv hb hr]
    exact nofun
  | last position text value after stop skipped hv hb hr hs =>
    rw [scan_of_last hv hb hr hs]
    intro entry he
    rw [List.mem_singleton.1 he]
    exact h position text value after stop ht hv hr
  | more position text value after stop skipped next hv hb hr hs ih =>
    rw [scan_of_more hv hb hr hs]
    intro entry he
    rcases List.mem_cons.1 he with rfl | he
    · exact h position text value after stop ht hv hr
    · exact ih ((next_suffix hv hr hs).trans ht) entry he

theorem forall_mem_scan {P : Entry → Prop}
    (h : ∀ position text value after stop, cut '@' text = (value, some after) →
      Condition.read (bodyAt position value after) (after.dropWhile (· == ' ')) = .ok stop →
      P (entryOf position value stop))
    (position : Nat) (text : List Char) : ∀ entry ∈ (scan position text).entries, P entry :=
  forall_mem_scan_of_suffix (fun position text value after stop _ => h position text value after stop)
    position text text.suffix_refl

theorem verdict_of_failed {scan : Scan} {fault : Fault} (h : scan.ending = .failed fault) :
    scan.verdict = .error fault := by
  rw [Scan.verdict, h]

theorem verdict_of_settled {scan : Scan} (h : scan.ending = .settled) (hn : scan.entries ≠ [])
    (hv : ∀ entry ∈ scan.entries, entry.clause.value ≠ "") :
    scan.verdict = .ok (scan.entries.map Entry.clause) := by
  have hf : scan.entries.find? (fun entry => entry.clause.value.isEmpty) = none := by
    rw [List.find?_eq_none]
    intro entry he
    simpa using hv entry he
  cases hs : scan.entries with
  | nil => exact absurd hs hn
  | cons entry entries =>
    rw [hs] at hf
    rw [Scan.verdict, h, hs, hf]

theorem of_verdict_eq_ok {scan : Scan} {clauses : List Clause} (h : scan.verdict = .ok clauses) :
    clauses = scan.entries.map Entry.clause ∧
      ∀ entry ∈ scan.entries, entry.clause.value ≠ "" := by
  rw [Scan.verdict] at h
  split at h
  · cases h
  · cases h
  · cases h
  · cases h
  · next hf _ _ _ =>
    cases h
    refine ⟨rfl, fun entry he => ?_⟩
    simpa using List.find?_eq_none.1 hf entry he

/-- Why a scan is rejected: a condition is at fault, or there is no clause, or a first clause without
a value, or an unfinished one. -/
theorem of_verdict_eq_error {scan : Scan} {fault : Fault} (h : scan.verdict = .error fault) :
    scan.ending = .failed fault ∨
      (∀ other, scan.ending ≠ .failed other) ∧
        (scan.entries = [] ∧ fault = ⟨.noConditions, none⟩ ∨
          (∃ before entry after, scan.entries = before ++ entry :: after ∧
            (∀ earlier ∈ before, earlier.clause.value ≠ "") ∧ entry.clause.value = "" ∧
            fault = ⟨.noValue, some entry.sign⟩) ∨
          ∃ mark, scan.ending = .dangling (some mark) ∧
            fault = ⟨.unfinishedClause, some mark⟩) := by
  rw [Scan.verdict] at h
  split at h
  · next he =>
    cases h
    exact .inl he
  · next he hn =>
    cases h
    exact .inr ⟨hn, .inl ⟨he, rfl⟩⟩
  · next entry hf hn _ =>
    cases h
    obtain ⟨hv, before, after, he, hb⟩ := List.find?_eq_some_iff_append.1 hf
    have hbefore : ∀ earlier ∈ before, earlier.clause.value ≠ "" := by simpa using hb
    exact .inr ⟨hn, .inr (.inl ⟨before, entry, after, he, hbefore, by simpa using hv, rfl⟩)⟩
  · next mark he _ _ =>
    cases h
    exact .inr ⟨by simp [he], .inr (.inr ⟨mark, he, rfl⟩)⟩
  · cases h

theorem ending_of_verdict_eq_ok {scan : Scan} {clauses : List Clause}
    (h : scan.verdict = .ok clauses) : scan.ending = .settled ∨ scan.ending = .dangling none := by
  rw [Scan.verdict] at h
  split at h
  · cases h
  · cases h
  · cases h
  · cases h
  · next hn hm _ =>
    cases he : scan.ending with
    | failed fault => exact absurd he (hn fault)
    | settled => exact .inl rfl
    | dangling mark =>
      cases mark with
      | none => exact .inr rfl
      | some mark => exact absurd he (hm mark)

theorem readAll_eq_verdict {value : String} (h : value ≠ "") :
    readAll (some value) = (scan 0 value.toList).verdict := by
  rw [readAll, Option.getD_some]
  split
  · next he => exact absurd (String.toList_eq_nil_iff.1 he) h
  · rfl

theorem ne_empty_of_readAll_eq_error {value : String} {fault : Fault}
    (h : readAll (some value) = .error fault) : value ≠ "" := by
  rintro rfl
  cases h

theorem verdict_of_readAll_eq_error {value : String} {fault : Fault}
    (h : readAll (some value) = .error fault) : (scan 0 value.toList).verdict = .error fault :=
  (readAll_eq_verdict (ne_empty_of_readAll_eq_error h)).symm.trans h

theorem exists_entry_of_readAll {value : Option String} {clauses : List Clause}
    (h : readAll value = .ok clauses) : ∀ clause ∈ clauses,
    ∃ entry ∈ (scan 0 (value.getD "").toList).entries, entry.clause = clause ∧ clause.value ≠ "" := by
  rw [readAll] at h
  split at h
  · cases h
    simp
  · obtain ⟨rfl, hv⟩ := of_verdict_eq_ok h
    intro clause hc
    obtain ⟨entry, he, rfl⟩ := List.mem_map.1 hc
    exact ⟨entry, he, rfl, hv entry he⟩

end ConditionalTags.Clause
