import ConditionalTags.Proofs.WrittenReader

/-! # Clauses that are read as they were written

What is written for writable clauses is read as these clauses, unless the brackets of one of them
nest too deep; then that is the fault. Other clauses are never read, whatever the text.
-/
namespace ConditionalTags.Clause
open Text Condition

/-- The brackets that are written for the condition nest no deeper than reading allows. Brackets in
the value are text. -/
def FitsDepth (clause : Clause) : Prop :=
  ∀ condition, clause.condition = some condition →
    NestsWithin maxDepth (writtenCondition condition)

instance (clause : Clause) : Decidable clause.FitsDepth :=
  inferInstanceAs (Decidable (∀ condition ∈ clause.condition,
    NestsWithin maxDepth (writtenCondition condition)))

variable {clause : Clause} {clauses : List Clause} {front tail : List Char} {position : Nat}

theorem writtenAll_singleton : writtenAll [clause] = clause.written := by
  simp [writtenAll, List.intercalate]

theorem writtenAll_cons_cons {next : Clause} :
    writtenAll (clause :: next :: clauses) =
      clause.written ++ ';' :: ' ' :: writtenAll (next :: clauses) := by
  simp [writtenAll, List.intercalate]

theorem cut_written {condition : Condition} (hw : clause.Writable)
    (hc : clause.condition = some condition) (hf : ∀ c ∈ front, c = ' ') (tail : List Char) :
    ∃ value after, cut '@' (front ++ (clause.written ++ tail)) = (value, some after) ∧
      String.ofList (trim value) = clause.value ∧
      after.dropWhile (· == ' ') = writtenCondition condition ++ tail := by
  have hblank : ∀ c ∈ front, isBlank c = true := fun c hc => by rw [hf c hc]; decide
  have htext : front ++ (clause.written ++ tail) =
      (front ++ (clause.value.toList ++ [' '])) ++
        '@' :: ' ' :: (writtenCondition condition ++ tail) := by
    rw [written, hc]
    simp
  have hunsigned : '@' ∉ front ++ (clause.value.toList ++ [' ']) := by
    intro hm
    rcases List.mem_append.1 hm with hm | hm
    · exact absurd (hf _ hm) (by decide)
    · rcases List.mem_append.1 hm with hm | hm
      · exact hw.value_unsigned hm
      · exact absurd (List.mem_singleton.1 hm) (by decide)
  refine ⟨_, _, by rw [htext, cut_append hunsigned], ?_, ?_⟩
  · have ht := hw.value_trimmed
    rw [trimmed] at ht
    rw [trim_append hblank, trim_append_right (List.forall_mem_singleton.2 (by decide)), ht]
  · rw [writtenCondition_eq]
    rfl

theorem writtenAll_cons (clause : Clause) (rest : List Clause) :
    ∃ tail, writtenAll (clause :: rest) = clause.written ++ tail ∧
      (rest = [] ∧ tail = [] ∨ rest ≠ [] ∧ tail = ';' :: ' ' :: writtenAll rest) := by
  cases rest with
  | nil => exact ⟨[], by rw [writtenAll_singleton, List.append_nil], .inl ⟨rfl, rfl⟩⟩
  | cons next rest => exact ⟨_, writtenAll_cons_cons, .inr ⟨nofun, rfl⟩⟩

theorem fitsDepth_iff {condition : Condition} (hc : clause.condition = some condition) :
    clause.FitsDepth ↔ NestsWithin maxDepth (writtenCondition condition) := by
  constructor
  · exact fun h => h condition hc
  · intro h other ho
    rw [hc] at ho
    cases ho
    exact h

theorem scan_writtenAll (hn : clauses ≠ []) (hw : ∀ clause ∈ clauses, clause.Writable)
    (hf : ∀ c ∈ front, c = ' ') (position : Nat) :
    ((∀ clause ∈ clauses, clause.FitsDepth) →
      (scan position (front ++ writtenAll clauses)).ending = .settled ∧
      (scan position (front ++ writtenAll clauses)).entries.map Entry.clause = clauses) ∧
    (¬(∀ clause ∈ clauses, clause.FitsDepth) →
      ∃ opened, (scan position (front ++ writtenAll clauses)).ending =
        .failed ⟨.tooDeep, some opened⟩) := by
  induction clauses generalizing front position with
  | nil => exact absurd rfl hn
  | cons clause rest ih =>
    obtain ⟨hclause, hrest⟩ := List.forall_mem_cons.1 hw
    obtain ⟨condition, hc, hp⟩ := hclause.condition
    obtain ⟨tail, hall, htail⟩ := writtenAll_cons clause rest
    obtain ⟨value, after, hcut, hvalue, hbody⟩ := cut_written hclause hc hf tail
    have hbody_ne : after.dropWhile (· == ' ') ≠ [] := by
      rw [hbody, writtenCondition_eq]
      nofun
    obtain ⟨hreads, hover⟩ := read_writtenCondition hp (bodyAt position value after) tail
    rw [← hbody] at hreads hover
    rw [hall, List.forall_mem_cons, fitsDepth_iff hc]
    by_cases hd : NestsWithin maxDepth (writtenCondition condition)
    · have hread := hreads hd
      have hentry : ∀ stop : Stop, stop.condition = condition →
          (entryOf position value stop).clause = clause := by
        intro stop hs
        rw [entryOf, hvalue, hs, ← hc]
      rcases htail with ⟨rfl, rfl⟩ | ⟨hr, rfl⟩
      · rw [scan_of_last hcut hbody_ne hread rfl]
        refine ⟨fun _ => ⟨rfl, ?_⟩, absurd ⟨hd, List.forall_mem_nil _⟩⟩
        rw [List.map_singleton, hentry _ rfl]
      · have hsemicolon : cut ';' (')' :: ';' :: ' ' :: writtenAll rest) =
            ([')'], some (' ' :: writtenAll rest)) :=
          @cut_append ';' [')'] (by decide) _
        rw [scan_of_more hcut hbody_ne hread hsemicolon]
        obtain ⟨hsettled, hfailed⟩ := @ih [' '] hr hrest (by simp) (bodyAt position value after +
          (condition.body.length + 1) + [')'].length + 1)
        constructor
        · rintro ⟨-, hall⟩
          obtain ⟨hending, hentries⟩ := hsettled hall
          refine ⟨hending, ?_⟩
          rw [List.map_cons, hentry _ rfl]
          exact congrArg (clause :: ·) hentries
        · intro hno
          exact hfailed fun hall => hno ⟨hd, hall⟩
    · obtain ⟨opened, hread⟩ := hover hd
      rw [scan_of_error hcut hbody_ne hread]
      exact ⟨fun hall => absurd hall.1 hd, fun _ => ⟨opened, rfl⟩⟩

theorem readAll_of_writable (hw : ∀ clause ∈ clauses, clause.Writable) :
    ((∀ clause ∈ clauses, clause.FitsDepth) →
      readAll (some (String.ofList (writtenAll clauses))) = .ok clauses) ∧
    (¬(∀ clause ∈ clauses, clause.FitsDepth) →
      ∃ opened, readAll (some (String.ofList (writtenAll clauses))) =
        .error ⟨.tooDeep, some opened⟩) := by
  rw [readAll, Option.getD_some, String.toList_ofList]
  by_cases hn : clauses = []
  · subst hn
    exact ⟨fun _ => rfl, absurd (List.forall_mem_nil _)⟩
  · obtain ⟨hsettled, hfailed⟩ := @scan_writtenAll clauses [] hn hw (List.forall_mem_nil _) 0
    rw [List.nil_append] at hsettled hfailed
    split
    · next he =>
      obtain ⟨clause, rest, rfl⟩ := List.exists_cons_of_ne_nil hn
      obtain ⟨tail, hall, -⟩ := writtenAll_cons clause rest
      have hclause := hw clause List.mem_cons_self
      obtain ⟨condition, hc, -⟩ := hclause.condition
      rw [hall, written, hc] at he
      simp at he
    · constructor
      · intro hd
        obtain ⟨hending, hentries⟩ := hsettled hd
        rw [verdict_of_settled hending, hentries]
        · intro he
          rw [he] at hentries
          exact hn hentries.symm
        · intro entry he
          refine (hw entry.clause ?_).value_ne_empty
          rw [← hentries]
          exact List.mem_map_of_mem he
      · intro hd
        obtain ⟨opened, hending⟩ := hfailed hd
        exact ⟨opened, verdict_of_failed hending⟩

/-- Exactly the writable clauses whose brackets do not nest too deep are read as they were written.
Of writable clauses that are not, some bracket is one too many. -/
theorem readAll_writtenAll_iff (clauses : List Clause) :
    (readAll (some (String.ofList (writtenAll clauses))) = .ok clauses ↔
      (∀ clause ∈ clauses, clause.Writable) ∧ ∀ clause ∈ clauses, clause.FitsDepth) ∧
    ((∀ clause ∈ clauses, clause.Writable) → ¬(∀ clause ∈ clauses, clause.FitsDepth) →
      ∃ opened, readAll (some (String.ofList (writtenAll clauses))) =
        .error ⟨.tooDeep, some opened⟩) := by
  refine ⟨⟨fun h => ?_, fun ⟨hw, hd⟩ => (readAll_of_writable hw).1 hd⟩,
    fun hw hd => (readAll_of_writable hw).2 hd⟩
  have hw := writable_of_readAll h
  refine ⟨hw, Classical.byContradiction fun hd => ?_⟩
  obtain ⟨opened, he⟩ := (readAll_of_writable hw).2 hd
  rw [h] at he
  cases he

/-- Leaves that are kept from being read as the keyword, and joins in one pair too many. -/
theorem readAll_writtenAll_guarded :
    let guarded : Clause := ⟨"a(", some (join .and (leaf "and b") (leaf "c AND") [leaf "And"])⟩
    let nested := (List.range 21).foldr (fun _ inner => join .or (leaf "and") inner []) (leaf "d")
    let deep : Clause := ⟨"e", some nested⟩
    ((∀ clause ∈ [guarded], clause.Writable) ∧ (∀ clause ∈ [guarded], clause.FitsDepth) ∧
      readAll (some (String.ofList (writtenAll [guarded]))) = .ok [guarded]) ∧
    (∀ clause ∈ [guarded, deep], clause.Writable) ∧
      ¬(∀ clause ∈ [guarded, deep], clause.FitsDepth) ∧
      ∃ opened, readAll (some (String.ofList (writtenAll [guarded, deep]))) =
        .error ⟨.tooDeep, some opened⟩ := by
  intro guarded nested deep
  have hg : ∀ clause ∈ [guarded], clause.Writable := by decide +kernel
  have hf : ∀ clause ∈ [guarded], clause.FitsDepth := by decide +kernel
  have hw : ∀ clause ∈ [guarded, deep], clause.Writable := by decide +kernel
  have hd : ¬(∀ clause ∈ [guarded, deep], clause.FitsDepth) := by decide +kernel
  exact ⟨⟨hg, hf, (readAll_writtenAll_iff [guarded]).1.2 ⟨hg, hf⟩⟩, hw, hd,
    (readAll_writtenAll_iff [guarded, deep]).2 hw hd⟩

end ConditionalTags.Clause
