import ConditionalTags.Proofs.ClauseScan
import ConditionalTags.Proofs.TokenReader
import ConditionalTags.Proofs.Trim

/-! # Plain texts

A plain leaf is a text that reading can give: not blank at its ends, without marks, and without the
keyword between two spaces. Everything that is read is plain.
-/
namespace ConditionalTags

namespace Keyword

/-- The letters of the keyword stand in `text` with a space on either side. -/
def Within (text : List Char) : Prop :=
  ∃ before a n d after, text = before ++ ' ' :: a :: n :: d :: ' ' :: after ∧
    spells a n d = true

theorem Within.mono {text whole : List Char} (h : Within text) (hi : text <:+: whole) :
    Within whole := by
  obtain ⟨front, back, rfl⟩ := hi
  obtain ⟨before, a, n, d, after, rfl, hs⟩ := h
  exact ⟨front ++ before, a, n, d, after ++ back, by simp, hs⟩

theorem opens_eq_true_iff {text : List Char} : opens text = true ↔
    ∃ a n d after, text = a :: n :: d :: ' ' :: after ∧ spells a n d = true := by
  constructor
  · intro h
    unfold opens at h
    split at h
    · next a n d after => exact ⟨a, n, d, after, rfl, h⟩
    · cases h
  · rintro ⟨a, n, d, after, rfl, hs⟩
    exact hs

theorem not_within_nil : ¬Within [] := by
  rintro ⟨before, a, n, d, after, he, -⟩
  simp at he

theorem within_cons {c : Char} {rest : List Char} :
    Within (c :: rest) ↔ c = ' ' ∧ opens rest = true ∨ Within rest := by
  constructor
  · rintro ⟨before, a, n, d, after, he, hs⟩
    cases before with
    | nil =>
      obtain ⟨rfl, rfl⟩ := List.cons.inj he
      exact .inl ⟨rfl, hs⟩
    | cons x before =>
      obtain ⟨rfl, rfl⟩ := List.cons.inj he
      exact .inr ⟨before, a, n, d, after, rfl, hs⟩
  · rintro (⟨rfl, ho⟩ | ⟨before, a, n, d, after, rfl, hs⟩)
    · obtain ⟨a, n, d, after, rfl, hs⟩ := opens_eq_true_iff.1 ho
      exact ⟨[], a, n, d, after, rfl, hs⟩
    · exact ⟨c :: before, a, n, d, after, rfl, hs⟩

instance decidableWithin : (text : List Char) → Decidable (Within text)
  | [] => isFalse not_within_nil
  | _ :: rest =>
    have := decidableWithin rest
    decidable_of_iff _ within_cons.symm

end Keyword

namespace Condition
open Text

structure PlainLeaf (text : String) : Prop where
  ne_empty : text ≠ ""
  trimmed : trimmed text = text
  unmarked : ∀ c ∈ text.toList, isMark c = false
  quiet : ¬Keyword.Within text.toList

instance (text : String) : Decidable (PlainLeaf text) :=
  decidable_of_iff (text ≠ "" ∧ Text.trimmed text = text ∧ text.toList.any isMark = false ∧
    ¬Keyword.Within text.toList)
    ⟨fun ⟨hn, ht, hm, hq⟩ => ⟨hn, ht, by simpa using hm, hq⟩,
      fun ⟨hn, ht, hm, hq⟩ => ⟨hn, ht, by simpa using hm, hq⟩⟩

def Plain (condition : Condition) : Prop :=
  ∀ text ∈ condition.leaves, PlainLeaf text

instance (condition : Condition) : Decidable condition.Plain :=
  inferInstanceAs (Decidable (∀ text ∈ condition.leaves, PlainLeaf text))

variable {condition : Condition} {members : List Condition} {connective : Connective}

theorem plain_leaf {text : String} : Plain (leaf text) ↔ PlainLeaf text := by
  simp [Plain, leaves]

theorem plain_join {first second : Condition} {others : List Condition} :
    Plain (join connective first second others) ↔
      Plain first ∧ Plain second ∧ ∀ c ∈ others, Plain c := by
  simp only [Plain, leaves_join, Condition.members, List.mem_flatMap]
  constructor
  · intro h
    refine ⟨fun t ht => h t ⟨first, ?_, ht⟩, fun t ht => h t ⟨second, ?_, ht⟩,
      fun c hc t ht => h t ⟨c, ?_, ht⟩⟩
    · exact List.mem_cons_self
    · exact List.mem_cons_of_mem _ List.mem_cons_self
    · exact List.mem_cons_of_mem _ (List.mem_cons_of_mem _ hc)
  · rintro ⟨h₁, h₂, ho⟩ t ⟨c, hc, ht⟩
    rcases List.mem_cons.1 hc with rfl | hc
    · exact h₁ t ht
    · rcases List.mem_cons.1 hc with rfl | hc
      · exact h₂ t ht
      · exact ho c hc t ht

theorem plain_of_group? (h : group? connective members = some condition)
    (hp : ∀ c ∈ members, Plain c) : Plain condition := by
  match members with
  | [] => cases h
  | [only] =>
    cases h
    exact hp _ List.mem_cons_self
  | first :: second :: others =>
    cases h
    obtain ⟨h₁, hp⟩ := List.forall_mem_cons.1 hp
    obtain ⟨h₂, ho⟩ := List.forall_mem_cons.1 hp
    exact plain_join.2 ⟨h₁, h₂, ho⟩

theorem plainLeaf_trim {text : List Char} (hm : ∀ c ∈ text, isMark c = false)
    (hq : ¬Keyword.Within text) (hn : trim text ≠ []) :
    PlainLeaf (String.ofList (trim text)) where
  ne_empty he := hn (by simpa using congrArg String.toList he)
  trimmed := by rw [trimmed, String.toList_ofList, trim_trim]
  unmarked c hc := by
    rw [String.toList_ofList] at hc
    exact hm c ((isInfix_trim text).subset hc)
  quiet hk := by
    rw [String.toList_ofList] at hk
    exact hq (hk.mono (isInfix_trim text))

namespace Level

/-- The members are plain, and the pending text may become a plain leaf. -/
structure Plain (level : Level) : Prop where
  members : ∀ c ∈ level.members, c.Plain
  unmarked : ∀ c ∈ level.pending, isMark c = false
  quiet : ¬Keyword.Within level.pending.reverse

variable {level : Level} {past text : List Char}

theorem plain_of_pending_eq_nil (hp : level.pending = []) (hm : ∀ c ∈ level.members, c.Plain) :
    level.Plain where
  members := hm
  unmarked c hc := by rw [hp] at hc; cases hc
  quiet := by
    rw [hp]
    exact Keyword.not_within_nil

/-- A keyword between two spaces of the pending text would have been taken as one. -/
theorem Follows.not_within (h : level.Follows past text) :
    ¬Keyword.Within level.pending.reverse := by
  rintro ⟨before, a, n, d, after, he, hs⟩
  obtain ⟨front, hpast, -⟩ := h.boundary
  have hp : level.pending = (a :: n :: d :: ' ' :: after).reverse ++ ' ' :: before.reverse := by
    have hr := congrArg List.reverse he
    simpa using hr
  have hl : (a :: n :: d :: ' ' :: after).reverse.length ≤ level.pending.length := by
    rw [hp, List.length_append]
    exact Nat.le_add_right _ _
  have hq := h.quiet (a :: n :: d :: ' ' :: after).reverse.length (by simp) hl
  rw [hpast, hp, List.append_assoc, List.drop_left, List.take_left, List.reverse_reverse] at hq
  simp [Keyword.starts, Keyword.leads, Keyword.mayFollow, Keyword.mayPrecede, hs] at hq

theorem Follows.plain (h : level.Follows past text) (hm : ∀ c ∈ level.members, c.Plain) :
    level.Plain :=
  ⟨hm, h.unmarked, h.not_within⟩

theorem Plain.settle (h : level.Plain) : ∀ c ∈ level.settle.members, c.Plain := by
  have hm : ∀ c ∈ level.pending.reverse, isMark c = false := fun c hc =>
    h.unmarked c (List.mem_reverse.1 hc)
  by_cases hn : trim level.pending.reverse = []
  · rw [settle_of_trim_eq_nil hn]
    exact h.members
  · rw [settle_of_trim_ne_nil hn]
    intro c hc
    rcases List.mem_append.1 hc with hc | hc
    · exact h.members c hc
    · rw [List.mem_singleton.1 hc]
      exact plain_leaf.2 (plainLeaf_trim hm h.quiet hn)

theorem Plain.enter {inner : Condition} (h : level.Plain) (hi : inner.Plain) :
    (level.enter inner).Plain := by
  have ha : Level.Plain { level with members := level.members ++ [inner] } := by
    refine ⟨fun c hc => ?_, h.unmarked, h.quiet⟩
    rcases List.mem_append.1 hc with hc | hc
    · exact h.members c hc
    · rw [List.mem_singleton.1 hc]
      exact hi
  exact plain_of_pending_eq_nil enter_pending ha.settle

theorem Plain.connect {connective : Connective} {position : Nat} {next : Level} (h : level.Plain)
    (hc : level.connect connective position = .ok next) : ∀ c ∈ next.members, c.Plain := by
  obtain ⟨-, rfl⟩ := connect_eq_ok_iff.1 hc
  exact h.settle

theorem Plain.close {position : Nat} {condition : Condition} (h : level.Plain)
    (hc : level.close position = .ok condition) : condition.Plain := by
  rw [Level.close] at hc
  cases hg : group? (level.connective.getD .and) level.settle.members with
  | none => rw [hg] at hc; cases hc
  | some result =>
    rw [hg] at hc
    cases hc
    exact plain_of_group? hg h.settle

end Level

namespace Reading

/-- The innermost level has plain members, and the levels around it are plain. -/
structure Plain (reading : Reading) : Prop where
  members : ∀ c ∈ reading.level.members, c.Plain
  enclosing : ∀ around ∈ reading.enclosing, around.1.Plain

variable {reading next : Reading} {position : Nat} {past text rest : List Char} {c : Char}

theorem Plain.connect {level : Level} (h : reading.Plain)
    (hf : reading.level.Follows past text)
    (hc : reading.level.connect connective position = .ok level) :
    Plain { reading with level } :=
  ⟨(hf.plain h.members).connect hc, h.enclosing⟩

theorem Plain.onToken {progress : Progress} (h : reading.Plain)
    (hf : reading.level.Follows past text)
    (ht : reading.onToken position (.ofChar c) = .ok progress) :
    (∀ next, progress = .more next → next.Plain) ∧
      ∀ condition, progress = .complete condition → condition.Plain := by
  have hl := hf.plain h.members
  unfold Token.ofChar at ht
  split at ht
  · obtain ⟨-, rfl⟩ := opening_cases ht
    refine ⟨fun next hn => ?_, nofun⟩
    cases hn
    exact ⟨fun _ hc => (nomatch hc), List.forall_mem_cons.2 ⟨hl, h.enclosing⟩⟩
  · obtain ⟨around, opened, enclosing, inner, he, hi, hp⟩ := closing_cases ht
    have hall := h.enclosing
    rw [he] at hall
    obtain ⟨ha, hall⟩ := List.forall_mem_cons.1 hall
    have hin : (around.enter inner).Plain := ha.enter (hl.close hi)
    rcases hp with ⟨-, rfl⟩ | ⟨-, condition, hc, rfl⟩
    · refine ⟨fun next hn => ?_, nofun⟩
      cases hn
      exact ⟨hin.members, hall⟩
    · refine ⟨nofun, fun result hn => ?_⟩
      cases hn
      exact hin.close hc
  · rcases semicolon_cases ht with ⟨-, level, hc, rfl⟩ | ⟨-, condition, hc, rfl⟩
    · refine ⟨fun next hn => ?_, nofun⟩
      cases hn
      exact h.connect hf hc
    · refine ⟨nofun, fun result hn => ?_⟩
      cases hn
      exact hl.close hc
  · refine ⟨fun next hn => ?_, fun result hn => ?_⟩
    · cases ht
      cases hn
      exact ⟨h.members, h.enclosing⟩
    · cases ht
      cases hn

theorem plain_of_run {stop : Stop} (h : reading.Plain) (hf : reading.level.Follows past text)
    (hr : reading.run position text = .ok stop) : stop.condition.Plain := by
  induction hp : past.head?, text using token_induct generalizing reading past position with
  | nil =>
    rw [run, finish] at hr
    split at hr
    · cases hc : reading.level.close position with
      | error fault => rw [hc] at hr; cases hr
      | ok condition =>
        rw [hc] at hr
        cases hr
        exact (hf.plain h.members).close hc
    · cases hr
  | keyword previous a n d rest hs ih =>
    rw [run_of_starts hf (hp ▸ hs)] at hr
    cases hc : reading.level.connect .and position with
    | error fault => rw [hc] at hr; cases hr
    | ok level =>
      rw [hc] at hr
      exact @ih { reading with level } _ _ (h.connect hf hc) (follows_of_connect (hp ▸ hs) hc) hr rfl
  | char previous c rest hs ih =>
    have he := step_eq_onToken hf position
    cases ht : reading.onToken position (.ofChar c) with
    | error fault => rw [run_of_error (he.trans ht)] at hr; cases hr
    | ok progress =>
      obtain ⟨hm, hc⟩ := h.onToken hf ht
      cases progress with
      | more next =>
        rw [run_of_more (he.trans ht)] at hr
        exact ih (hm next rfl) (follows_of_onToken hf (hp ▸ hs) ht) hr rfl
      | complete condition =>
        rw [run_of_complete (he.trans ht)] at hr
        cases hr
        exact hc condition rfl

end Reading

theorem plain_of_read {position : Nat} {text : List Char} {stop : Stop}
    (h : read position text = .ok stop) : stop.condition.Plain :=
  @Reading.plain_of_run {} position [] text stop
    ⟨fun _ hc => (nomatch hc), fun _ ha => (nomatch ha)⟩ (Level.follows_of_pending_eq_nil rfl rfl) h

end Condition

namespace Clause
open Text

/-- What reading can give for a clause: a value that is trimmed and has no `@`, and a plain
condition. -/
structure Writable (clause : Clause) : Prop where
  value_ne_empty : clause.value ≠ ""
  value_trimmed : trimmed clause.value = clause.value
  value_unsigned : '@' ∉ clause.value.toList
  condition : ∃ condition, clause.condition = some condition ∧ condition.Plain

instance (clause : Clause) : Decidable clause.Writable :=
  decidable_of_iff (clause.value ≠ "" ∧ trimmed clause.value = clause.value ∧
    '@' ∉ clause.value.toList ∧ ∃ condition ∈ clause.condition, condition.Plain)
    ⟨fun ⟨hn, ht, hu, hc⟩ => ⟨hn, ht, hu, hc⟩, fun ⟨hn, ht, hu, hc⟩ => ⟨hn, ht, hu, hc⟩⟩

variable {value : Option String} {clauses : List Clause}

theorem writable_of_mem_scan {position : Nat} {text : List Char} {entry : Entry}
    (h : entry ∈ (scan position text).entries) (hv : entry.clause.value ≠ "") :
    entry.clause.Writable := by
  refine @forall_mem_scan (fun entry => entry.clause.value ≠ "" → entry.clause.Writable)
    ?_ position text entry h hv
  intro position text value after stop hcut hr hv
  have hu : '@' ∉ value := (eq_of_cut_eq_some hcut).2
  exact
    { value_ne_empty := hv
      value_trimmed := by
        show trimmed (String.ofList (trim value)) = String.ofList (trim value)
        rw [trimmed, String.toList_ofList, trim_trim]
      value_unsigned := by
        show '@' ∉ (String.ofList (trim value)).toList
        rw [String.toList_ofList]
        exact fun hm => hu ((isInfix_trim value).subset hm)
      condition := ⟨stop.condition, rfl, Condition.plain_of_read hr⟩ }

theorem writable_of_readAll (h : readAll value = .ok clauses) :
    ∀ clause ∈ clauses, clause.Writable := by
  intro clause hc
  obtain ⟨entry, he, rfl, hv⟩ := exists_entry_of_readAll h clause hc
  exact writable_of_mem_scan he hv

end Clause

end ConditionalTags
