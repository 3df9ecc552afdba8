import ConditionalTags.Program.Logging
import ConditionalTags.Proofs.Trim
import Mathlib.Data.Option.Basic

/-! # Levels and what they show

Which texts name a log level, which levels are below another, and what the environment asks for. A
note without a severity is shown at every level; a record is hidden at the levels above its own.
-/
namespace ConditionalTags

namespace LogLevel
open Text

def words : LogLevel → List String
  | trace => ["trace"]
  | debug => ["debug"]
  | info => ["info"]
  | warn => ["warn", "warning"]
  | error => ["error"]

/-- The text is a word for the level, in capitals or not, with blanks around it or not. -/
def Names (text : String) (level : LogLevel) : Prop :=
  ∃ front word back, text.toList = front ++ word ++ back ∧ (∀ c ∈ front, isBlank c = true) ∧
    (∀ c ∈ back, isBlank c = true) ∧ String.ofList (word.map Char.toLower) ∈ level.words

def below : LogLevel → List LogLevel
  | trace => []
  | debug => [trace]
  | info => [trace, debug]
  | warn => [trace, debug, info]
  | error => [trace, debug, info, warn]

/-- Whether a severity is not below the level. What has none never is. -/
def shows (level : LogLevel) (severity : Option LogLevel) : Bool :=
  severity.all fun severity => severity ∉ level.below

variable {level : LogLevel} {text : String}

theorem rank_le_rank_iff (level severity : LogLevel) :
    level.rank ≤ severity.rank ↔ severity ∉ level.below := by
  cases level <;> cases severity <;> decide

theorem isBlank_toLower (c : Char) : isBlank c.toLower = isBlank c := by
  have hcapital : ∀ code < 91, 65 ≤ code →
      isBlank (Char.ofNat code).toLower = isBlank (Char.ofNat code) := by decide
  by_cases hc : 65 ≤ c.toNat ∧ c.toNat ≤ 90
  · have h := hcapital c.toNat (Nat.lt_succ_of_le hc.2) hc.1
    rwa [Char.ofNat_toNat] at h
  · have hl : c.toLower = c := dif_neg hc
    rw [hl]

theorem read?_of_mem_words {word : String} (h : word ∈ level.words) :
    (if word = "warning" then some warn else all.find? fun level => level.name == word) =
      some level := by
  cases level <;> simp only [words, List.mem_cons, List.not_mem_nil, or_false] at h
  case warn =>
    rcases h with rfl | rfl
    · decide
    · decide
  all_goals
    subst h
    decide

theorem mem_words_of_read? {word : String}
    (h : (if word = "warning" then some warn else all.find? fun level => level.name == word) =
      some level) : word ∈ level.words := by
  split at h
  · next hw =>
    cases h
    simp [hw, words]
  · have hn : level.name = word := by simpa using List.find?_some h
    rw [← hn]
    cases level <;> decide

/-- The texts that are read as a level. -/
theorem read?_eq_some_iff : read? text = some level ↔ Names text level := by
  constructor
  · intro h
    obtain ⟨front, back, he, hf, hb⟩ := exists_trim_append text.toList
    exact ⟨front, _, back, he, hf, hb, mem_words_of_read? h⟩
  · rintro ⟨front, word, back, he, hf, hb, hw⟩
    have hwords : (level.words.all fun word => word.toList.all fun c => !isBlank c) = true := by
      cases level <;> decide
    have hletters : ∀ word ∈ level.words, ∀ c ∈ word.toList, isBlank c = false := by
      simpa using hwords
    have hword : ∀ c ∈ word, isBlank c = false := fun c hc => by
      rw [← isBlank_toLower]
      exact hletters _ hw c.toLower (by simpa using ⟨c, hc, rfl⟩)
    have ht : trim text.toList = word := by
      rw [he, trim_append_right hb, trim_append hf, trim_eq_self hword]
    rw [read?, ht]
    exact read?_of_mem_words hw

end LogLevel

namespace Settings

/-- What the environment asks for. A variable that is not set, or is not text, asks for warnings. -/
inductive Asks : Variable → LogLevel → Prop
  | level {text : String} {level : LogLevel} (h : level.Names text) : Asks (.text text) level
  | unset : Asks .unset .warn
  | notText : Asks .notText .warn

/-- Where the variable is text, it names a level. -/
def Readable (environment : Variable) : Prop :=
  ∀ text, environment = .text text → ∃ level : LogLevel, level.Names text

variable {environment : Variable} {level : LogLevel}

theorem ofVariable_of_asks (h : Asks environment level) : ofVariable environment = .ok ⟨level⟩ := by
  cases h with
  | level hn =>
    simp [ofVariable, Variable.text?, LogLevel.read, LogLevel.read?_eq_some_iff.2 hn, bind,
      Except.bind, pure, Except.pure]
  | unset => rfl
  | notText => rfl

theorem exists_asks_of_readable (h : Readable environment) : ∃ level, Asks environment level := by
  cases environment with
  | unset => exact ⟨_, .unset⟩
  | notText => exact ⟨_, .notText⟩
  | text text =>
    obtain ⟨level, hn⟩ := h text rfl
    exact ⟨level, .level hn⟩

theorem ofVariable_of_not_readable (h : ¬Readable environment) :
    ∃ unknown, ofVariable environment = .error unknown := by
  cases environment with
  | unset => exact absurd nofun h
  | notText => exact absurd nofun h
  | text text =>
    refine ⟨⟨text⟩, ?_⟩
    have hn : LogLevel.read? text = none := by
      by_contra hs
      obtain ⟨level, hr⟩ := Option.ne_none_iff_exists'.1 hs
      exact h fun other he => ⟨level, Variable.text.inj he ▸ LogLevel.read?_eq_some_iff.1 hr⟩
    simp [ofVariable, Variable.text?, LogLevel.read, hn, bind, Except.bind]

end Settings

namespace Note

/-- The severity of a record; nothing else has one. -/
def severity? : Note → Option LogLevel
  | record severity .. => some severity
  | diagnostic .. | failure _ => none

def visible (level : LogLevel) (note : Note) : Bool :=
  level.shows note.severity?

def text (notes : List Note) : String :=
  String.ofList (notes.flatMap fun note => note.written.toList)

/-- What is told once the records are left out. -/
def told (notes : List Note) : String :=
  text (notes.filter fun note => note.severity?.isNone)

variable {notes : List Note} {note : Note}

theorem isShown_eq_visible (level : LogLevel) : isShown level = visible level := by
  funext note
  cases note <;> simp [isShown, visible, severity?, LogLevel.shows, LogLevel.rank_le_rank_iff]

theorem shown_eq_text (level : LogLevel) (notes : List Note) :
    shown level notes = text (notes.filter (visible level)) := by
  rw [shown, isShown_eq_visible, text]

theorem visible_of_severity? (h : note.severity? = none) (level : LogLevel) :
    note.visible level = true := by
  rw [visible, h]
  rfl

theorem text_append (first second : List Note) : text (first ++ second) = text first ++ text second := by
  simp [text]

theorem text_cons (note : Note) (notes : List Note) :
    text (note :: notes) = note.written ++ text notes := by
  simp [text]

theorem text_singleton (note : Note) : text [note] = note.written := by
  simp [text]

theorem told_append_singleton (h : ∀ note ∈ notes, note.severity? ≠ none)
    (hn : note.severity? = none) : told (notes ++ [note]) = note.written := by
  have hf : (notes.filter fun note => note.severity?.isNone) = [] := by simpa using h
  rw [told, List.filter_append, hf, List.nil_append, List.filter_cons_of_pos (by rw [hn]; rfl),
    List.filter_nil, text_singleton]

end Note

end ConditionalTags
