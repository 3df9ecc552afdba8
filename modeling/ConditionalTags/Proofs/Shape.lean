import ConditionalTags.Proofs.Course
import ConditionalTags.Proofs.Plain

/-! # The shape of what has been read

A condition that has been read is a tree of bounded height: every join in it takes up a bracket pair,
all but the outermost one, and no more than `maxDepth` pairs are ever open. With what is known of its
leaves this says all there is to know of an accepted value.
-/
namespace ConditionalTags

namespace Condition

/-- `node` is found in the condition, below `joins` joins. -/
inductive Contains : Condition → Nat → Condition → Prop
  | self (condition : Condition) : Contains condition 0 condition
  | member {condition member node : Condition} {joins : Nat} : member ∈ condition.members →
      Contains member joins node → Contains condition (joins + 1) node

/-- No leaf is found below more than `height` joins. -/
def HeightWithin (height : Nat) (condition : Condition) : Prop :=
  ∀ text joins, condition.Contains joins (leaf text) → joins ≤ height

variable {condition node : Condition} {members : List Condition} {joins height : Nat}
  {connective : Connective}

theorem mem_leaves_of_contains {text : String} (h : condition.Contains joins (leaf text)) :
    text ∈ condition.leaves := by
  generalize hn : leaf text = node at h
  induction h with
  | self => simp [← hn, leaves]
  | @member condition member _ _ hm _ ih =>
    cases condition with
    | leaf => cases hm
    | join => simpa only [leaves_join, List.mem_flatMap] using ⟨member, hm, ih hn⟩

theorem heightWithin_leaf (height : Nat) (text : String) : HeightWithin height (leaf text) := by
  intro other joins h
  cases h with
  | self => exact Nat.zero_le _
  | member hm => cases hm

theorem HeightWithin.mono {more : Nat} (h : condition.HeightWithin height) (hm : height ≤ more) :
    condition.HeightWithin more :=
  fun text joins hh => Nat.le_trans (h text joins hh) hm

theorem heightWithin_of_group? (h : group? connective members = some condition)
    (hm : ∀ member ∈ members, HeightWithin height member) :
    condition.HeightWithin (height + 1) := by
  match members with
  | [] => cases h
  | [only] =>
    cases h
    exact (hm _ List.mem_cons_self).mono (Nat.le_succ _)
  | first :: second :: others =>
    cases h
    intro text joins hh
    cases hh with
    | member hmem hh => exact Nat.succ_le_succ (hm _ hmem text _ hh)

namespace Level

variable {level next : Level} {position : Nat}

def HeightWithin (height : Nat) (level : Level) : Prop :=
  ∀ member ∈ level.members, member.HeightWithin height

theorem HeightWithin.settle (h : level.HeightWithin height) : level.settle.HeightWithin height := by
  by_cases hn : Text.trim level.pending.reverse = []
  · rw [settle_of_trim_eq_nil hn]
    exact h
  · rw [settle_of_trim_ne_nil hn]
    intro member hm
    rcases List.mem_append.1 hm with hm | hm
    · exact h member hm
    · rw [List.mem_singleton.1 hm]
      exact heightWithin_leaf height _

theorem HeightWithin.enter {inner : Condition} (h : level.HeightWithin height)
    (hi : inner.HeightWithin height) : (level.enter inner).HeightWithin height := by
  have ha : HeightWithin height { level with members := level.members ++ [inner] } := by
    intro member hm
    rcases List.mem_append.1 hm with hm | hm
    · exact h member hm
    · rw [List.mem_singleton.1 hm]
      exact hi
  exact ha.settle

theorem HeightWithin.connect (h : level.HeightWithin height)
    (hc : level.connect connective position = .ok next) : next.HeightWithin height := by
  obtain ⟨-, rfl⟩ := connect_eq_ok_iff.1 hc
  exact h.settle

theorem HeightWithin.close (h : level.HeightWithin height)
    (hc : level.close position = .ok condition) : condition.HeightWithin (height + 1) := by
  rw [Level.close] at hc
  split at hc
  · next hg =>
    cases hc
    exact heightWithin_of_group? hg h.settle
  · cases hc

end Level

namespace Reading

/-- The members of the innermost level are within `height`, and those of every level around it may be
one join higher than those of the level inside, up to `maxDepth`. -/
inductive Bounded : Nat → Level → List (Level × Nat) → Prop
  | outermost {level : Level} : level.HeightWithin maxDepth → Bounded maxDepth level []
  | inside {height opened : Nat} {level around : Level} {enclosing : List (Level × Nat)} :
      level.HeightWithin height → Bounded (height + 1) around enclosing →
      Bounded height level ((around, opened) :: enclosing)

variable {text : List Char} {position i : Nat} {reading : Reading} {level next : Level}
  {enclosing : List (Level × Nat)} {token : Token} {progress : Progress}

theorem Bounded.innermost (h : Bounded height level enclosing) : level.HeightWithin height := by
  cases h with
  | outermost hl => exact hl
  | inside hl _ => exact hl

theorem Bounded.add_length (h : Bounded height level enclosing) :
    height + enclosing.length = maxDepth := by
  induction h with
  | outermost => rfl
  | inside _ _ ih => simpa [Nat.add_assoc, Nat.add_comm 1] using ih

theorem Bounded.replace (h : Bounded height level enclosing) (hn : next.HeightWithin height) :
    Bounded height next enclosing := by
  cases h with
  | outermost => exact .outermost hn
  | inside _ ha => exact .inside hn ha

theorem Bounded.enter {around : Level} {opened : Nat} {inner : Condition}
    (h : Bounded height level ((around, opened) :: enclosing))
    (hi : level.close position = .ok inner) :
    Bounded (height + 1) (around.enter inner) enclosing := by
  cases h with
  | inside hl ha => exact ha.replace (ha.innermost.enter (hl.close hi))

theorem Bounded.close (h : Bounded height level []) (hc : level.close position = .ok condition) :
    condition.HeightWithin (maxDepth + 1) := by
  cases h with
  | outermost hl => exact hl.close hc

theorem Bounded.opening (h : Bounded height reading.level reading.enclosing)
    (hd : reading.enclosing.length < maxDepth) :
    ∃ less, Bounded less {} ((reading.level, position) :: reading.enclosing) := by
  have hl := h.add_length
  obtain ⟨less, rfl⟩ : ∃ less, height = less + 1 := ⟨height - 1, by omega⟩
  exact ⟨less, .inside (fun _ hm => nomatch hm) h⟩

theorem Bounded.onToken (h : Bounded height reading.level reading.enclosing)
    (ht : reading.onToken position token = .ok progress) :
    (∀ next, progress = .more next → ∃ height, Bounded height next.level next.enclosing) ∧
      ∀ condition, progress = .complete condition → condition.HeightWithin (maxDepth + 1) := by
  cases token with
  | opening =>
    obtain ⟨hd, rfl⟩ := opening_cases ht
    exact ⟨fun _ hn => by cases hn; exact h.opening hd, nofun⟩
  | closing =>
    obtain ⟨around, opened, enclosing, inner, he, hi, hp⟩ := closing_cases ht
    have hb := (he ▸ h).enter hi
    rcases hp with ⟨-, rfl⟩ | ⟨rfl, condition, hc, rfl⟩
    · exact ⟨fun _ hn => by cases hn; exact ⟨_, hb⟩, nofun⟩
    · exact ⟨nofun, fun _ hr => by cases hr; exact hb.close hc⟩
  | semicolon =>
    rcases semicolon_cases ht with ⟨-, level, hc, rfl⟩ | ⟨he, condition, hc, rfl⟩
    · exact ⟨fun _ hn => by cases hn; exact ⟨height, h.replace (h.innermost.connect hc)⟩, nofun⟩
    · exact ⟨nofun, fun _ hr => by cases hr; exact (he ▸ h).close hc⟩
  | keyword =>
    obtain ⟨level, hc, rfl⟩ := keyword_cases ht
    exact ⟨fun _ hn => by cases hn; exact ⟨height, h.replace (h.innermost.connect hc)⟩, nofun⟩
  | text c =>
    cases ht
    exact ⟨fun _ hn => by cases hn; exact ⟨height, h.replace h.innermost⟩, nofun⟩

theorem Reached.bounded (h : Reached text position i reading) :
    ∃ height, Bounded height reading.level reading.enclosing := by
  induction h with
  | start => exact ⟨maxDepth, .outermost fun _ hm => nomatch hm⟩
  | keyword _ _ hc ih =>
    obtain ⟨height, hb⟩ := ih
    exact ⟨height, hb.replace (hb.innermost.connect hc)⟩
  | char _ _ _ ht ih =>
    obtain ⟨height, hb⟩ := ih
    exact (hb.onToken ht).1 _ rfl

end Reading

/-- No condition that is read is higher than one join for every bracket that may be open, and one
without brackets. -/
theorem heightWithin_of_read {position : Nat} {text : List Char} {stop : Stop}
    (h : read position text = .ok stop) : stop.condition.HeightWithin (maxDepth + 1) := by
  obtain ⟨reading, hr, hc⟩ := Reading.exists_completes h
  obtain ⟨height, hb⟩ := hr.bounded
  rcases hc with ⟨-, hf⟩ | ⟨c, -, ht⟩
  · unfold Reading.finish at hf
    split at hf
    · next he => exact (he ▸ hb).close hf
    · cases hf
  · exact (hb.onToken ht).2 _ rfl

end Condition

namespace Clause
open Text Condition

variable {value : Option String} {clauses : List Clause}

theorem exists_read_of_readAll (h : readAll value = .ok clauses) : ∀ clause ∈ clauses,
    ∃ position text stop, read position text = .ok stop ∧ clause.condition = some stop.condition := by
  intro clause hc
  obtain ⟨entry, he, rfl, -⟩ := exists_entry_of_readAll h clause hc
  exact forall_mem_scan (P := fun entry => ∃ position text stop, read position text = .ok stop ∧
    entry.clause.condition = some stop.condition)
    (fun _ _ _ _ stop _ hr => ⟨_, _, stop, hr, rfl⟩) 0 _ entry he

/-- Every accepted clause has a trimmed value without `@`, and a condition whose leaves are plain,
whose joins have two members or more, and in which no leaf is below more joins than brackets may be
open and one. -/
theorem shape_of_readAll (h : readAll value = .ok clauses) : ∀ clause ∈ clauses,
    (clause.value ≠ "" ∧ trimmed clause.value = clause.value ∧ '@' ∉ clause.value.toList) ∧
      ∃ condition, clause.condition = some condition ∧
        ∀ joins node, condition.Contains joins node →
          (∀ connective, node.connective? = some connective → 2 ≤ node.members.length) ∧
          (∀ text, node = leaf text → PlainLeaf text ∧ joins ≤ maxDepth + 1) := by
  intro clause hc
  have hw := writable_of_readAll h clause hc
  obtain ⟨condition, hcondition, hplain⟩ := hw.condition
  obtain ⟨position, text, stop, hr, hstop⟩ := exists_read_of_readAll h clause hc
  obtain rfl : condition = stop.condition := Option.some.inj (hcondition.symm.trans hstop)
  refine ⟨⟨hw.value_ne_empty, hw.value_trimmed, hw.value_unsigned⟩, _, hcondition, ?_⟩
  intro joins node hn
  constructor
  · intro connective hj
    cases node with
    | leaf => cases hj
    | join => simp [members]
  · rintro text rfl
    exact ⟨hplain text (mem_leaves_of_contains hn), heightWithin_of_read hr text joins hn⟩

/-- Blanks of several kinds around values and leaves, empty members, and text in front of a pair. -/
theorem shape_of_readAll_blanks :
    let value := some "\t no\u00a0@ x\u3000(;\tand b;(c AND D) ) ;y @AND"
    let pair := join .or (leaf "and b") (join .and (leaf "c") (leaf "D") []) []
    let clauses : List Clause := [⟨"no", some (join .and pair (leaf "x") [])⟩, ⟨"y", some (leaf "AND")⟩]
    readAll value = .ok clauses ∧ ∀ clause ∈ clauses,
      (clause.value ≠ "" ∧ trimmed clause.value = clause.value ∧ '@' ∉ clause.value.toList) ∧
        ∃ condition, clause.condition = some condition ∧
          ∀ joins node, condition.Contains joins node →
            (∀ connective, node.connective? = some connective → 2 ≤ node.members.length) ∧
            (∀ text, node = leaf text → PlainLeaf text ∧ joins ≤ maxDepth + 1) := by
  intro value pair clauses
  have h : readAll value = .ok clauses := by decide +kernel
  exact ⟨h, shape_of_readAll h⟩

end Clause

end ConditionalTags
