/-! # Parts that can be told apart

Elements are written one behind another. Where what is written for each of them tells which element it
is and where it ends, the whole tells all of them. How much is told may depend on what comes next, as
with lines whose meaning shows in the depth of the line below.
-/
namespace ConditionalTags

variable {α β : Type} {write : α → List β} {Follows Ends : List β → Prop} {a b : α}

/-- What is written for `a` tells it from every other element, and where it ends, as long as nothing
comes next but what may follow an element. -/
def TellsApart (write : α → List β) (Follows : List β → Prop) (a : α) : Prop :=
  ∀ b rest others, Follows rest → Follows others → write a ++ rest = write b ++ others →
    a = b ∧ rest = others

def Anything (_ : List β) : Prop := True

theorem TellsApart.eq (h : TellsApart write Follows a) (hn : Follows []) (he : write a = write b) :
    a = b := by
  apply (h b [] [] hn hn _).1
  rw [he]

theorem TellsApart.behind (h : TellsApart write Follows a) (front : List β) :
    TellsApart (fun a => front ++ write a) Follows a := by
  intro b rest others hr ho he
  apply h b rest others hr ho
  simpa using he

theorem TellsApart.flatMap {as : List α} (ha : ∀ a ∈ as, TellsApart write Follows a)
    (hw : ∀ b rest, Follows (write b ++ rest) ∧ ¬Ends (write b ++ rest))
    (hf : ∀ rest, Ends rest → Follows rest) : TellsApart (List.flatMap write) Ends as := by
  intro bs rest others hr ho h
  have hfollows : ∀ (cs : List α) tail, Ends tail → Follows (cs.flatMap write ++ tail) := by
    intro cs tail ht
    cases cs with
    | nil => exact hf tail ht
    | cons c cs =>
      rw [List.flatMap_cons, List.append_assoc]
      exact (hw c _).1
  induction as generalizing bs with
  | nil =>
    cases bs with
    | nil => exact ⟨rfl, h⟩
    | cons b bs =>
      rw [List.flatMap_nil, List.nil_append, List.flatMap_cons, List.append_assoc] at h
      exact absurd (h ▸ hr) (hw b _).2
  | cons a as ih =>
    obtain ⟨hhead, htail⟩ := List.forall_mem_cons.1 ha
    rw [List.flatMap_cons, List.append_assoc] at h
    cases bs with
    | nil =>
      rw [List.flatMap_nil, List.nil_append] at h
      exact absurd (h ▸ ho) (hw a _).2
    | cons b bs =>
      rw [List.flatMap_cons, List.append_assoc] at h
      obtain ⟨rfl, hmore⟩ := hhead b _ _ (hfollows as rest hr) (hfollows bs others ho) h
      obtain ⟨rfl, hrest⟩ := ih htail bs hmore
      exact ⟨rfl, hrest⟩

end ConditionalTags
