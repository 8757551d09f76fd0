import Mathlib.Data.List.Infix

/-!
# Replacing every occurrence of a word

`replaceAll old new` scans a text from left to right, writes `new` for each occurrence
of `old` it meets, and resumes behind that occurrence. Its result can contain `old`
again, inside an inserted copy of `new` or across the edge of one. Words that are
`Separated` exclude both, in every text.
-/
namespace Replace

variable {α : Type} {old new : List α}

/-- Two words one of which starts the other. -/
def Comparable (u v : List α) : Prop := u <+: v ∨ v <+: u

instance [DecidableEq α] (u v : List α) : Decidable (Comparable u v) :=
  inferInstanceAs (Decidable (_ ∨ _))

/-- A word that starts a concatenation is comparable with its first part. -/
theorem comparable_of_prefix_append {u v w : List α} (h : u <+: v ++ w) : Comparable u v :=
  List.prefix_or_prefix_of_prefix h (List.prefix_append v w)

/-- The replacement offers no place where the searched word could start, and none
where an occurrence begun before it could go on. -/
structure Separated (old new : List α) : Prop where
  nonempty : old ≠ []
  leaves : ∀ t ∈ new.tails, t ≠ [] → ¬ Comparable old t
  enters : ∀ y ∈ old.tails, y ≠ [] → y ≠ old → ¬ Comparable y new

instance [DecidableEq α] (old new : List α) : Decidable (Separated old new) :=
  decidable_of_iff (old ≠ [] ∧ (∀ t ∈ new.tails, t ≠ [] → ¬ Comparable old t) ∧
      ∀ y ∈ old.tails, y ≠ [] → y ≠ old → ¬ Comparable y new)
    ⟨fun h => ⟨h.1, h.2.1, h.2.2⟩, fun h => ⟨h.nonempty, h.leaves, h.enters⟩⟩

/-- No occurrence starts inside an inserted copy of the replacement. -/
theorem not_infix_append (hs : Separated old new) {rest : List α} (h : ¬ old <:+: rest) :
    ¬ old <:+: new ++ rest := by
  have hsuffix : ∀ t, t <:+ new → ¬ old <:+: t ++ rest := by
    intro t
    induction t with
    | nil =>
      intro _
      exact h
    | cons c t ih =>
      intro ht hi
      rcases List.infix_cons_iff.mp hi with hp | hi
      · exact hs.leaves (c :: t) ((List.mem_tails _ _).mpr ht) (by simp)
          (comparable_of_prefix_append hp)
      · exact ih ((List.suffix_cons c t).trans ht) hi
  exact hsuffix new (List.suffix_refl new)

variable [DecidableEq α]

/-- The number says how many letters of the last occurrence are still to be dropped. -/
def replaceFrom (old new : List α) : Nat → List α → List α
  | _, [] => []
  | skip + 1, _ :: cs => replaceFrom old new skip cs
  | 0, c :: cs =>
    if old <+: c :: cs then new ++ replaceFrom old new (old.length - 1) cs
    else c :: replaceFrom old new 0 cs

/-- The searched word is meant to be nonempty. -/
def replaceAll (old new text : List α) : List α := replaceFrom old new 0 text

theorem replaceFrom_eq_drop (old new : List α) (skip : Nat) (text : List α) :
    replaceFrom old new skip text = replaceAll old new (text.drop skip) := by
  induction text generalizing skip with
  | nil => cases skip <;> simp [replaceFrom, replaceAll]
  | cons c cs ih =>
    cases skip with
    | zero => rfl
    | succ skip => simpa [replaceFrom] using ih skip

@[simp] theorem replaceAll_nil (old new : List α) : replaceAll old new [] = [] := rfl

theorem replaceAll_append (hold : old ≠ []) (rest : List α) :
    replaceAll old new (old ++ rest) = new ++ replaceAll old new rest := by
  cases old with
  | nil => exact absurd rfl hold
  | cons a w =>
    have hp : a :: w <+: a :: (w ++ rest) := ⟨rest, rfl⟩
    have hskip : replaceFrom (a :: w) new w.length (w ++ rest) = replaceAll (a :: w) new rest := by
      rw [replaceFrom_eq_drop, List.drop_left]
    simpa [replaceAll, replaceFrom, hp] using hskip

theorem replaceAll_cons {c : α} {cs : List α} (h : ¬ old <+: c :: cs) :
    replaceAll old new (c :: cs) = c :: replaceAll old new cs := by
  simp [replaceAll, replaceFrom, h]

/-- The scan sees a text as empty, as an occurrence and the rest, or as one letter at
which no occurrence starts and the rest. -/
theorem scan_induction {motive : List α → Prop} (hold : old ≠ [])
    (nil : motive [])
    (occurrence : ∀ rest, motive rest → motive (old ++ rest))
    (letter : ∀ c cs, ¬ old <+: c :: cs → motive cs → motive (c :: cs))
    (text : List α) : motive text := by
  induction hn : text.length using Nat.strong_induction_on generalizing text with
  | _ n ih =>
    cases text with
    | nil => exact nil
    | cons c cs =>
      by_cases hp : old <+: c :: cs
      · obtain ⟨rest, hrest⟩ := hp
        have hlen := congrArg List.length hrest
        have hpos := List.length_pos_iff.mpr hold
        rw [List.length_append] at hlen
        rw [← hrest]
        exact occurrence rest (ih rest.length (by omega) rest rfl)
      · exact letter c cs hp (ih cs.length (by simp at hn; omega) cs rfl)

theorem mem_replaceFrom {skip : Nat} {text : List α} {c : α}
    (h : c ∈ replaceFrom old new skip text) : c ∈ new ∨ c ∈ text := by
  fun_induction replaceFrom old new skip text with
  | case1 => simp at h
  | case2 skip a cs ih => exact (ih h).imp_right (List.mem_cons_of_mem a)
  | case3 a cs hp ih =>
    rcases List.mem_append.mp h with h | h
    · exact .inl h
    · exact (ih h).imp_right (List.mem_cons_of_mem a)
  | case4 a cs hp ih =>
    rcases List.mem_cons.mp h with rfl | h
    · exact .inr List.mem_cons_self
    · exact (ih h).imp_right (List.mem_cons_of_mem a)

/-- Every letter of the result comes from the replacement or from the text. -/
theorem mem_replaceAll {text : List α} {c : α} (h : c ∈ replaceAll old new text) :
    c ∈ new ∨ c ∈ text :=
  mem_replaceFrom h

/-- A proper suffix of the searched word at the start of the result was already at the
start of the text. -/
theorem prefix_of_prefix_replaceAll (hs : Separated old new) {text : List α} :
    ∀ y, y <:+ old → y ≠ old → y <+: replaceAll old new text → y <+: text := by
  induction text using scan_induction hs.nonempty with
  | nil =>
    intro y _ _ hp
    exact hp
  | occurrence rest _ =>
    intro y hy hne hp
    by_cases hnil : y = []
    · rw [hnil]
      exact List.nil_prefix
    · rw [replaceAll_append hs.nonempty] at hp
      exact absurd (comparable_of_prefix_append hp)
        (hs.enters y ((List.mem_tails y old).mpr hy) hnil hne)
  | letter c cs hc ih =>
    intro y hy hne hp
    rw [replaceAll_cons hc] at hp
    cases y with
    | nil => exact List.nil_prefix
    | cons a y =>
      obtain ⟨hac, hp⟩ := List.cons_prefix_cons.mp hp
      have hy' : y <:+ old := (List.suffix_cons a y).trans hy
      have hne' : y ≠ old := by
        intro h
        have := hy.length_le
        rw [← h, List.length_cons] at this
        omega
      exact List.cons_prefix_cons.mpr ⟨hac, ih y hy' hne' hp⟩

/-- One pass over any text leaves no occurrence of the searched word. -/
theorem not_infix_replaceAll (hs : Separated old new) (text : List α) :
    ¬ old <:+: replaceAll old new text := by
  induction text using scan_induction hs.nonempty with
  | nil =>
    intro hi
    exact hs.nonempty (List.infix_nil.mp hi)
  | occurrence rest ih =>
    rw [replaceAll_append hs.nonempty]
    exact not_infix_append hs ih
  | letter c cs hc ih =>
    rw [replaceAll_cons hc]
    intro hi
    rcases List.infix_cons_iff.mp hi with hp | hi
    · cases hold : old with
      | nil => exact hs.nonempty hold
      | cons a y =>
        rw [hold] at hp
        obtain ⟨hac, hp⟩ := List.cons_prefix_cons.mp hp
        have hy : y <+: cs :=
          prefix_of_prefix_replaceAll hs y (by simp [hold]) (by simp [hold]) (by rwa [hold])
        rw [hold] at hc
        exact hc (List.cons_prefix_cons.mpr ⟨hac, hy⟩)
    · exact ih hi

/-- Without separation a letter of the text completes what the replacement began. -/
example : replaceAll [1, 2] [1] [1, 2, 2] = [1, 2] ∧ ¬ Separated [1, 2] [1] := by decide

end Replace
