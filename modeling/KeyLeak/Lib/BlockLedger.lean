import Mathlib.Data.List.Nodup

/-!
# A ledger of blocks

Blocks are numbered in the order they are handed out. Each holder holds at most one;
giving it back frees it, and forgetting drops every hold at once and frees nothing.
-/
namespace BlockLedger

variable {τ : Type}

structure Ledger (τ : Type) where
  held : τ → Option Nat
  issued : Nat
  freed : List Nat

def opening : Ledger τ := ⟨fun _ => none, 0, []⟩

/-- Somebody holds the block. -/
def Held (l : Ledger τ) (n : Nat) : Prop := ∃ t, l.held t = some n

/-- What holds between any two entries. -/
structure Sound (l : Ledger τ) : Prop where
  unfreed : ∀ t n, l.held t = some n → n < l.issued ∧ n ∉ l.freed
  apart : ∀ t u n, l.held t = some n → l.held u = some n → t = u
  issued : ∀ n ∈ l.freed, n < l.issued
  once : l.freed.Nodup

/-- Every block was freed exactly once, or it is held and was not freed. -/
def Accounted (l : Ledger τ) : Prop :=
  ∀ n, n < l.issued →
    (l.freed.count n = 1 ∧ ¬ Held l n) ∨ (l.freed.count n = 0 ∧ Held l n)

/-- Between sound entries a block can only be lost by being neither freed nor held. -/
theorem accounted_iff {l : Ledger τ} (hs : Sound l) :
    Accounted l ↔ ∀ n, n < l.issued → n ∈ l.freed ∨ Held l n := by
  have hfreed : ∀ n, n ∈ l.freed → l.freed.count n = 1 ∧ ¬ Held l n := by
    intro n hn
    refine ⟨List.count_eq_one_of_mem hs.once hn, ?_⟩
    rintro ⟨t, ht⟩
    exact (hs.unfreed t n ht).2 hn
  constructor
  · intro h n hn
    rcases h n hn with ⟨hcount, -⟩ | ⟨-, hheld⟩
    · exact .inl (List.count_pos_iff.mp (by omega))
    · exact .inr hheld
  · intro h n hn
    by_cases hf : n ∈ l.freed
    · exact .inl (hfreed n hf)
    · exact .inr ⟨List.count_eq_zero_of_not_mem hf, (h n hn).resolve_left hf⟩

theorem opening_sound : Sound (opening : Ledger τ) := by
  constructor <;> simp [opening]

theorem opening_accounted : Accounted (opening : Ledger τ) := by
  intro n hn
  simp [opening] at hn

def forget (l : Ledger τ) : Ledger τ := { l with held := fun _ => none }

theorem forget_sound {l : Ledger τ} (hs : Sound l) : Sound (forget l) := by
  constructor
  · simp [forget]
  · simp [forget]
  · exact hs.issued
  · exact hs.once

/-- Forgetting loses exactly what was held. -/
theorem forget_accounted_iff {l : Ledger τ} (hs : Sound l) :
    Accounted (forget l) ↔ Accounted l ∧ ∀ t, l.held t = none := by
  rw [accounted_iff hs, accounted_iff (forget_sound hs)]
  have hnone : ∀ n, ¬ Held (forget l) n := by simp [Held, forget]
  constructor
  · intro h
    refine ⟨fun n hn => .inl ((h n hn).resolve_right (hnone n)), fun t => ?_⟩
    cases ht : l.held t with
    | none => rfl
    | some n =>
      have hn := hs.unfreed t n ht
      exact absurd ((h n hn.1).resolve_right (hnone n)) hn.2
  · rintro ⟨h, hheld⟩ n hn
    rcases h n hn with hf | ⟨t, ht⟩
    · exact .inl hf
    · simp [hheld t] at ht

variable [DecidableEq τ]

/-- A holder without a block gets the next one; any other keeps the one it has. -/
def acquire (l : Ledger τ) (t : τ) : Ledger τ :=
  match l.held t with
  | some _ => l
  | none =>
    { l with held := fun u => if u = t then some l.issued else l.held u, issued := l.issued + 1 }

def release (l : Ledger τ) (t : τ) : Ledger τ :=
  { l with
    held := fun u => if u = t then none else l.held u
    freed := l.freed ++ (l.held t).toList }

theorem acquire_sound {l : Ledger τ} (hs : Sound l) (t : τ) : Sound (acquire l t) := by
  cases ht : l.held t with
  | some n => simpa [acquire, ht] using hs
  | none =>
    simp only [acquire, ht]
    constructor
    · intro u n hu
      by_cases hut : u = t
      · simp only [hut, if_true, Option.some.injEq] at hu
        have hfresh : n ∉ l.freed := fun hf => by
          have := hs.issued n hf
          omega
        exact ⟨by simp only; omega, hfresh⟩
      · have hold := hs.unfreed u n (by simpa [hut] using hu)
        exact ⟨by simp only; omega, hold.2⟩
    · intro u v n hu hv
      have hnew : ∀ w, l.held w ≠ some l.issued := fun w hw => by
        have := (hs.unfreed w _ hw).1
        omega
      by_cases hut : u = t <;> by_cases hvt : v = t
      · rw [hut, hvt]
      · simp only [hut, if_true, Option.some.injEq] at hu
        exact absurd (by simpa [hvt, ← hu] using hv) (hnew v)
      · simp only [hvt, if_true, Option.some.injEq] at hv
        exact absurd (by simpa [hut, ← hv] using hu) (hnew u)
      · exact hs.apart u v n (by simpa [hut] using hu) (by simpa [hvt] using hv)
    · intro n hn
      have := hs.issued n hn
      simp only
      omega
    · exact hs.once

theorem acquire_held_same (l : Ledger τ) (t : τ) : (acquire l t).held t ≠ none := by
  cases ht : l.held t <;> simp [acquire, ht]

theorem acquire_held_other (l : Ledger τ) {t u : τ} (h : u ≠ t) :
    (acquire l t).held u = l.held u := by
  cases ht : l.held t <;> simp [acquire, ht, h]

theorem acquire_accounted_iff {l : Ledger τ} (hs : Sound l) (t : τ) :
    Accounted (acquire l t) ↔ Accounted l := by
  rw [accounted_iff hs, accounted_iff (acquire_sound hs t)]
  cases ht : l.held t with
  | some n => simp [acquire, ht]
  | none =>
    have hissued : (acquire l t).issued = l.issued + 1 := by simp [acquire, ht]
    have hfreed : (acquire l t).freed = l.freed := by simp [acquire, ht]
    have hheld : ∀ n, Held (acquire l t) n ↔ n = l.issued ∨ Held l n := by
      intro n
      constructor
      · rintro ⟨u, hu⟩
        by_cases hut : u = t
        · exact .inl (by simpa [acquire, ht, hut, eq_comm] using hu)
        · exact .inr ⟨u, by rwa [acquire_held_other l hut] at hu⟩
      · rintro (rfl | ⟨u, hu⟩)
        · exact ⟨t, by simp [acquire, ht]⟩
        · have hut : u ≠ t := by
            rintro rfl
            simp [ht] at hu
          exact ⟨u, by rwa [acquire_held_other l hut]⟩
    simp only [hissued, hfreed, hheld]
    constructor
    · intro h n hn
      rcases h n (by omega) with hf | hnew | hold
      · exact .inl hf
      · omega
      · exact .inr hold
    · intro h n hn
      by_cases hnew : n = l.issued
      · exact .inr (.inl hnew)
      · exact (h n (by omega)).imp_right .inr

theorem release_sound {l : Ledger τ} (hs : Sound l) (t : τ) : Sound (release l t) := by
  have hback : ∀ {u n}, (release l t).held u = some n → u ≠ t ∧ l.held u = some n := by
    intro u n hu
    by_cases hut : u = t
    · simp [release, hut] at hu
    · exact ⟨hut, by simpa [release, hut] using hu⟩
  constructor
  · intro u n hu
    obtain ⟨hut, hu⟩ := hback hu
    refine ⟨(hs.unfreed u n hu).1, fun hf => ?_⟩
    rcases List.mem_append.mp hf with hf | hf
    · exact (hs.unfreed u n hu).2 hf
    · exact hut (hs.apart u t n hu (by simpa using hf))
  · intro u v n hu hv
    exact hs.apart u v n (hback hu).2 (hback hv).2
  · intro n hf
    rcases List.mem_append.mp hf with hf | hf
    · exact hs.issued n hf
    · exact (hs.unfreed t n (by simpa using hf)).1
  · cases ht : l.held t with
    | none => simpa [release, ht] using hs.once
    | some n =>
      have hn := (hs.unfreed t n ht).2
      simp only [release, ht, Option.toList_some, ← List.concat_eq_append]
      exact hs.once.concat hn

theorem release_held_same (l : Ledger τ) (t : τ) : (release l t).held t = none := by
  simp [release]

theorem release_held_other (l : Ledger τ) {t u : τ} (h : u ≠ t) :
    (release l t).held u = l.held u := by simp [release, h]

theorem release_accounted_iff {l : Ledger τ} (hs : Sound l) (t : τ) :
    Accounted (release l t) ↔ Accounted l := by
  rw [accounted_iff hs, accounted_iff (release_sound hs t)]
  have hsettled : ∀ n, (n ∈ (release l t).freed ∨ Held (release l t) n) ↔
      n ∈ l.freed ∨ Held l n := by
    intro n
    constructor
    · rintro (hf | ⟨u, hu⟩)
      · rcases List.mem_append.mp hf with hf | hf
        · exact .inl hf
        · exact .inr ⟨t, by simpa using hf⟩
      · by_cases hut : u = t
        · simp [release, hut] at hu
        · exact .inr ⟨u, by simpa [release, hut] using hu⟩
    · rintro (hf | ⟨u, hu⟩)
      · exact .inl (List.mem_append_left _ hf)
      · by_cases hut : u = t
        · rw [hut] at hu
          exact .inl (List.mem_append_right _ (by simp [hu]))
        · exact .inr ⟨u, by simpa [release, hut] using hu⟩
  simp only [hsettled]
  rfl

end BlockLedger
