import Mathlib.Data.Fintype.Card
import Mathlib.Data.List.FinRange

/-!
# Pools of slots

A pool assigns to every slot of a finite type either nothing or a holder. Slots
are taken one at a time, wherever the allocator likes, and given back in any
order. The abstract view of a pool is the finite set of its held slots.
-/
namespace SlotPool

abbrev Pool (ι κ : Type) := ι → Option κ

variable {ι κ μ : Type}

/-- Change what is known of each holder, without moving anybody. -/
def relabel (f : κ → μ) (p : Pool ι κ) : Pool ι μ := fun j => (p j).map f

@[simp] theorem relabel_apply (f : κ → μ) (p : Pool ι κ) (j : ι) :
    relabel f p j = (p j).map f := rfl

variable [DecidableEq ι]

def put (p : Pool ι κ) (s : ι) (k : κ) : Pool ι κ := fun j => if j = s then some k else p j
def drop (p : Pool ι κ) (s : ι) : Pool ι κ := fun j => if j = s then none else p j

@[simp] theorem put_same (p : Pool ι κ) (s : ι) (k : κ) : put p s k s = some k := by simp [put]
@[simp] theorem put_other (p : Pool ι κ) (s j : ι) (k : κ) (h : j ≠ s) :
    put p s k j = p j := by simp [put, h]
@[simp] theorem drop_same (p : Pool ι κ) (s : ι) : drop p s s = none := by simp [drop]
@[simp] theorem drop_other (p : Pool ι κ) (s j : ι) (h : j ≠ s) : drop p s j = p j := by
  simp [drop, h]

theorem drop_put (p : Pool ι κ) (s : ι) (k : κ) (h : p s = none) : drop (put p s k) s = p := by
  funext j
  by_cases hj : j = s <;> simp_all [drop, put]

/-- Give back a list of slots, first to last. -/
def dropAll (p : Pool ι κ) : List ι → Pool ι κ
  | [] => p
  | s :: ss => dropAll (drop p s) ss

@[simp] theorem dropAll_nil (p : Pool ι κ) : dropAll p [] = p := rfl
@[simp] theorem dropAll_cons (p : Pool ι κ) (s : ι) (ss : List ι) :
    dropAll p (s :: ss) = dropAll (drop p s) ss := rfl

theorem dropAll_apply (p : Pool ι κ) (ss : List ι) (j : ι) :
    dropAll p ss j = if j ∈ ss then none else p j := by
  induction ss generalizing p with
  | nil => simp
  | cons s ss ih =>
    rw [dropAll_cons, ih]
    by_cases hs : j = s <;> by_cases hj : j ∈ ss <;> simp [drop, hs, hj]

theorem relabel_put (f : κ → μ) (p : Pool ι κ) (s : ι) (k : κ) :
    relabel f (put p s k) = put (relabel f p) s (f k) := by
  funext j
  by_cases hj : j = s <;> simp [put, hj]

theorem relabel_drop (f : κ → μ) (p : Pool ι κ) (s : ι) :
    relabel f (drop p s) = drop (relabel f p) s := by
  funext j
  by_cases hj : j = s <;> simp [drop, hj]

theorem relabel_dropAll (f : κ → μ) (p : Pool ι κ) (ss : List ι) :
    relabel f (dropAll p ss) = dropAll (relabel f p) ss := by
  induction ss generalizing p with
  | nil => rfl
  | cons s ss ih => rw [dropAll_cons, ih, relabel_drop, dropAll_cons]

section Counting

variable [Fintype ι]

/-- The abstract view: which slots are held. -/
def held (p : Pool ι κ) : Finset ι := Finset.univ.filter (fun s => (p s).isSome)

def used (p : Pool ι κ) : Nat := (held p).card
def free (p : Pool ι κ) : Nat := (held p)ᶜ.card

omit [DecidableEq ι] in
@[simp] theorem mem_held (p : Pool ι κ) (s : ι) : s ∈ held p ↔ p s ≠ none := by
  simp [held, Option.isSome_iff_ne_none]

@[simp] theorem held_put (p : Pool ι κ) (s : ι) (k : κ) : held (put p s k) = insert s (held p) := by
  ext j
  by_cases hj : j = s <;> simp [put, hj]

@[simp] theorem held_drop (p : Pool ι κ) (s : ι) : held (drop p s) = (held p).erase s := by
  ext j
  by_cases hj : j = s <;> simp [drop, hj]

omit [DecidableEq ι] in
@[simp] theorem held_relabel (f : κ → μ) (p : Pool ι κ) : held (relabel f p) = held p := by
  ext j
  simp

theorem used_add_free (p : Pool ι κ) : used p + free p = Fintype.card ι :=
  Finset.card_add_card_compl (held p)

omit [DecidableEq ι] in
theorem used_le (p : Pool ι κ) : used p ≤ Fintype.card ι := Finset.card_le_univ _

theorem used_put (p : Pool ι κ) (s : ι) (k : κ) (h : p s = none) :
    used (put p s k) = used p + 1 := by
  unfold used
  rw [held_put, Finset.card_insert_of_notMem (by simpa using h)]

theorem free_put (p : Pool ι κ) (s : ι) (k : κ) (h : p s = none) :
    free (put p s k) + 1 = free p := by
  have h₁ := used_add_free p
  have h₂ := used_add_free (put p s k)
  rw [used_put p s k h] at h₂
  omega

theorem free_eq_zero_iff (p : Pool ι κ) : free p = 0 ↔ ∀ s, p s ≠ none := by
  unfold free
  simp [Finset.eq_univ_iff_forall]

end Counting

/-- `ss` are taken from `p` one after another, each while it is vacant, for the
same holder `k`, and `q` is what remains. -/
inductive Acquires (k : κ) : Pool ι κ → List ι → Pool ι κ → Prop
  | nil (p : Pool ι κ) : Acquires k p [] p
  | cons {p q : Pool ι κ} {s : ι} {ss : List ι} (vacant : p s = none)
      (rest : Acquires k (put p s k) ss q) : Acquires k p (s :: ss) q

namespace Acquires

variable {k : κ} {p q : Pool ι κ} {ss : List ι}

/-- Only slots that were vacant at the start are ever taken. -/
theorem vacant (h : Acquires k p ss q) : ∀ s ∈ ss, p s = none := by
  induction h with
  | nil => simp
  | @cons p q s ss hv _ ih =>
    intro j hj
    rcases List.mem_cons.mp hj with rfl | hj
    · exact hv
    · have := ih j hj
      by_cases hs : j = s
      · exact hs ▸ hv
      · rwa [put_other _ _ _ _ hs] at this

theorem nodup (h : Acquires k p ss q) : ss.Nodup := by
  induction h with
  | nil => exact List.nodup_nil
  | @cons p q s ss _ hr ih =>
    refine List.nodup_cons.mpr ⟨fun hs => ?_, ih⟩
    simpa using hr.vacant s hs

theorem apply (h : Acquires k p ss q) (j : ι) : q j = if j ∈ ss then some k else p j := by
  induction h with
  | nil => simp
  | @cons p q s ss _ hr ih =>
    rw [ih]
    by_cases hs : j = s <;> by_cases hj : j ∈ ss <;> simp [put, hs, hj]

/-- Giving everything back restores the pool exactly, wherever the slots were. -/
theorem dropAll_eq (h : Acquires k p ss q) : dropAll q ss = p := by
  funext j
  rw [dropAll_apply, h.apply]
  by_cases hj : j ∈ ss
  · simp [hj, h.vacant j hj]
  · simp [hj]

theorem free_eq [Fintype ι] (h : Acquires k p ss q) : free q + ss.length = free p := by
  induction h with
  | nil => simp
  | @cons p q s ss hv _ ih =>
    have := free_put p s k hv
    simp only [List.length_cons]
    omega

end Acquires

/-- An allocation policy: it may look at the whole pool and at how often it was
asked before, it hands out vacant slots only, and it refuses only when full. -/
structure Policy (ι κ : Type) where
  pick : Nat → Pool ι κ → Option ι
  sound : ∀ n p s, pick n p = some s → p s = none
  complete : ∀ n p, pick n p = none → ∀ s, p s ≠ none

theorem Policy.pick_eq_none_iff [Fintype ι] (A : Policy ι κ) (n : Nat) (p : Pool ι κ) :
    A.pick n p = none ↔ free p = 0 := by
  rw [free_eq_zero_iff]
  constructor
  · exact A.complete n p
  · intro h
    cases hp : A.pick n p with
    | none => rfl
    | some s => exact absurd (A.sound n p s hp) (h s)

/-- The lowest vacant slot. -/
def firstFit (n : Nat) (κ : Type) : Policy (Fin n) κ where
  pick _ p := (List.finRange n).find? (fun s => (p s).isNone)
  sound _ p s h := by simpa using List.find?_some h
  complete _ p h s := by
    have := List.find?_eq_none.mp h s (List.mem_finRange s)
    simpa using this

end SlotPool
