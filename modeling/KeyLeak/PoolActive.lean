import Mathlib.Algebra.BigOperators.Ring.Finset
import KeyLeak.PoolSteps

/-!
# The count of the active threads

`numActive_` is one word with two counters, changed by one addition for both. In every state of
every run the lower half is the number of thieves, and the upper half that of the threads that
neither steal nor sleep. A thread that has been stopped leaves `pop` without another change of
the word, so it stays in the upper half.
-/
namespace Pool

open Runs

variable {T : Nat} {σ Task : Type}

namespace Phase

/-- Between `set_stealing` and `clear_stealing`. -/
def isThief : Phase T σ Task → Bool
  | .stealing .. | .stolen .. | .clearStealing _ => true
  | _ => false

/-- Between `set_sleeping` and `clear_sleeping`. -/
def isAsleep : Phase T σ Task → Bool
  | .waiting _ | .clearSleeping => true
  | _ => false

/-- Neither of them, as a thread that has returned. -/
def isVictim (phase : Phase T σ Task) : Bool := !phase.isThief && !phase.isAsleep

theorem asleep_counts {phase : Phase T σ Task} (h : phase.isAsleep) :
    phase.isThief = false ∧ phase.isVictim = false := by
  have hthief : phase.isThief = false := by
    cases phase with
    | waiting | clearSleeping => rfl
    | _ => cases h
  refine ⟨hthief, ?_⟩
  rw [isVictim, h, hthief]
  rfl

/-- What a thread contributes to the word. -/
def weight (phase : Phase T σ Task) : Nat :=
  (if phase.isVictim then 65536 else 0) + if phase.isThief then 1 else 0

theorem weight_le (phase : Phase T σ Task) : phase.weight ≤ 65536 := by
  unfold weight isVictim
  cases phase.isThief <;> cases phase.isAsleep <;> decide

@[simp] theorem weight_missed (asleep : Bool) : (missed asleep : Phase T σ Task).weight = 65536 := by
  cases asleep <;> rfl

@[simp] theorem weight_nextSteal (near : Bool) (i : Nat) :
    (nextSteal near i : Phase T σ Task).weight = 1 := by
  unfold nextSteal
  split
  · rfl
  · split <;> rfl

@[simp] theorem weight_signal (phase : Phase T σ Task) : phase.signal.weight = phase.weight := by
  cases phase <;> rfl

end Phase

theorem sum_weight_le (phase : Fin T → Phase T σ Task) : ∑ w, (phase w).weight ≤ 65536 * T := by
  have hle := Finset.sum_le_card_nsmul Finset.univ (fun w => (phase w).weight) 65536
    fun w _ => (phase w).weight_le
  simpa [Nat.mul_comm] using hle

theorem sum_goto (p : Pool T σ Task) (w : Fin T) (phase : Phase T σ Task) :
    ∑ v, ((p.goto w phase).phase v).weight + (p.phase w).weight =
      ∑ v, (p.phase v).weight + phase.weight :=
  Workers.sum_update Phase.weight p.phase w phase

/-- The word is the sum of what the threads contribute. -/
def Accounted (p : Pool T σ Task) : Prop := p.numActive.toNat = ∑ w, (p.phase w).weight

theorem Accounted.goto {p : Pool T σ Task} (h : Accounted p) {w : Fin T} {phase : Phase T σ Task}
    (hw : phase.weight = (p.phase w).weight) : Accounted (p.goto w phase) := by
  have hsum := sum_goto p w phase
  rw [hw] at hsum
  exact h.trans (Nat.add_right_cancel hsum).symm

theorem start_accounted (hT : T < 65536) (numBlocks blockSize : Nat) :
    Accounted (start T σ Task numBlocks blockSize) := by
  have hweight : ∀ w : Fin T, ((start T σ Task numBlocks blockSize).phase w).weight = 65536 :=
    fun _ => rfl
  have hshift : (UInt32.ofNat T <<< 16).toNat = T * 65536 := by
    rw [UInt32.toNat_shiftLeft, UInt32.toNat_ofNat_of_lt' (by unfold UInt32.size; omega),
      Nat.shiftLeft_eq]
    change T * 65536 % 4294967296 = _
    omega
  rw [Accounted, Finset.sum_const_nat fun w _ => hweight w, Finset.card_univ, Fintype.card_fin]
  exact hshift

/-- The two counters. -/
theorem sum_weight (phase : Fin T → Phase T σ Task) :
    ∑ w, (phase w).weight = 65536 * (Finset.univ.filter fun w => (phase w).isVictim).card +
      (Finset.univ.filter fun w => (phase w).isThief).card := by
  simp [Phase.weight, Finset.sum_add_distrib, Finset.sum_ite, Nat.mul_comm]

variable [DecidableEq σ] [DecidableEq Task] {numaNode : Fin T → Int} {p p' q : Pool T σ Task}

/-- The addition is that of the difference, as long as the sum fits. -/
theorem Popped.numActive {w : Fin T} {phase : Phase T σ Task} (h : Popped numaNode p w phase q)
    (hle : (p.phase w).weight ≤ p.numActive.toNat)
    (hlt : p.numActive.toNat + phase.weight < 4294967296 + (p.phase w).weight) :
    q.numActive.toNat + (p.phase w).weight = p.numActive.toNat + phase.weight := by
  have hone : oneVictim.toNat = 65536 := rfl
  have hdiff : (1 - oneVictim).toNat = 4294901761 := rfl
  have hword := p.numActive.toNat_lt
  cases h with
  | took here _ =>
    rcases here with here | ⟨_, here⟩ <;> rw [here] <;> rfl
  | empty here _ | collected here | appended here _ | moved here _ | claimed here _ _
  | read here _ | stopped here _ | locked here _ | dozed here _ | kept here | woken here
  | stored here | executed here =>
    rw [here]
    rfl
  | noTasks here _ | lost here _ =>
    rw [here, Phase.weight_missed]
    rfl
  | alone here | nothing here _ _ | readNull here _ =>
    rw [here, Phase.weight_nextSteal]
    rfl
  | thief here =>
    rw [here] at hle hlt ⊢
    change 65536 ≤ _ at hle
    change (p.numActive + (1 - oneVictim)).toNat + 65536 = _ + 1
    rw [UInt32.toNat_add, hdiff]
    omega
  | gotTask targets here | gaveUp targets here =>
    rw [here] at hle hlt ⊢
    change p.numActive.toNat + 65536 < _ at hlt
    change 1 ≤ _ at hle
    change (p.numActive - (1 - oneVictim)).toNat + 1 = _ + 65536
    rw [UInt32.toNat_sub, hdiff]
    change _ < _ + 1 at hlt
    omega
  | slept here =>
    rw [here] at hle hlt ⊢
    change 65536 ≤ _ at hle
    change (p.numActive - oneVictim).toNat + 65536 = _ + 0
    have hge : oneVictim ≤ p.numActive := UInt32.le_iff_toNat_le.mpr hle
    rw [UInt32.toNat_sub_of_le _ _ hge, hone]
    omega
  | awake targets here =>
    rw [here] at hle hlt ⊢
    change _ + 65536 < _ + 0 at hlt
    change (p.numActive + oneVictim).toNat + 0 = _ + 65536
    rw [UInt32.toNat_add, hone]
    omega

theorem stepped_accounted (hT : T < 65536) (h : Accounted p) (hstep : Stepped numaNode p p') :
    Accounted p' := by
  cases hstep with
  | @popped w phase q _ hpop =>
    have hsum := sum_goto q w phase
    rw [hpop.phase_eq] at hsum
    have hle : (p.phase w).weight ≤ ∑ v, (p.phase v).weight :=
      Finset.single_le_sum (f := fun v => (p.phase v).weight) (fun _ _ => Nat.zero_le _)
        (Finset.mem_univ w)
    have hbound := sum_weight_le (q.goto w phase).phase
    have hnum := hpop.numActive (by rw [h]; exact hle) (by rw [h]; omega)
    rw [h] at hnum
    change q.numActive.toNat = _
    omega
  | notified hn =>
    cases hn with
    | sleeping | awake | locked => exact h
    | @signalled i others here => exact h.goto (Phase.weight_signal _)
  | weakFails here => exact h.goto (by rw [here]; rfl)
  | spurious here => exact h.goto (by rw [here]; rfl)
  | registered | submitted | pushed | prepended | stopRequested => exact h

/-- As long as there are less than 2^16 threads, the halves of the word never run into each other:
in every state of every run they count the thieves and the threads that neither steal nor sleep,
those that have returned included. So a thief that stops stealing sees whether it is the last one,
and the word is 0 just when all threads sleep. -/
theorem numActive_counts (hT : T < 65536) {numBlocks blockSize : Nat} {es : List (Event T σ Task)}
    (h : run (step numaNode) (start T σ Task numBlocks blockSize) es = some p) :
    (p.numActive >>> 16).toNat = (Finset.univ.filter fun w => (p.phase w).isVictim).card ∧
    (p.numActive &&& 0xffff).toNat = (Finset.univ.filter fun w => (p.phase w).isThief).card ∧
    (p.numActive = 0 ↔ ∀ w, (p.phase w).isAsleep) := by
  obtain ⟨-, hacc⟩ := run_stepped (start_accounted hT _ _)
    (fun _ _ _ hp hstep => stepped_accounted hT hp hstep) h
  rw [Accounted, sum_weight] at hacc
  have hthieves : (Finset.univ.filter fun w => (p.phase w).isThief).card ≤ T := by
    simpa using Finset.card_filter_le Finset.univ fun w => (p.phase w).isThief
  refine ⟨?_, ?_, ?_⟩
  · rw [UInt32.toNat_shiftRight, hacc, Nat.shiftRight_eq_div_pow]
    change (_ + _) / 65536 = _
    omega
  · rw [UInt32.toNat_and, hacc]
    change (_ + _) &&& (2 ^ 16 - 1) = _
    rw [Nat.and_two_pow_sub_one_eq_mod]
    omega
  · have hzero : p.numActive = 0 ↔ p.numActive.toNat = 0 := UInt32.toNat_inj.symm
    rw [hzero, hacc]
    constructor
    · intro h0 w
      have hv : (Finset.univ.filter fun w => (p.phase w).isVictim).card = 0 := by omega
      have ht : (Finset.univ.filter fun w => (p.phase w).isThief).card = 0 := by omega
      rw [Finset.card_eq_zero, Finset.filter_eq_empty_iff] at hv ht
      have hvictim := hv (Finset.mem_univ w)
      have hthief := ht (Finset.mem_univ w)
      simpa [Phase.isVictim, hthief] using hvictim
    · intro hall
      have hnone := fun w => Phase.asleep_counts (hall w)
      simp [hnone]

/-- The first of two threads has found nothing and become a thief. -/
theorem numActive_counts_two : ∃ p, run (step fun _ => 0) (start 2 Unit Nat 4 1)
      [.worker 0 0, .worker 0 0, .worker 0 0] = some p ∧ (p.phase 0).isThief ∧
    (p.numActive >>> 16).toNat = (Finset.univ.filter fun w => (p.phase w).isVictim).card := by
  obtain ⟨p, hp, hthief⟩ : ∃ p, run (step fun _ => 0) (start 2 Unit Nat 4 1)
      [.worker 0 0, .worker 0 0, .worker 0 0] = some p ∧ (p.phase 0).isThief := by
    rw [start, LifoQueue.start_four]
    exact ⟨_, rfl, rfl⟩
  exact ⟨p, hp, hthief, (numActive_counts (by decide) hp).1⟩

end Pool
