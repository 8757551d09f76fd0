import KeyLeak.RunPlugin

/-!
# From `task_count` to the value of `run_plugin`

Nonnegative counts pass the casts unchanged, so any schedule counts one failure for
each odd index. A negative count becomes an enormous shape, and from id 46342 on the
square of an even id leaves the range of `int`.
-/
namespace TaskPath

open Runs Workers CInt RunPlugin

theorem shape_toNat {taskCount : Int32} (h : 0 ≤ taskCount.toInt) :
    (shape taskCount).toNat = taskCount.toInt.toNat := by
  have h64 : (0 : Int64) ≤ taskCount.toInt64 := by
    rw [Int64.le_iff_toInt_le, Int32.toInt_toInt64]
    exact h
  rw [shape, Int64.toNat_toUInt64_of_le h64, Int32.toNatClampNeg_toInt64, Int32.toNat_toInt]

theorem toId_toInt {idx : UInt64} (h : idx.toNat < 2147483648) : (toId idx).toInt = idx.toNat := by
  rw [toId, ← UInt32.ofNat_uInt64ToNat, UInt32.toInt32_ofNat', Int32.toInt_ofNat_of_lt h]

/-- `do_work` throws on the odd ids, negative ones included. -/
theorem fails_iff (idx : UInt64) : fails idx = true ↔ (toId idx).toInt % 2 ≠ 0 := by
  have hmod : toId idx % 2 = 0 ↔ (toId idx).toInt % 2 = 0 := by
    rw [← Int32.toInt_inj, Int32.toInt_mod]
    change (toId idx).toInt.tmod 2 = 0 ↔ _
    rw [← Int.dvd_iff_tmod_eq_zero, Int.dvd_iff_emod_eq_zero]
  unfold fails doWork
  by_cases h : toId idx % 2 = 0
  · simp [h, hmod.mp h]
  · simp [h, mt hmod.mpr h]

/-- Half of the indices fail, the first one does not. -/
theorem countP_fails {n : UInt64} (h : n.toNat ≤ 2147483648) :
    (indices n).countP fails = n.toNat / 2 := by
  unfold indices
  rw [List.countP_map]
  generalize n.toNat = k at h
  induction k with
  | zero => rfl
  | succ k ih =>
    have hk : (UInt64.ofNat k).toNat = k := UInt64.toNat_ofNat_of_lt' (by unfold UInt64.size; omega)
    have hodd : fails (UInt64.ofNat k) = true ↔ k % 2 = 1 := by
      rw [fails_iff, toId_toInt (by omega), hk]
      omega
    rw [List.range_succ, List.countP_append, ih (by omega), List.countP_singleton,
      Function.comp_apply, if_congr hodd rfl rfl]
    split <;> omega

section Runs

variable {taskCount : Int32} {H : Nat} {queues : Fin H → List UInt64} {schedule : List (Fin H)}
  {s : Crew (Fin H) Worker Shared}

theorem failures (h0 : 0 ≤ taskCount.toInt) :
    (indices (shape taskCount)).countP fails = taskCount.toInt.toNat / 2 := by
  have := taskCount.toInt_lt
  have hn := shape_toNat h0
  rw [countP_fails (by omega), hn]

/-- At every moment the counter and the failures not yet counted are half the tasks. -/
theorem counted (h0 : 0 ≤ taskCount.toInt) (hd : Distributes (shape taskCount) queues)
    (h : run (pick taskStep) (start queues) schedule = some s) :
    s.shared.failureCount.toInt + ∑ i, ((s.thread i).pending : Int) = taskCount.toInt / 2 := by
  have := taskCount.toInt_lt
  have hfail := failures h0
  rw [run_counts hd (by omega) h, hfail]
  omega

theorem counted_done (h0 : 0 ≤ taskCount.toInt) (hd : Distributes (shape taskCount) queues)
    (h : run (pick taskStep) (start queues) schedule = some s) (hdone : Done s) :
    s.shared.failureCount.toInt = taskCount.toInt / 2 := by
  have hc := counted h0 hd h
  simpa [hdone _, Worker.pending] using hc

/-- So there is always room for one more increment. -/
theorem counter_fits (h0 : 0 ≤ taskCount.toInt) (hd : Distributes (shape taskCount) queues)
    (h : run (pick taskStep) (start queues) schedule = some s) :
    Fits (s.shared.failureCount.toInt + 1) := by
  have hc := counted h0 hd h
  have hnn : 0 ≤ ∑ i, ((s.thread i).pending : Int) :=
    Finset.sum_nonneg (fun i _ => Int.natCast_nonneg _)
  have := s.shared.failureCount.le_toInt
  have := taskCount.toInt_lt
  rw [fits_iff]
  omega

theorem failureCount_pos_iff (g : Shared) : g.failureCount > 0 ↔ 0 < g.failureCount.toInt := by
  rw [gt_iff_lt, Int32.lt_iff_toInt_lt]
  rfl

/-- The result of `run_plugin` does not depend on the pool: for every distribution of
the indices and every schedule no exception leaves a task body, no failure is lost or
counted twice, every schedule ends, and at the end half the tasks have been counted
and the value says whether there was a failing one. -/
theorem run_plugin_any_schedule (h0 : 0 ≤ taskCount.toInt)
    (hd : Distributes (shape taskCount) queues)
    (h : run (pick taskStep) (start queues) schedule = some s) :
    (∀ i, (s.thread i).phase ≠ .terminated) ∧
    s.shared.failureCount.toInt + ∑ i, ((s.thread i).pending : Int) = taskCount.toInt / 2 ∧
    schedule.length ≤ 4 * taskCount.toInt.toNat ∧
    (∃ rest t, run (pick taskStep) s rest = some t ∧ Done t) ∧
    (Done s → s.shared.failureCount.toInt = (indices (shape taskCount)).countP fails ∧
      s.shared.failureCount.toInt = taskCount.toInt / 2 ∧
      returnValue none s.shared = if 2 ≤ taskCount.toInt then 1 else 0) := by
  refine ⟨run_caught h, counted h0 hd h, ?_, run_completes h, fun hdone => ?_⟩
  · rw [← shape_toNat h0]
    exact run_length hd h
  · have hc := counted_done h0 hd h hdone
    refine ⟨?_, hc, ?_⟩
    · rw [hc, failures h0]
      omega
    · have hpos : s.shared.failureCount > 0 ↔ 2 ≤ taskCount.toInt := by
        rw [failureCount_pos_iff, hc]
        omega
      simp only [returnValue, if_congr hpos rfl rfl]

end Runs

theorem run_plugin_any_schedule_three : ∃ s,
    run (pick taskStep) (start ![[0, 2], [1]]) [0, 1, 1, 0, 1, 0, 1, 0] = some s ∧
    (Done s → s.shared.failureCount.toInt = (indices (shape 3)).countP fails ∧
      s.shared.failureCount.toInt = (3 : Int32).toInt / 2 ∧
      returnValue none s.shared = if 2 ≤ (3 : Int32).toInt then 1 else 0) := by
  refine ⟨_, rfl, ?_⟩
  exact (run_plugin_any_schedule (show 0 ≤ (3 : Int32).toInt by decide) (by decide)
    (show run (pick taskStep) (start ![[0, 2], [1]]) [0, 1, 1, 0, 1, 0, 1, 0] = some _
      from rfl)).2.2.2.2

/-- The casts keep the value of the count and of every index, the square of every id
that is squared fits in an `int`, and in every run the counter can be incremented and
its final test says whether a task has failed. -/
structure TaskPathExact (taskCount : Int32) : Prop where
  shape_eq : ((shape taskCount).toNat : Int) = max taskCount.toInt 0
  id_eq : ∀ idx, idx < shape taskCount → (toId idx).toInt = idx.toNat
  square : ∀ idx, idx < shape taskCount → fails idx = false →
    Fits ((toId idx).toInt * (toId idx).toInt)
  counter : ∀ (H : Nat) (queues : Fin H → List UInt64) (schedule : List (Fin H))
    (s : Crew (Fin H) Worker Shared), Distributes (shape taskCount) queues →
    run (pick taskStep) (start queues) schedule = some s →
    Fits (s.shared.failureCount.toInt + 1)
  test : ∀ (H : Nat) (queues : Fin H → List UInt64) (schedule : List (Fin H))
    (s : Crew (Fin H) Worker Shared), Distributes (shape taskCount) queues →
    run (pick taskStep) (start queues) schedule = some s → Done s →
    (s.shared.failureCount > 0 ↔ ∃ idx, idx < shape taskCount ∧ fails idx = true)

/-- No negative count has the shape 0. -/
theorem shape_ne_zero {taskCount : Int32} (h : taskCount.toInt < 0) :
    (shape taskCount).toNat ≠ 0 := by
  intro h0
  have hz : shape taskCount = 0 := UInt64.toNat_inj.mp h0
  have h64 : taskCount.toInt64 = 0 := by
    rw [← Int64.toInt64_toUInt64 taskCount.toInt64]
    exact congrArg UInt64.toInt64 hz
  have := congrArg Int64.toInt h64
  rw [Int32.toInt_toInt64] at this
  change taskCount.toInt = 0 at this
  omega

section Range

variable {taskCount : Int32}

theorem lt_shape_iff (h0 : 0 ≤ taskCount.toInt) (idx : UInt64) :
    idx < shape taskCount ↔ (idx.toNat : Int) < taskCount.toInt := by
  rw [UInt64.lt_iff_toNat_lt, shape_toNat h0]
  omega

theorem id_exact (h0 : 0 ≤ taskCount.toInt) {idx : UInt64} (h : idx < shape taskCount) :
    (toId idx).toInt = idx.toNat := by
  have := taskCount.toInt_lt
  rw [lt_shape_iff h0] at h
  exact toId_toInt (by omega)

/-- 46341 is odd, so up to 46342 tasks the largest id squared is 46340. -/
theorem square_fits (h0 : 0 ≤ taskCount.toInt) (hle : taskCount.toInt ≤ 46342) {idx : UInt64}
    (h : idx < shape taskCount) (hok : fails idx = false) :
    Fits ((toId idx).toInt * (toId idx).toInt) := by
  have heven : ¬ (toId idx).toInt % 2 ≠ 0 := by
    rw [← fails_iff, hok]
    decide
  rw [id_exact h0 h] at heven ⊢
  rw [lt_shape_iff h0] at h
  have hsq : idx.toNat * idx.toNat ≤ 46340 * 46340 := Nat.mul_le_mul (by omega) (by omega)
  rw [← Int.natCast_mul, fits_iff]
  omega

/-- The first even id whose square does not fit. -/
theorem square_overflows : ¬ Fits ((toId 46342).toInt * (toId 46342).toInt) := by decide

end Range

/-- The conversions are exact from 0 to 46342 tasks: below, the shape is already wrong,
and above, 46342 is squared. -/
theorem task_path_exact_iff (taskCount : Int32) :
    TaskPathExact taskCount ↔ 0 ≤ taskCount.toInt ∧ taskCount.toInt ≤ 46342 := by
  constructor
  · intro h
    have h0 : 0 ≤ taskCount.toInt := by
      by_contra hneg
      have := h.shape_eq
      have := shape_ne_zero (Int.not_le.mp hneg)
      omega
    refine ⟨h0, ?_⟩
    by_contra hbig
    have hlt : 46342 < shape taskCount := (lt_shape_iff h0 46342).mpr (Int.not_le.mp hbig)
    exact square_overflows (h.square 46342 hlt (by decide))
  · rintro ⟨h0, hle⟩
    constructor
    · rw [shape_toNat h0]
      omega
    · exact fun idx => id_exact h0
    · exact fun idx => square_fits h0 hle
    · intro H queues schedule s hd h
      exact counter_fits h0 hd h
    · intro H queues schedule s hd h hdone
      rw [failureCount_pos_iff, counted_done h0 hd h hdone]
      constructor
      · intro hpos
        have hlt : 1 < shape taskCount := by
          rw [lt_shape_iff h0]
          change 1 < taskCount.toInt
          omega
        exact ⟨1, hlt, by decide⟩
      · rintro ⟨idx, hidx, hf⟩
        rw [fails_iff, id_exact h0 hidx] at hf
        rw [lt_shape_iff h0] at hidx
        omega

/-- One task fewer than none, and one more than the bound. -/
theorem task_path_not_exact : ¬ TaskPathExact (-1) ∧ ¬ TaskPathExact 46343 := by
  constructor
  · intro h
    exact absurd h.shape_eq (by decide)
  · intro h
    exact square_overflows (h.square 46342 (by decide) (by decide))

end TaskPath
