import Mathlib.Algebra.BigOperators.Fin
import Mathlib.Algebra.BigOperators.Ring.Finset
import Mathlib.Algebra.Order.Group.Int
import KeyLeak.Lib.CInt
import KeyLeak.Lib.Workers

/-!
# The tasks of `run_plugin`

`run_plugin` hands the indices below `task_count` to a thread pool. Each task calls
`do_work` inside a `noexcept` body with two catch clauses and counts its failure in
one shared counter. The pool and its scheduler are other people's code: which thread
gets which indices, and how the threads interleave, is left open.
-/
namespace RunPlugin

open Runs Workers

/-- A thrown object: one derived from `std::exception`, with its `what()`, or another. -/
inductive Thrown where
  | stdException (what : String)
  | other
  deriving DecidableEq, Repr

/-- The product wraps where C++ leaves it undefined. -/
def doWork (id : Int32) : Except Thrown Int32 :=
  if id % 2 ≠ 0 then
    .error (.stdException ("task " ++ toString id ++ " failed intentionally"))
  else
    .ok (id * id)

/-- `static_cast<std::size_t>(task_count)` -/
def shape (taskCount : Int32) : UInt64 := taskCount.toInt64.toUInt64

/-- `static_cast<int>(idx)` -/
def toId (idx : UInt64) : Int32 := idx.toUInt32.toInt32

inductive CatchClause where
  /-- `catch (const std::exception& ex)` -/
  | stdException
  /-- `catch (...)` -/
  | any
  deriving DecidableEq, Repr

def CatchClause.catches : CatchClause → Thrown → Bool
  | .stdException, .stdException _ => true
  | .stdException, .other => false
  | .any, _ => true

/-- In the order in which they are tried. -/
def catchClauses : List CatchClause := [.stdException, .any]

/-- Where a pool thread is. -/
inductive Phase where
  | idle
  /-- Inside the `try` block. -/
  | calling (idx : UInt64)
  /-- At the head of a catch clause, before `++failure_count`. -/
  | caught (idx : UInt64) (clause : CatchClause) (ex : Thrown)
  /-- Before `fprintf`. -/
  | printing (idx : UInt64) (what : String)
  /-- An exception has left the `noexcept` body. -/
  | terminated
  deriving DecidableEq, Repr

structure Worker where
  phase : Phase
  queue : List UInt64
  deriving DecidableEq, Repr

structure Shared where
  failureCount : Int32
  stderr : List String
  deriving DecidableEq, Repr

def caughtText (idx : UInt64) (what : String) : String :=
  "[plugin] caught in task " ++ toString idx ++ ": " ++ what ++ "\n"

/-- One atomic step of a pool thread. -/
def taskStep (w : Worker) (g : Shared) : Option (Worker × Shared) :=
  match w.phase with
  | .idle =>
    match w.queue with
    | [] => none
    | idx :: queue => some (⟨.calling idx, queue⟩, g)
  | .calling idx =>
    match doWork (toId idx) with
    | .ok _ => some ({ w with phase := .idle }, g)
    | .error ex =>
      match catchClauses.find? (fun clause => clause.catches ex) with
      | some clause => some ({ w with phase := .caught idx clause ex }, g)
      | none => some ({ w with phase := .terminated }, g)
  | .caught idx clause ex =>
    let phase := match clause, ex with
      | .stdException, .stdException what => .printing idx what
      | _, _ => .idle
    some ({ w with phase := phase }, { g with failureCount := g.failureCount + 1 })
  | .printing idx what =>
    some ({ w with phase := .idle }, { g with stderr := g.stderr ++ [caughtText idx what] })
  | .terminated => none

/-- The indices that `bulk` calls its function on, each once. -/
def indices (n : UInt64) : List UInt64 := (List.range n.toNat).map UInt64.ofNat

/-- The queues of the pool threads deal out the indices, each to one place. -/
def Distributes {H : Nat} (n : UInt64) (queues : Fin H → List UInt64) : Prop :=
  (List.ofFn queues).flatten.Perm (indices n)

instance {H : Nat} (n : UInt64) (queues : Fin H → List UInt64) : Decidable (Distributes n queues) :=
  inferInstanceAs (Decidable (List.Perm _ _))

def start {H : Nat} (queues : Fin H → List UInt64) : Crew (Fin H) Worker Shared :=
  ⟨fun i => ⟨.idle, queues i⟩, ⟨0, []⟩⟩

/-- Every call has returned; this is when `sync_wait` does. -/
def Done {H : Nat} (s : Crew (Fin H) Worker Shared) : Prop := ∀ i, s.thread i = ⟨.idle, []⟩

/-- The value of `run_plugin`; `infrastructure` is what a `std::exception` out of the
pool or the pipeline says. -/
def returnValue (infrastructure : Option String) (g : Shared) : Int32 :=
  match infrastructure with
  | some _ => 2
  | none => if g.failureCount > 0 then 1 else 0

/-- `do_work` throws on this index. -/
def fails (idx : UInt64) : Bool :=
  match doWork (toId idx) with
  | .ok _ => false
  | .error _ => true

/-- The failures a thread has still to count. -/
def Worker.pending (w : Worker) : Nat :=
  w.queue.countP fails + match w.phase with
    | .calling idx => if fails idx then 1 else 0
    | .caught .. => 1
    | _ => 0

/-- The steps a thread has still to make, at most. -/
def Worker.work (w : Worker) : Nat :=
  4 * w.queue.length + match w.phase with
    | .calling _ => 3
    | .caught .. => 2
    | .printing .. => 1
    | _ => 0

/-- All a step of a task can do: a failure is counted by one increment, no exception
goes uncaught, and the work grows less. -/
structure Stepped (w : Worker) (g : Shared) (w' : Worker) (g' : Shared) : Prop where
  counted : (g'.failureCount = g.failureCount ∧ w'.pending = w.pending) ∨
    (g'.failureCount = g.failureCount + 1 ∧ w'.pending + 1 = w.pending)
  caught : w'.phase ≠ .terminated
  less : w'.work < w.work

/-- The second catch clause takes what the first leaves. -/
theorem catchClauses_total (ex : Thrown) :
    ∃ clause, catchClauses.find? (fun clause => clause.catches ex) = some clause := by
  cases ex with
  | stdException what => exact ⟨.stdException, rfl⟩
  | other => exact ⟨.any, rfl⟩

theorem taskStep_spec {w w' : Worker} {g g' : Shared} (h : taskStep w g = some (w', g')) :
    Stepped w g w' g' := by
  obtain ⟨phase, queue⟩ := w
  cases phase with
  | idle =>
    cases queue with
    | nil => cases h
    | cons idx queue =>
      cases h
      refine ⟨.inl ⟨rfl, ?_⟩, by simp, ?_⟩
      · simp [Worker.pending, List.countP_cons]
      · simp only [Worker.work, List.length_cons]
        omega
  | calling idx =>
    simp only [taskStep] at h
    cases hw : doWork (toId idx) with
    | ok x =>
      rw [hw] at h
      cases h
      exact ⟨.inl ⟨rfl, by simp [Worker.pending, fails, hw]⟩, by simp, by simp [Worker.work]⟩
    | error ex =>
      obtain ⟨clause, hc⟩ := catchClauses_total ex
      simp only [hw, hc] at h
      cases h
      exact ⟨.inl ⟨rfl, by simp [Worker.pending, fails, hw]⟩, by simp, by simp [Worker.work]⟩
  | caught idx clause ex =>
    cases clause <;> cases ex <;> cases h <;>
      exact ⟨.inr ⟨rfl, by simp [Worker.pending]⟩, by simp, by simp [Worker.work]⟩
  | printing idx what =>
    cases h
    exact ⟨.inl ⟨rfl, by simp [Worker.pending]⟩, by simp, by simp [Worker.work]⟩
  | terminated => cases h

/-- A thread with nothing left to do has finished all its calls, unless it has been
terminated. -/
theorem taskStep_none {w : Worker} {g : Shared} (h : taskStep w g = none)
    (ht : w.phase ≠ .terminated) : w = ⟨.idle, []⟩ := by
  obtain ⟨phase, queue⟩ := w
  cases phase with
  | idle =>
    cases queue with
    | nil => rfl
    | cons idx queue => cases h
  | calling idx =>
    simp only [taskStep] at h
    cases hw : doWork (toId idx) with
    | ok x => simp [hw] at h
    | error ex =>
      obtain ⟨clause, hc⟩ := catchClauses_total ex
      simp [hw, hc] at h
  | caught idx clause ex => cases h
  | printing idx what => cases h
  | terminated => exact absurd rfl ht

section Runs

variable {H : Nat} {n : UInt64} {queues : Fin H → List UInt64} {schedule : List (Fin H)}
  {s : Crew (Fin H) Worker Shared}

theorem run_caught (h : run (pick taskStep) (start queues) schedule = some s) (i : Fin H) :
    (s.thread i).phase ≠ .terminated :=
  run_threads (I := fun w => w.phase ≠ .terminated)
    (fun _ _ _ _ _ hb => (taskStep_spec hb).caught) h (fun _ => by simp [start]) i

/-- What a distribution deals out in total does not depend on who gets what. -/
theorem Distributes.sum_eq (hd : Distributes n queues) :
    ∑ i, (queues i).countP fails = (indices n).countP fails := by
  rw [← hd.countP_eq, List.countP_flatten, List.map_ofFn, List.sum_ofFn]
  rfl

theorem Distributes.length_eq (hd : Distributes n queues) :
    ∑ i, (queues i).length = n.toNat := by
  have := List.Perm.length_eq hd
  rw [List.length_flatten, List.map_ofFn, List.sum_ofFn] at this
  simpa [indices] using this

/-- As long as all failures together fit in an `int`, no increment is lost and none
wraps: the counter and the failures still to be counted make up all failures. -/
theorem run_counts (hd : Distributes n queues) (hfit : (indices n).countP fails ≤ 2147483647)
    (h : run (pick taskStep) (start queues) schedule = some s) :
    s.shared.failureCount.toInt + ∑ i, ((s.thread i).pending : Int) =
      (indices n).countP fails := by
  have htotal : (start queues).shared.failureCount.toInt +
      ∑ i, (((start queues).thread i).pending : Int) = (indices n).countP fails := by
    rw [← hd.sum_eq]
    simp [start, Worker.pending]
  have hbound : (start queues).shared.failureCount.toInt +
      ∑ i, (((start queues).thread i).pending : Int) ≤ CInt.INT_MAX := by
    rw [htotal]
    unfold CInt.INT_MAX
    omega
  rw [← htotal]
  refine run_conserves (v := fun g => g.failureCount.toInt) (w := fun w => (w.pending : Int))
    (fun w => Int.natCast_nonneg _) ?_ h hbound
  intro w g w' g' hb hle
  have hone : (1 : Int32).toInt = 1 := rfl
  rcases (taskStep_spec hb).counted with ⟨hc, hp⟩ | ⟨hc, hp⟩
  · rw [hc, hp]
  · have hfits : CInt.Fits (g.failureCount.toInt + (1 : Int32).toInt) := by
      have := g.failureCount.le_toInt
      unfold CInt.INT_MAX at hle
      rw [hone, CInt.fits_iff]
      omega
    rw [hc, CInt.toInt_add hfits, hone]
    omega

theorem run_length (hd : Distributes n queues)
    (h : run (pick taskStep) (start queues) schedule = some s) :
    schedule.length ≤ 4 * n.toNat := by
  have hle := run_length_le (m := Worker.work) (fun _ _ _ _ hb => (taskStep_spec hb).less) h
  have hsum : ∑ i, ((start queues).thread i).work = 4 * n.toNat := by
    rw [← hd.length_eq, Finset.mul_sum]
    rfl
  omega

/-- Every run can be continued until all calls have returned. -/
theorem run_completes (h : run (pick taskStep) (start queues) schedule = some s) :
    ∃ rest t, run (pick taskStep) s rest = some t ∧ Done t := by
  obtain ⟨rest, t, hrest, hq⟩ := exists_quiescent (m := Worker.work)
    (fun _ _ _ _ hb => (taskStep_spec hb).less) s
  refine ⟨rest, t, hrest, fun i => taskStep_none (hq i) ?_⟩
  have hwhole : run (pick taskStep) (start queues) (schedule ++ rest) = some t := by
    rw [run_append, h]
    exact hrest
  exact run_caught hwhole i

end Runs

end RunPlugin
