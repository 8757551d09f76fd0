import Mathlib.Algebra.BigOperators.Pi
import Mathlib.Algebra.Order.Monoid.Prod
import KeyLeak.EvenShare

/-!
# The completion of a bulk operation

Every agent of a bulk operation calls the function on its share, stores an exception
if it is the first to have one, and counts itself finished; the one that brings the
count to the number of agents completes the receiver. The agents interleave as they like.

The model starts after `enqueue()` in `set_value` of `bulk_receiver`: the values have been stored,
and the shape is not zero. If storing them throws, `set_value` sends the error and goes on to
`enqueue()` all the same; with the shape zero it completes the receiver itself. Both are left out.
-/
namespace BulkState

open Runs Workers RunPlugin EvenShare

variable {Ex : Type}

/-- What the receiver of the operation is told. -/
inductive Completion (Ex : Type) where
  | setValue
  | setError (ex : Ex)
  deriving DecidableEq, Repr

/-- Where the execution of a `bulk_task` is. -/
inductive Phase (Ex : Type) where
  | enqueued
  /-- In `computation`, with the calls for `[next, last)` to come. -/
  | computing (next last : UInt64)
  /-- In the catch clause, before `compare_exchange_strong`. -/
  | caught (ex : Ex)
  /-- The exchange has succeeded; before `exception_` is assigned. -/
  | claimed (ex : Ex)
  /-- Before `finished_threads_.fetch_add(1)`. -/
  | finishing
  /-- `is_last_thread` -/
  | last
  | returned
  deriving DecidableEq, Repr

/-- An agent, with the calls it has made. -/
structure Agent (Ex : Type) (total : UInt32) where
  tid : Fin total.toNat
  phase : Phase Ex
  called : List UInt64
  deriving DecidableEq, Repr

structure Shared (Ex : Type) where
  finishedThreads : UInt32
  threadWithException : UInt32
  exception : Option Ex
  completions : List (Completion Ex)
  deriving DecidableEq, Repr

variable (f : UInt64 → Option Ex) (n : UInt64) {total : UInt32}

/-- The `tid` that `run` passes on. -/
def Agent.rank (a : Agent Ex total) : UInt32 := UInt32.ofNat a.tid

/-- What the last agent sends. -/
def Shared.completion (g : Shared Ex) : Completion Ex :=
  match g.exception with
  | some ex => .setError ex
  | none => .setValue

/-- One atomic step of an agent; `f` says what the function throws on an index. -/
def taskStep (a : Agent Ex total) (g : Shared Ex) : Option (Agent Ex total × Shared Ex) :=
  match a.phase with
  | .enqueued =>
    let range := evenShare n a.rank.toUInt64 total.toUInt64
    some ({ a with phase := .computing range.1 range.2 }, g)
  | .computing next last =>
    if next = last then
      some ({ a with phase := .finishing }, g)
    else
      match f next with
      | none => some ({ a with phase := .computing (next + 1) last, called := a.called ++ [next] }, g)
      | some ex => some ({ a with phase := .caught ex, called := a.called ++ [next] }, g)
  | .caught ex =>
    if g.threadWithException = total then
      some ({ a with phase := .claimed ex }, { g with threadWithException := a.rank })
    else
      some ({ a with phase := .finishing }, g)
  | .claimed ex => some ({ a with phase := .finishing }, { g with exception := some ex })
  | .finishing =>
    let phase := if g.finishedThreads = total - 1 then .last else .returned
    some ({ a with phase := phase }, { g with finishedThreads := g.finishedThreads + 1 })
  | .last =>
    some ({ a with phase := .returned }, { g with completions := g.completions ++ [g.completion] })
  | .returned => none

/-- `bulk_enqueue` has queued one task for each agent. -/
def start (Ex : Type) (total : UInt32) : Crew (Fin total.toNat) (Agent Ex total) (Shared Ex) :=
  ⟨fun i => ⟨i, .enqueued, []⟩, ⟨0, total, none, []⟩⟩

/-- The calls made for a range: up to the first that throws. -/
def callsOf : List UInt64 → List UInt64
  | [] => []
  | i :: is => i :: match f i with
    | none => callsOf is
    | some _ => []

/-- The calls an agent has still to make. -/
def Agent.toCall (a : Agent Ex total) : List UInt64 :=
  match a.phase with
  | .enqueued => callsOf f (share n a.rank.toUInt64 total.toUInt64)
  | .computing next last => callsOf f (chunk next last)
  | _ => []

/-- What counts an agent that has not counted itself finished, one about to store its
exception, and one about to complete the receiver. -/
def Agent.owes (a : Agent Ex total) : Nat × Nat × Nat :=
  match a.phase with
  | .claimed _ => (1, 1, 0)
  | .last => (0, 0, 1)
  | .returned => (0, 0, 0)
  | _ => (1, 0, 0)

/-- The same in the shared state: the agents counted, the exception stored or not yet
claimed, and the completion sent or not yet due. -/
def Shared.has (total : UInt32) (g : Shared Ex) : Nat × Nat × Nat :=
  (g.finishedThreads.toNat,
    g.exception.toList.length + if g.threadWithException = total then 1 else 0,
    g.completions.length + if g.finishedThreads = total then 0 else 1)

/-- The steps an agent has still to make, at most. -/
def Agent.work (a : Agent Ex total) : Nat :=
  match a.phase with
  | .enqueued =>
    let range := evenShare n a.rank.toUInt64 total.toUInt64
    (range.2 - range.1).toNat + 6
  | .computing next last => (last - next).toNat + 5
  | .caught _ => 4
  | .claimed _ => 3
  | .finishing => 2
  | .last => 1
  | .returned => 0

variable {f n}

/-- One call nearer to the end, in the arithmetic of `std::size_t`. -/
theorem sub_succ {next last : UInt64} (h : next ≠ last) :
    (last - (next + 1)).toNat + 1 = (last - next).toNat := by
  have hsub : last - (next + 1) = last - next - 1 := by grind
  have hne : last - next ≠ 0 := by grind
  have hone : 1 ≤ last - next := by
    rw [UInt64.le_iff_toNat_le]
    exact Nat.one_le_iff_ne_zero.mpr (fun h0 => hne (UInt64.toNat_inj.mp h0))
  rw [hsub, UInt64.toNat_sub_of_le _ _ hone]
  exact Nat.sub_add_cancel (UInt64.le_iff_toNat_le.mp hone)

theorem taskStep_less {a a' : Agent Ex total} {g g' : Shared Ex}
    (h : taskStep f n a g = some (a', g')) : a'.work n < a.work n := by
  obtain ⟨tid, phase, called⟩ := a
  cases phase with
  | enqueued =>
    cases h
    exact Nat.lt_succ_self _
  | computing next last =>
    simp only [taskStep] at h
    split at h
    · cases h
      simp only [Agent.work]
      omega
    next hne =>
      have := sub_succ hne
      split at h <;> cases h <;> simp only [Agent.work] <;> omega
  | caught ex =>
    simp only [taskStep] at h
    split at h <;> cases h <;> simp [Agent.work]
  | claimed ex =>
    cases h
    simp [Agent.work]
  | finishing =>
    simp only [taskStep] at h
    split at h <;> cases h <;> simp [Agent.work]
  | last =>
    cases h
    simp [Agent.work]
  | returned => cases h

theorem rank_toNat (a : Agent Ex total) : a.rank.toNat = a.tid :=
  UInt32.toNat_ofNat_of_lt' (a.tid.isLt.trans total.toNat_lt)

theorem rank_ne (a : Agent Ex total) : a.rank ≠ total := by
  intro h
  have := rank_toNat a
  have := a.tid.isLt
  rw [h] at *
  omega

/-- What the agents owe and what the shared state has make up the same sum in every
step, as long as the agents counted do not exceed those there are. -/
theorem taskStep_conserves {a a' : Agent Ex total} {g g' : Shared Ex}
    (h : taskStep f n a g = some (a', g')) (hle : g.has total + a.owes ≤ (total.toNat, 1, 1)) :
    g'.has total + a'.owes = g.has total + a.owes := by
  obtain ⟨tid, phase, called⟩ := a
  cases phase with
  | enqueued =>
    cases h
    rfl
  | computing next last =>
    simp only [taskStep] at h
    split at h
    · cases h
      rfl
    · split at h <;> cases h <;> rfl
  | caught ex =>
    simp only [taskStep] at h
    split at h <;> cases h
    next htwe =>
      simp only [Shared.has, Agent.owes, htwe, if_pos, if_neg (rank_ne _), Prod.mk_add_mk, add_zero]
    next => rfl
  | claimed ex =>
    cases h
    have hnone : g.exception = none := by
      cases hg : g.exception with
      | none => rfl
      | some ex' => simp [Shared.has, Agent.owes, hg, Prod.mk_le_mk] at hle
    simp only [Shared.has, Agent.owes, hnone, Prod.mk_add_mk, Option.toList, List.length_cons,
      List.length_nil, Prod.mk.injEq, true_and, and_true]
    omega
  | finishing =>
    have hlt : g.finishedThreads.toNat < total.toNat := by
      simp only [Shared.has, Agent.owes, Prod.mk_add_mk, Prod.mk_le_mk] at hle
      omega
    have hsucc : (g.finishedThreads + 1).toNat = g.finishedThreads.toNat + 1 := by
      have := total.toNat_lt
      rw [UInt32.toNat_add]
      exact Nat.mod_eq_of_lt (by simp; omega)
    have hne : g.finishedThreads ≠ total := by
      rintro rfl
      exact Nat.lt_irrefl _ hlt
    simp only [taskStep] at h
    split at h <;> cases h
    next hlast =>
      have hall : g.finishedThreads + 1 = total := by grind
      rw [hall] at hsucc
      simp [Shared.has, Agent.owes, hsucc, hall, hne]
    next hlast =>
      have hall : g.finishedThreads + 1 ≠ total := by grind
      simp [Shared.has, Agent.owes, hsucc, hall, hne]
  | last =>
    cases h
    simp only [Shared.has, Agent.owes, Prod.mk_add_mk, List.length_append, List.length_singleton,
      Prod.mk.injEq, true_and]
    omega
  | returned => cases h

theorem callsOf_initial (is : List UInt64) : callsOf f is <+: is := by
  induction is with
  | nil => exact List.prefix_rfl
  | cons i is ih =>
    rw [callsOf, List.prefix_cons_inj]
    cases f i with
    | none => exact ih
    | some ex => exact List.nil_prefix

/-- If none of the calls made throws, all calls are made. -/
theorem callsOf_eq {is : List UInt64} (h : ∀ i ∈ callsOf f is, f i = none) : callsOf f is = is := by
  induction is with
  | nil => rfl
  | cons i is ih =>
    have hi : f i = none := h i (by simp [callsOf])
    simp only [callsOf, hi, List.mem_cons, forall_eq_or_imp] at h ⊢
    rw [ih h.2]

/-- What an agent knows of itself and of the shared state. -/
structure Knows (f : UInt64 → Option Ex) (n : UInt64) (i : Fin total.toNat) (a : Agent Ex total)
    (g : Shared Ex) : Prop where
  tid : a.tid = i
  range : ∀ next last, a.phase = .computing next last → next ≤ last
  calls : a.called ++ a.toCall f n = callsOf f (share n (UInt64.ofNat i) total.toUInt64)
  raised : ∀ ex, a.phase = .caught ex ∨ a.phase = .claimed ex → ∃ idx ∈ a.called, f idx = some ex
  thrown : ∀ idx ∈ a.called, f idx ≠ none →
    (∃ ex, a.phase = .caught ex) ∨ g.threadWithException ≠ total

/-- What the agents leave to each other. -/
def Keeps (total : UInt32) (g g' : Shared Ex) : Prop :=
  g.threadWithException ≠ total → g'.threadWithException ≠ total

theorem Knows.stable {i : Fin total.toNat} {a : Agent Ex total} {g g' : Shared Ex}
    (h : Knows f n i a g) (hk : Keeps total g g') : Knows f n i a g' where
  tid := h.tid
  range := h.range
  calls := h.calls
  raised := h.raised
  thrown idx hidx hf := (h.thrown idx hidx hf).imp_right hk

theorem rank_toUInt64 (a : Agent Ex total) : a.rank.toUInt64 = UInt64.ofNat a.tid := by
  have hlt : (a.tid : Nat) < UInt64.size :=
    a.tid.isLt.trans (total.toNat_lt.trans (by decide))
  rw [← UInt64.toNat_inj, UInt32.toNat_toUInt64, rank_toNat, UInt64.toNat_ofNat_of_lt' hlt]

theorem rank_lt (a : Agent Ex total) : a.rank.toUInt64 < total.toUInt64 := by
  rw [UInt64.lt_iff_toNat_lt, UInt32.toNat_toUInt64, UInt32.toNat_toUInt64, rank_toNat]
  exact a.tid.isLt

theorem taskStep_knows {i : Fin total.toNat} {a a' : Agent Ex total} {g g' : Shared Ex}
    (h : Knows f n i a g) (hstep : taskStep f n a g = some (a', g')) :
    Knows f n i a' g' ∧ Keeps total g g' := by
  obtain ⟨tid, phase, called⟩ := a
  obtain ⟨rfl, range, calls, raised, thrown⟩ := h
  cases phase with
  | enqueued =>
    cases hstep
    refine ⟨⟨rfl, ?_, ?_, by simp, by simpa using thrown⟩, id⟩
    · rintro _ _ ⟨⟩
      exact evenShare_le (rank_lt _)
    · exact calls
  | computing next last =>
    have hle := range next last rfl
    simp only [taskStep] at hstep
    split at hstep
    next heq =>
      subst heq
      cases hstep
      refine ⟨⟨rfl, by simp, ?_, by simp, by simpa using thrown⟩, id⟩
      simpa [Agent.toCall, callsOf] using calls
    next hne =>
      have hlt : next < last := UInt64.lt_of_le_of_ne hle hne
      have hcons := chunk_cons hlt
      split at hstep
      next hf =>
        cases hstep
        refine ⟨⟨rfl, ?_, ?_, by simp, ?_⟩, id⟩
        · rintro _ _ ⟨⟩
          exact succ_le hlt
        · simpa [Agent.toCall, hcons, callsOf, hf] using calls
        · intro idx hidx hthrow
          rcases List.mem_append.mp hidx with hidx | hidx
          · simpa using thrown idx hidx hthrow
          · exact absurd hf (List.mem_singleton.mp hidx ▸ hthrow)
      next ex hf =>
        cases hstep
        refine ⟨⟨rfl, by simp, ?_, ?_, by simp⟩, id⟩
        · simpa [Agent.toCall, hcons, callsOf, hf] using calls
        · rintro _ (⟨⟨⟩⟩ | ⟨⟨⟩⟩)
          exact ⟨next, by simp, hf⟩
  | caught ex =>
    obtain ⟨idx, hidx, hf⟩ := raised ex (.inl rfl)
    simp only [taskStep] at hstep
    split at hstep <;> cases hstep
    next htwe =>
      refine ⟨⟨rfl, by simp, calls, ?_, fun _ _ _ => .inr (rank_ne _)⟩, fun _ => rank_ne _⟩
      simpa using ⟨idx, hidx, hf⟩
    next htwe => exact ⟨⟨rfl, by simp, calls, by simp, fun _ _ _ => .inr htwe⟩, id⟩
  | claimed ex =>
    cases hstep
    exact ⟨⟨rfl, by simp, calls, by simp, by simpa using thrown⟩, id⟩
  | finishing =>
    simp only [taskStep] at hstep
    split at hstep <;> cases hstep <;>
      exact ⟨⟨rfl, by simp, calls, by simp, by simpa using thrown⟩, id⟩
  | last =>
    cases hstep
    exact ⟨⟨rfl, by simp, calls, by simp, by simpa using thrown⟩, id⟩
  | returned => cases hstep

/-- An agent forgets no call, and the exception it stores is the one it has claimed. -/
theorem taskStep_stores {a a' : Agent Ex total} {g g' : Shared Ex}
    (h : taskStep f n a g = some (a', g')) : a.called <+: a'.called ∧
      (g'.exception = g.exception ∨ ∃ ex, a.phase = .claimed ex ∧ g'.exception = some ex) := by
  obtain ⟨tid, phase, called⟩ := a
  cases phase with
  | claimed ex =>
    cases h
    exact ⟨List.prefix_rfl, .inr ⟨ex, rfl, rfl⟩⟩
  | enqueued | last =>
    cases h
    exact ⟨List.prefix_rfl, .inl rfl⟩
  | computing next last =>
    simp only [taskStep] at h
    split at h
    · cases h
      exact ⟨List.prefix_rfl, .inl rfl⟩
    · split at h <;> cases h <;> exact ⟨List.prefix_append _ _, .inl rfl⟩
  | caught ex | finishing =>
    simp only [taskStep] at h
    split at h <;> cases h <;> exact ⟨List.prefix_rfl, .inl rfl⟩
  | returned => cases h

/-- All calls that have been made, agent after agent. -/
def calls (s : Crew (Fin total.toNat) (Agent Ex total) (Shared Ex)) : List UInt64 :=
  (List.ofFn fun i => (s.thread i).called).flatten

/-- What the receiver is told fits the calls that have been made: all of them without an
exception, or one that has thrown just this exception. -/
def Right (f : UInt64 → Option Ex) (n : UInt64) (called : List UInt64) : Completion Ex → Prop
  | .setValue => called = indices n ∧ ∀ idx ∈ called, f idx = none
  | .setError ex => ∃ idx ∈ called, f idx = some ex

/-- Only the last agent completes the receiver. -/
theorem taskStep_completions {a a' : Agent Ex total} {g g' : Shared Ex}
    (h : taskStep f n a g = some (a', g')) : g'.completions = g.completions ∨
    a.phase = .last ∧ a'.called = a.called ∧ g'.completions = g.completions ++ [g.completion] := by
  obtain ⟨tid, phase, called⟩ := a
  cases phase with
  | last =>
    cases h
    exact .inr ⟨rfl, rfl, rfl⟩
  | enqueued | claimed ex =>
    cases h
    exact .inl rfl
  | computing next last =>
    simp only [taskStep] at h
    split at h
    · cases h
      exact .inl rfl
    · split at h <;> cases h <;> exact .inl rfl
  | caught ex | finishing =>
    simp only [taskStep] at h
    split at h <;> cases h <;> exact .inl rfl
  | returned => cases h

section Runs

variable {schedule : List (Fin total.toNat)} {s : Crew (Fin total.toNat) (Agent Ex total) (Shared Ex)}

theorem run_knows (h : run (pick (taskStep f n)) (start Ex total) schedule = some s)
    (i : Fin total.toNat) :
    Knows f n i (s.thread i) s.shared := by
  refine run_rely (I := fun i => Knows f n i) (R := Keeps total)
    (fun _ _ _ _ _ => taskStep_knows) (fun _ _ _ _ => Knows.stable) h ?_ i
  intro i
  refine ⟨rfl, by simp [start], ?_, by simp [start], by simp [start]⟩
  exact congrArg (fun r => callsOf f (share n r total.toUInt64)) (rank_toUInt64 _)

theorem start_owes (hpos : 0 < total) :
    (start Ex total).shared.has total + ∑ i, ((start Ex total).thread i).owes =
      (total.toNat, 1, 1) := by
  have hne : (0 : UInt32) ≠ total := by
    rintro rfl
    exact absurd hpos (by decide)
  simp [start, Shared.has, Agent.owes, hne]

theorem run_owes (hpos : 0 < total)
    (h : run (pick (taskStep f n)) (start Ex total) schedule = some s) :
    s.shared.has total + ∑ i, (s.thread i).owes = (total.toNat, 1, 1) := by
  have hstart : (start Ex total).shared.has total + ∑ i, ((start Ex total).thread i).owes =
      (total.toNat, 1, 1) := start_owes hpos
  rw [← hstart]
  exact run_conserves (v := Shared.has total) (w := Agent.owes) (fun _ => by simp)
    (fun _ _ _ _ => taskStep_conserves) h hstart.le

/-- The three sums, one by one. -/
theorem run_sums (hpos : 0 < total)
    (h : run (pick (taskStep f n)) (start Ex total) schedule = some s) :
    s.shared.finishedThreads.toNat + ∑ i, (s.thread i).owes.1 = total.toNat ∧
    (s.shared.exception.toList.length + if s.shared.threadWithException = total then 1 else 0) +
      ∑ i, (s.thread i).owes.2.1 = 1 ∧
    (s.shared.completions.length + if s.shared.finishedThreads = total then 0 else 1) +
      ∑ i, (s.thread i).owes.2.2 = 1 := by
  have howes := run_owes hpos h
  simpa [Shared.has, Prod.ext_iff, Prod.fst_sum, Prod.snd_sum] using howes

/-- Once the receiver has been told or is about to be, every agent has counted itself. -/
theorem run_settled (hpos : 0 < total)
    (h : run (pick (taskStep f n)) (start Ex total) schedule = some s)
    (hdue : s.shared.completions ≠ [] ∨ ∃ i, (s.thread i).phase = .last) (i : Fin total.toNat) :
    (s.thread i).phase = .last ∨ (s.thread i).phase = .returned := by
  obtain ⟨hcount, -, hdone⟩ := run_sums hpos h
  have hall : s.shared.finishedThreads = total := by
    by_contra hne
    rw [if_neg hne] at hdone
    rcases hdue with hc | ⟨j, hj⟩
    · have := List.length_pos_iff.mpr hc
      omega
    · have hone : (s.thread j).owes.2.2 ≤ ∑ i, (s.thread i).owes.2.2 :=
        Finset.single_le_sum (f := fun i => (s.thread i).owes.2.2) (fun _ _ => Nat.zero_le _)
          (Finset.mem_univ j)
      have howes : (s.thread j).owes = (0, 0, 1) := by simp [Agent.owes, hj]
      rw [howes] at hone
      change 1 ≤ _ at hone
      omega
  have hzero : ∑ i, (s.thread i).owes.1 = 0 := by
    rw [hall] at hcount
    omega
  have hi := Finset.sum_eq_zero_iff.mp hzero i (Finset.mem_univ i)
  revert hi
  cases hp : (s.thread i).phase <;> simp [Agent.owes, hp]

/-- What a settled agent has called. -/
theorem Knows.called_eq {i : Fin total.toNat} {a : Agent Ex total} {g : Shared Ex}
    (h : Knows f n i a g) (hp : a.phase = .last ∨ a.phase = .returned) :
    a.called = callsOf f (share n (UInt64.ofNat i) total.toUInt64) := by
  rw [← h.calls]
  rcases hp with hp | hp <;> simp [Agent.toCall, hp]

/-- When all agents have counted themselves and no exception is stored, none has been thrown. -/
theorem run_quiet (hpos : 0 < total)
    (h : run (pick (taskStep f n)) (start Ex total) schedule = some s)
    (hsettled : ∀ i, (s.thread i).phase = .last ∨ (s.thread i).phase = .returned)
    (hex : s.shared.exception = none) : ∀ idx ∈ indices n, f idx = none := by
  have htwe : s.shared.threadWithException = total := by
    obtain ⟨-, hexc, -⟩ := run_sums hpos h
    have hzero : ∑ i, (s.thread i).owes.2.1 = 0 := by
      refine Finset.sum_eq_zero fun i _ => ?_
      rcases hsettled i with hp | hp <;> simp [Agent.owes, hp]
    by_contra hne
    simp [hex, hne, hzero] at hexc
  intro idx hidx
  have hpos64 : 0 < total.toUInt64.toNat := by
    rw [UInt32.toNat_toUInt64]
    exact UInt32.lt_iff_toNat_lt.mp hpos
  obtain ⟨r, hr, hmem⟩ := exists_share hpos64 hidx
  rw [UInt32.toNat_toUInt64] at hr
  have hknows := run_knows h ⟨r, hr⟩
  have hcalled := hknows.called_eq (hsettled _)
  have hquiet : ∀ i ∈ callsOf f (share n (UInt64.ofNat r) total.toUInt64), f i = none := by
    intro i hi
    by_contra hthrow
    rcases hknows.thrown i (hcalled ▸ hi) hthrow with ⟨ex, hc⟩ | hne
    · rcases hsettled ⟨r, hr⟩ with hp | hp <;> rw [hp] at hc <;> cases hc
    · exact hne htwe
  refine hquiet idx ?_
  rwa [callsOf_eq hquiet]

/-- An agent that cannot move has returned. -/
theorem taskStep_none {a : Agent Ex total} {g : Shared Ex} (h : taskStep f n a g = none) :
    a.phase = .returned := by
  obtain ⟨tid, phase, called⟩ := a
  cases phase with
  | returned => rfl
  | computing next last =>
    simp only [taskStep] at h
    split at h
    · cases h
    · split at h <;> cases h
  | caught ex | finishing =>
    simp only [taskStep] at h
    split at h <;> cases h
  | _ => cases h

theorem flatten_ofFn_sublist {α : Type} {k : Nat} {u v : Fin k → List α}
    (h : ∀ i, (u i).Sublist (v i)) : (List.ofFn u).flatten.Sublist (List.ofFn v).flatten := by
  induction k with
  | zero => simp
  | succ k ih =>
    rw [List.ofFn_succ, List.ofFn_succ, List.flatten_cons, List.flatten_cons]
    exact (h 0).append (ih fun i => h i.succ)

/-- At any time the calls made are some of the indices, in their order and none twice. -/
theorem run_called (hpos : 0 < total)
    (h : run (pick (taskStep f n)) (start Ex total) schedule = some s) :
    (calls s).Sublist (indices n) := by
  rw [← agents_flatten n hpos, calls]
  refine flatten_ofFn_sublist fun i => ?_
  have hcalls := (run_knows h i).calls
  exact (List.prefix_append _ _).sublist.trans (hcalls ▸ (callsOf_initial _).sublist)

theorem run_returned (hpos : 0 < total)
    (h : run (pick (taskStep f n)) (start Ex total) schedule = some s)
    (hc : s.shared.completions ≠ []) (i : Fin total.toNat) : (s.thread i).phase = .returned := by
  refine (run_settled hpos h (.inl hc) i).resolve_left fun hlast => ?_
  obtain ⟨-, -, hdone⟩ := run_sums hpos h
  have hone : (s.thread i).owes.2.2 ≤ ∑ i, (s.thread i).owes.2.2 :=
    Finset.single_le_sum (f := fun i => (s.thread i).owes.2.2) (fun _ _ => Nat.zero_le _)
      (Finset.mem_univ i)
  have howes : (s.thread i).owes = (0, 0, 1) := by simp [Agent.owes, hlast]
  have := List.length_pos_iff.mpr hc
  rw [howes] at hone
  change 1 ≤ _ at hone
  omega

theorem mem_calls {idx : UInt64} : idx ∈ calls s ↔ ∃ i, idx ∈ (s.thread i).called := by
  simp [calls]

/-- The exception stored has been thrown by a call. -/
theorem run_stored (h : run (pick (taskStep f n)) (start Ex total) schedule = some s) {ex : Ex}
    (hex : s.shared.exception = some ex) : ∃ idx ∈ calls s, f idx = some ex := by
  refine run_induction (motive := fun _ u => ∀ {ex}, u.shared.exception = some ex →
    ∃ idx ∈ calls u, f idx = some ex) (by simp [start]) ?_ h hex
  intro es u i v hu ih hv ex hex
  obtain ⟨a, g, hb, rfl⟩ := pick_some hv
  obtain ⟨hcalled, hstored⟩ := taskStep_stores hb
  have hkept : ∀ idx ∈ calls u, idx ∈ calls ⟨Function.update u.thread i a, g⟩ := by
    intro idx hidx
    obtain ⟨j, hj⟩ := mem_calls.mp hidx
    refine mem_calls.mpr ⟨j, ?_⟩
    by_cases hji : j = i
    · subst hji
      simpa using hcalled.subset hj
    · simpa [hji] using hj
  rcases hstored with hsame | ⟨ex', hphase, hnew⟩
  · obtain ⟨idx, hidx, hf⟩ := ih (hsame.symm.trans hex)
    exact ⟨idx, hkept idx hidx, hf⟩
  · obtain rfl : ex' = ex := Option.some.inj (hnew.symm.trans hex)
    obtain ⟨idx, hidx, hf⟩ := (run_knows hu i).raised ex' (.inr hphase)
    exact ⟨idx, hkept idx (mem_calls.mpr ⟨i, hidx⟩), hf⟩

/-- If nothing has been thrown, every agent that has counted itself has made all its calls. -/
theorem calls_eq (hpos : 0 < total)
    (h : run (pick (taskStep f n)) (start Ex total) schedule = some s)
    (hsettled : ∀ i, (s.thread i).phase = .last ∨ (s.thread i).phase = .returned)
    (hquiet : ∀ idx ∈ indices n, f idx = none) : calls s = indices n := by
  rw [← agents_flatten n hpos, calls]
  congr 2
  funext i
  have hi : (i : Nat) < total.toUInt64.toNat := by
    rw [UInt32.toNat_toUInt64]
    exact i.isLt
  rw [(run_knows h i).called_eq (hsettled i)]
  exact callsOf_eq fun idx hidx => hquiet idx (share_subset hi ((callsOf_initial _).subset hidx))

/-- What the receiver has been told is right. -/
theorem run_right (hpos : 0 < total)
    (h : run (pick (taskStep f n)) (start Ex total) schedule = some s) :
    ∀ c ∈ s.shared.completions, Right f n (calls s) c := by
  refine run_induction (motive := fun _ u => ∀ c ∈ u.shared.completions, Right f n (calls u) c)
    (by simp [start]) ?_ h
  intro es u i v hu _ hv
  obtain ⟨a, g, hb, rfl⟩ := pick_some hv
  have hnone : u.shared.completions = [] := by
    by_contra hc
    have hret := run_returned hpos hu hc i
    simp [taskStep, hret] at hb
  rcases taskStep_completions hb with hsame | ⟨hlast, hcalled, hnew⟩
  · simp [hsame, hnone]
  · have hsettled := run_settled hpos hu (.inr ⟨i, hlast⟩)
    have hcalls : calls ⟨Function.update u.thread i a, g⟩ = calls u := by
      rw [calls, calls]
      congr 2
      funext j
      by_cases hj : j = i
      · subst hj
        simpa using hcalled
      · simp [hj]
    have hright : Right f n (calls u) u.shared.completion := by
      cases hex : u.shared.exception with
      | some ex =>
        simp only [Shared.completion, hex]
        exact run_stored hu hex
      | none =>
        have hquiet := run_quiet hpos hu hsettled hex
        have hall := calls_eq hpos hu hsettled hquiet
        simp only [Shared.completion, hex]
        exact ⟨hall, hall ▸ hquiet⟩
    simpa [hcalls, hnew, hnone] using hright

/-- When no agent can move, the receiver has been completed. -/
theorem run_done (hpos : 0 < total)
    (h : run (pick (taskStep f n)) (start Ex total) schedule = some s)
    (hq : Quiescent (taskStep f n) s) : s.shared.completions.length = 1 := by
  have hzero : ∀ i, (s.thread i).owes = (0, 0, 0) := fun i => by
    simp [Agent.owes, taskStep_none (hq i)]
  obtain ⟨hcount, -, hdone⟩ := run_sums hpos h
  simp only [hzero, Finset.sum_const_zero, add_zero] at hcount hdone
  rw [if_pos (UInt32.toNat_inj.mp hcount)] at hdone
  exact hdone

/-- Over every interleaving of the agents the function is called on no index twice; the
receiver is completed at most once, and only after every agent has called the function on its
whole share or up to its first exception; it is told the truth; and every run can be continued
until it has been completed. -/
theorem bulk_completes_once (hpos : 0 < total)
    (h : run (pick (taskStep f n)) (start Ex total) schedule = some s) :
    (calls s).Sublist (indices n) ∧
    s.shared.completions.length ≤ 1 ∧
    (∀ c ∈ s.shared.completions, Right f n (calls s) c ∧
      ∀ i, (s.thread i).phase = .returned ∧ (s.thread i).called =
        callsOf f (share n (UInt64.ofNat i) total.toUInt64)) ∧
    ∃ rest t, run (pick (taskStep f n)) s rest = some t ∧ t.shared.completions.length = 1 := by
  have hright := run_right hpos h
  refine ⟨run_called hpos h, ?_, fun c hc => ⟨hright c hc, fun i => ?_⟩, ?_⟩
  · obtain ⟨-, -, hdone⟩ := run_sums hpos h
    omega
  · have hret := run_returned hpos h (List.ne_nil_of_mem hc) i
    exact ⟨hret, (run_knows h i).called_eq (.inr hret)⟩
  · obtain ⟨rest, t, hrest, hq⟩ := exists_quiescent (m := Agent.work n)
      (fun _ _ _ _ => taskStep_less) s
    have hwhole : run (pick (taskStep f n)) (start Ex total) (schedule ++ rest) = some t := by
      rw [run_append, h]
      exact hrest
    exact ⟨rest, t, hrest, run_done hpos hwhole hq⟩

end Runs

/-- Two agents, of which the first throws on its second index. -/
theorem bulk_completes_once_thrown : ∃ a b s,
    run (pick (taskStep (fun idx => if idx = 1 then some "thrown" else none) 3)) (start String 2)
      [a, b, a, a, b, a, a, a, b, b, b] = some s ∧ s.shared.completions = [.setError "thrown"] ∧
    ∀ c ∈ s.shared.completions,
      Right (fun idx => if idx = 1 then some "thrown" else none) 3 (calls s) c := by
  obtain ⟨a, b, s, hs, hc⟩ : ∃ a b s,
      run (pick (taskStep (fun idx => if idx = 1 then some "thrown" else none) 3)) (start String 2)
        [a, b, a, a, b, a, a, a, b, b, b] = some s ∧
      s.shared.completions = [.setError "thrown"] := by
    refine ⟨⟨0, by decide⟩, ⟨1, by decide⟩, _, rfl, ?_⟩
    rfl
  exact ⟨a, b, s, hs, hc, fun c h => ((bulk_completes_once (by decide) hs).2.2.1 c h).1⟩

end BulkState
