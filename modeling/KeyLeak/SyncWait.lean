import Mathlib.Data.Fintype.Option
import KeyLeak.IntrusiveQueue
import KeyLeak.Lib.Runs

/-!
# `sync_wait` and its run loop

`sync_wait` starts an operation and drives a `run_loop` until the operation has completed. Other
threads may schedule tasks on the loop, and one of them, or the caller itself from inside `start`
or a task, completes the operation. The loop is a local variable of the caller, so nobody may
touch it once `sync_wait` has returned.

Neither `run_loop` nor the receiver checks what an operation does. `Lawful` is what a sender is
held to, and `Orderly` what the other threads have to keep to for the loop to be let alone in
time. A mutex that fails to lock is left out.
-/
namespace SyncWait

open Runs Chain IntrusiveQueue

/-- What the operation sends to the receiver; storing the values may throw. -/
inductive Completion (V E : Type) where
  | setValue (values : V)
  | setValueThrows (ex : E)
  | setError (err : E)
  | setStopped
  deriving DecidableEq, Repr

inductive Outcome (V E : Type) where
  | returned (result : Option V)
  | threw (ex : E)
  deriving DecidableEq, Repr

/-- Where a thread is in `__push_back_` or `finish`. -/
inductive Phase (Task : Type) where
  | idle
  /-- Before the mutex is locked for a push. -/
  | pushing (task : Task)
  | linking (task : Task)
  /-- Before the mutex is locked in `finish`. -/
  | finishing
  | stopping
  | notifying
  | unlocking
  deriving DecidableEq, Repr

/-- Where the caller is in `sync_wait`. -/
inductive Caller (Task V E : Type) where
  /-- In `start`. -/
  | starting
  /-- Before the mutex is locked in `__pop_front_`. -/
  | locking
  | checking
  | waiting (notified : Bool)
  | executing (task : Task)
  /-- `run` has returned. -/
  | finished
  | returned (outcome : Outcome V E)
  deriving DecidableEq, Repr

/-- A null link stands for `&__head_`, and `none` for the caller among the threads. `completed`,
`pushed` and `executed` record what has been sent to the receiver and the tasks linked and
executed; `started` records which tasks have been handed to `__push_back_`. -/
structure State (ι Task V E : Type) where
  next : Task → Option Task
  /-- `__head_.__next_` -/
  headNext : Option Task
  /-- `__head_.__tail_` -/
  headTail : Option Task
  stop : Bool
  mutex : Option (Option ι)
  values : Option V
  eptr : Option E
  phase : Option ι → Phase Task
  caller : Caller Task V E
  completed : Option (Completion V E)
  started : Task → Bool
  pushed : List Task
  executed : List Task

inductive Event (ι Task V E : Type) where
  | pushBack (a : Option ι) (task : Task)
  | complete (a : Option ι) (c : Completion V E)
  /-- A step of a thread in `__push_back_` or `finish`. -/
  | thread (a : Option ι)
  | caller
  /-- The wait returns although nobody has notified it. -/
  | spurious
  deriving DecidableEq

variable {ι Task V E : Type}

def start (ι Task V E : Type) : State ι Task V E where
  next := fun _ => none
  headNext := none
  headTail := none
  stop := false
  mutex := none
  values := none
  eptr := none
  phase := fun _ => .idle
  caller := .starting
  completed := none
  started := fun _ => false
  pushed := []
  executed := []

namespace Completion

/-- What `sync_wait` promises for a completion. -/
def outcome : Completion V E → Outcome V E
  | .setValue v => .returned (some v)
  | .setValueThrows ex | .setError ex => .threw ex
  | .setStopped => .returned none

/-- What the receiver leaves in `*__values_`, given what was there. -/
def values (c : Completion V E) (old : Option V) : Option V :=
  match c with
  | .setValue v => some v
  | .setValueThrows _ => none
  | .setError _ | .setStopped => old

/-- What it leaves in `__eptr_`. -/
def eptr (c : Completion V E) (old : Option E) : Option E :=
  match c with
  | .setValueThrows ex | .setError ex => some ex
  | .setValue _ | .setStopped => old

end Completion

/-- Inside `start` or a task the caller runs code of the operation. -/
def Caller.active : Caller Task V E → Bool
  | .starting | .executing _ => true
  | _ => false

/-- What a notification does. -/
def Caller.wake : Caller Task V E → Caller Task V E
  | .waiting _ => .waiting true
  | caller => caller

/-- How `apply_sender` ends. -/
def State.result (s : State ι Task V E) : Outcome V E :=
  match s.eptr with
  | some ex => .threw ex
  | none => .returned s.values

section Step

variable [DecidableEq ι] [DecidableEq Task]

def State.setPhase (s : State ι Task V E) (a : Option ι) (phase : Phase Task) :
    State ι Task V E :=
  { s with phase := Function.update s.phase a phase }

/-- `__head_.__tail_ = __head_.__tail_->__next_ = task` -/
def State.link (s : State ι Task V E) (task : Task) : State ι Task V E :=
  { s with
    next := match s.headTail with
      | none => Function.update s.next task none
      | some tail => Function.update (Function.update s.next task none) tail (some task)
    headNext := match s.headTail with
      | none => some task
      | some _ => s.headNext
    headTail := some task
    pushed := s.pushed ++ [task] }

/-- `__pop_front_` with the mutex locked, where its wait is over. -/
def State.popFront (s : State ι Task V E) : State ι Task V E :=
  { s with
    headTail := if s.headTail = s.headNext then none else s.headTail
    headNext := s.headNext.bind s.next
    mutex := none
    caller := match s.headNext with
      | some task => .executing task
      | none => .finished }

def threadStep (s : State ι Task V E) (a : Option ι) : Option (State ι Task V E) :=
  match s.phase a with
  | .idle => none
  | .pushing task =>
    if s.mutex = none then some ({ s with mutex := some a }.setPhase a (.linking task)) else none
  | .linking task =>
    some ((s.link task).setPhase a .notifying)
  | .finishing =>
    if s.mutex = none then some ({ s with mutex := some a }.setPhase a .stopping) else none
  | .stopping => some ({ s with stop := true }.setPhase a .notifying)
  | .notifying => some ({ s with caller := s.caller.wake }.setPhase a .unlocking)
  | .unlocking => some ({ s with mutex := none }.setPhase a .idle)

def callerStep (s : State ι Task V E) : Option (State ι Task V E) :=
  match s.caller with
  | .starting => some { s with caller := .locking }
  | .locking | .waiting true =>
    if s.mutex = none then some { s with mutex := some none, caller := .checking } else none
  | .checking =>
    if s.headNext.isSome || s.stop then some s.popFront
    else some { s with mutex := none, caller := .waiting false }
  | .executing task => some { s with executed := s.executed ++ [task], caller := .locking }
  | .finished => some { s with caller := .returned s.result }
  | .waiting false | .returned _ => none

/-- Each thread is in one function at a time, and the caller only while it runs code of
the operation. -/
def State.mayAct (s : State ι Task V E) (a : Option ι) : Bool :=
  decide (s.phase a = .idle) && (a.isSome || s.caller.active)

def step (s : State ι Task V E) : Event ι Task V E → Option (State ι Task V E)
  | .pushBack a task =>
    if s.mayAct a then
      some ({ s with started := Function.update s.started task true }.setPhase a (.pushing task))
    else
      none
  | .complete a c =>
    if s.mayAct a then
      some ({ s with
        values := c.values s.values, eptr := c.eptr s.eptr, completed := some c }.setPhase a .finishing)
    else
      none
  | .thread a => threadStep s a
  | .caller => if s.phase none = .idle then callerStep s else none
  | .spurious =>
    match s.caller with
    | .waiting _ => some { s with caller := .waiting true }
    | _ => none

end Step

/-- The task that a thread in `__push_back_` has still to link. -/
def Phase.task : Phase Task → Option Task
  | .pushing task | .linking task => some task
  | _ => none

/-- The thread has locked the mutex. -/
def Phase.holds : Phase Task → Bool
  | .linking _ | .stopping | .notifying | .unlocking => true
  | _ => false

/-- The thread has still to set `__stop_`. -/
def Phase.finishes : Phase Task → Bool
  | .finishing | .stopping => true
  | _ => false

/-- An operation is started once, and it completes once. -/
def Event.Lawful (s : State ι Task V E) : Event ι Task V E → Prop
  | .pushBack _ task => s.started task = false
  | .complete _ _ => s.completed = none
  | _ => True

/-- When the operation completes, no other thread has a task to link, nor does one push a task
later. The caller may. -/
def Event.Orderly (s : State ι Task V E) : Event ι Task V E → Prop
  | .pushBack a _ => a = none ∨ s.completed = none
  | .complete _ _ => ∀ b, (s.phase (some b)).task = none
  | _ => True

section Decide

instance [DecidableEq Task] (s : State ι Task V E) :
    (e : Event ι Task V E) → Decidable (e.Lawful s)
  | .pushBack _ task => inferInstanceAs (Decidable (s.started task = false))
  | .complete _ _ => inferInstanceAs (Decidable (s.completed = none))
  | .thread _ | .caller | .spurious => .isTrue trivial

instance [Fintype ι] (s : State ι Task V E) : (e : Event ι Task V E) → Decidable (e.Orderly s)
  | .pushBack a _ => inferInstanceAs (Decidable (a = none ∨ s.completed = none))
  | .complete _ _ => inferInstanceAs (Decidable (∀ b, (s.phase (some b)).task = none))
  | .thread _ | .caller | .spurious => .isTrue trivial

end Decide

section Cases

variable [DecidableEq Task]

theorem mayAct_iff {s : State ι Task V E} {a : Option ι} :
    s.mayAct a = true ↔ s.phase a = .idle ∧ (a = none → s.caller.active = true) := by
  cases a <;> simp [State.mayAct]

variable [DecidableEq ι]

/-- What a step can do. -/
inductive Stepped (s : State ι Task V E) : Event ι Task V E → State ι Task V E → Prop where
  | pushBack {a task} (idle : s.phase a = .idle) (active : a = none → s.caller.active = true) :
      Stepped s (.pushBack a task)
        ({ s with started := Function.update s.started task true }.setPhase a (.pushing task))
  | complete {a c} (idle : s.phase a = .idle) (active : a = none → s.caller.active = true) :
      Stepped s (.complete a c) ({ s with
        values := c.values s.values, eptr := c.eptr s.eptr,
        completed := some c }.setPhase a .finishing)
  | lockPush {a task} (here : s.phase a = .pushing task) (free : s.mutex = none) :
      Stepped s (.thread a) ({ s with mutex := some a }.setPhase a (.linking task))
  | lockFinish {a} (here : s.phase a = .finishing) (free : s.mutex = none) :
      Stepped s (.thread a) ({ s with mutex := some a }.setPhase a .stopping)
  | link {a task} (here : s.phase a = .linking task) :
      Stepped s (.thread a) ((s.link task).setPhase a .notifying)
  | stop {a} (here : s.phase a = .stopping) :
      Stepped s (.thread a) ({ s with stop := true }.setPhase a .notifying)
  | notify {a} (here : s.phase a = .notifying) :
      Stepped s (.thread a) ({ s with caller := s.caller.wake }.setPhase a .unlocking)
  | unlock {a} (here : s.phase a = .unlocking) :
      Stepped s (.thread a) ({ s with mutex := none }.setPhase a .idle)
  | started (idle : s.phase none = .idle) (here : s.caller = .starting) :
      Stepped s .caller { s with caller := .locking }
  | lock (idle : s.phase none = .idle) (here : s.caller = .locking ∨ s.caller = .waiting true)
      (free : s.mutex = none) :
      Stepped s .caller { s with mutex := some none, caller := .checking }
  | pop (idle : s.phase none = .idle) (here : s.caller = .checking)
      (ready : s.headNext = none → s.stop = true) : Stepped s .caller s.popFront
  | wait (idle : s.phase none = .idle) (here : s.caller = .checking) (empty : s.headNext = none)
      (going : s.stop = false) :
      Stepped s .caller { s with mutex := none, caller := .waiting false }
  | execute {task} (idle : s.phase none = .idle) (here : s.caller = .executing task) :
      Stepped s .caller { s with executed := s.executed ++ [task], caller := .locking }
  | leave (idle : s.phase none = .idle) (here : s.caller = .finished) :
      Stepped s .caller { s with caller := .returned s.result }
  | spurious {notified} (here : s.caller = .waiting notified) :
      Stepped s .spurious { s with caller := .waiting true }

theorem threadStep_stepped {s s' : State ι Task V E} {a : Option ι} (h : threadStep s a = some s') :
    Stepped s (.thread a) s' := by
  cases hphase : s.phase a with
  | idle => simp [threadStep, hphase] at h
  | pushing task =>
    simp only [threadStep, hphase] at h
    split at h <;> cases h
    next free => exact .lockPush hphase free
  | linking task =>
    simp only [threadStep, hphase, Option.some.injEq] at h
    exact h ▸ .link hphase
  | finishing =>
    simp only [threadStep, hphase] at h
    split at h <;> cases h
    next free => exact .lockFinish hphase free
  | stopping =>
    simp only [threadStep, hphase, Option.some.injEq] at h
    exact h ▸ .stop hphase
  | notifying =>
    simp only [threadStep, hphase, Option.some.injEq] at h
    exact h ▸ .notify hphase
  | unlocking =>
    simp only [threadStep, hphase, Option.some.injEq] at h
    exact h ▸ .unlock hphase

theorem callerStep_stepped {s s' : State ι Task V E} (idle : s.phase none = .idle)
    (h : callerStep s = some s') : Stepped s .caller s' := by
  cases hcaller : s.caller with
  | starting =>
    simp only [callerStep, hcaller, Option.some.injEq] at h
    exact h ▸ .started idle hcaller
  | locking =>
    simp only [callerStep, hcaller] at h
    split at h <;> cases h
    next free => exact .lock idle (.inl hcaller) free
  | checking =>
    simp only [callerStep, hcaller] at h
    split at h <;> cases h
    next ready =>
      refine .pop idle hcaller fun hnone => ?_
      simpa [hnone] using ready
    next empty =>
      rw [Bool.or_eq_true, not_or, Option.not_isSome_iff_eq_none, Bool.not_eq_true] at empty
      exact .wait idle hcaller empty.1 empty.2
  | waiting notified =>
    cases notified with
    | false => simp [callerStep, hcaller] at h
    | true =>
      simp only [callerStep, hcaller] at h
      split at h <;> cases h
      next free => exact .lock idle (.inr hcaller) free
  | executing task =>
    simp only [callerStep, hcaller, Option.some.injEq] at h
    exact h ▸ .execute idle hcaller
  | finished =>
    simp only [callerStep, hcaller, Option.some.injEq] at h
    exact h ▸ .leave idle hcaller
  | returned outcome => simp [callerStep, hcaller] at h

theorem step_stepped {s s' : State ι Task V E} {e : Event ι Task V E} (h : step s e = some s') :
    Stepped s e s' := by
  cases e with
  | pushBack a task | complete a c =>
    simp only [step] at h
    split at h <;> cases h
    next hact =>
      obtain ⟨idle, active⟩ := mayAct_iff.mp hact
      constructor <;> assumption
  | thread a => exact threadStep_stepped h
  | caller =>
    simp only [step] at h
    split at h
    next idle => exact callerStep_stepped idle h
    next => cases h
  | spurious =>
    simp only [step] at h
    split at h <;> cases h
    next here => exact .spurious here

end Cases

/-- The task that has been taken and not executed yet. -/
def Caller.current : Caller Task V E → List Task
  | .executing task => [task]
  | _ => []

/-- `run` has returned. -/
def Caller.ended : Caller Task V E → Bool
  | .finished | .returned _ => true
  | _ => false

/-- The loop links the tasks that have been pushed and not taken, in order. -/
structure Queued (s : State ι Task V E) : Prop where
  queue : ∃ l, Holds s.next ⟨s.headNext, s.headTail⟩ l ∧
    s.pushed = s.executed ++ s.caller.current ++ l
  fresh : ∀ {a task}, (s.phase a).task = some task → s.started task = true ∧ task ∉ s.pushed ∧
    ∀ b, (s.phase b).task = some task → b = a
  started : ∀ task ∈ s.pushed, s.started task = true

/-- The mutex is locked by who is in a critical section. -/
structure Locked (s : State ι Task V E) : Prop where
  holder : ∀ a, s.mutex = some a ↔ (s.phase a).holds = true ∨ a = none ∧ s.caller = .checking
  quiet : s.caller.active = false → s.phase none = .idle

/-- What has been sent to the receiver is stored, and its sender stops the loop. -/
structure Settled (s : State ι Task V E) : Prop where
  incomplete : s.completed = none →
    s.stop = false ∧ s.values = none ∧ s.eptr = none ∧ ∀ a, (s.phase a).finishes = false
  complete : ∀ {c}, s.completed = some c → s.values = c.values none ∧ s.eptr = c.eptr none ∧
    (s.stop = true ↔ ∀ a, (s.phase a).finishes = false)
  once : ∀ {a b}, (s.phase a).finishes = true → (s.phase b).finishes = true → b = a

/-- A caller that sleeps has nothing to do, or somebody is about to wake it. -/
def Awake (s : State ι Task V E) : Prop :=
  s.caller = .waiting false → s.headNext = none ∧ s.stop = false ∨ ∃ a, s.phase a = .notifying

/-- The loop ends only after the completion, and `sync_wait` returns what has been sent. -/
structure Ended (s : State ι Task V E) : Prop where
  ended : s.caller.ended = true → s.completed.isSome = true
  outcome : ∀ {o}, s.caller = .returned o → ∃ c, s.completed = some c ∧ o = c.outcome

/-- After the completion only the caller has tasks to link, and after the loop nobody uses it. -/
structure Quiet (s : State ι Task V E) : Prop where
  task : s.completed ≠ none → ∀ b, (s.phase (some b)).task = none
  idle : s.caller.ended = true → s.headNext = none ∧ s.mutex = none ∧ ∀ a, s.phase a = .idle

section Steps

variable {s s' : State ι Task V E} {e : Event ι Task V E} {a : Option ι} {phase : Phase Task}

theorem Caller.wake_eq {caller : Caller Task V E} :
    (caller.wake = .checking ↔ caller = .checking) ∧ caller.wake.active = caller.active ∧
      caller.wake.current = caller.current ∧ caller.wake.ended = caller.ended := by
  cases caller <;> simp [Caller.wake, Caller.active, Caller.current, Caller.ended]

theorem Locked.keep (h : Locked s) (hmutex : s'.mutex = s.mutex)
    (hholds : ∀ b, (s'.phase b).holds = (s.phase b).holds)
    (hchecking : s'.caller = .checking ↔ s.caller = .checking)
    (hquiet : s'.caller.active = false → s'.phase none = .idle) : Locked s' where
  holder := by
    intro b
    rw [hmutex, hholds, hchecking]
    exact h.holder b
  quiet := hquiet

theorem Locked.free (h : Locked s) (free : s.mutex = none) :
    (∀ b, (s.phase b).holds = false) ∧ s.caller ≠ .checking := by
  refine ⟨fun b => ?_, fun hcaller => ?_⟩
  · by_contra hb
    have hb' := (h.holder b).mpr (.inl (by simpa using hb))
    rw [free] at hb'
    cases hb'
  · have hb := (h.holder none).mpr (.inr ⟨rfl, hcaller⟩)
    rw [free] at hb
    cases hb

/-- Only one thread at a time is in a critical section. -/
theorem Locked.alone (h : Locked s) {b : Option ι} (ha : s.mutex = some a) (hb : b ≠ a) :
    (s.phase b).holds = false := by
  by_contra hholds
  have hmutex := (h.holder b).mpr (.inl (by simpa using hholds))
  rw [ha] at hmutex
  exact hb (Option.some.inj hmutex).symm

/-- The caller takes the mutex. -/
theorem Locked.check (h : Locked s) (idle : s.phase none = .idle) (free : s.mutex = none) :
    Locked { s with mutex := some none, caller := .checking } where
  holder := by
    intro b
    simpa [(h.free free).1 b] using eq_comm
  quiet := fun _ => idle

/-- The caller gives the mutex back. -/
theorem Locked.checked (h : Locked s) (idle : s.phase none = .idle) (here : s.caller = .checking)
    (hphase : s'.phase = s.phase) (hmutex : s'.mutex = none) (hcaller : s'.caller ≠ .checking) :
    Locked s' where
  holder := by
    intro b
    have hmine := (h.holder none).mpr (.inr ⟨rfl, here⟩)
    have hholds : (s.phase b).holds = false := by
      by_cases hb : b = none
      · rw [hb, idle]
        rfl
      · exact h.alone hmine hb
    simp [hmutex, hphase, hholds, hcaller]
  quiet := by
    intro _
    rw [hphase]
    exact idle

theorem Queued.keep (h : Queued s) (hnext : s'.next = s.next) (hhead : s'.headNext = s.headNext)
    (htail : s'.headTail = s.headTail) (hpushed : s'.pushed = s.pushed)
    (hexecuted : s'.executed ++ s'.caller.current = s.executed ++ s.caller.current)
    (htask : ∀ b, (s'.phase b).task = (s.phase b).task) (hstarted : s'.started = s.started) :
    Queued s' where
  queue := by
    obtain ⟨l, hl, hall⟩ := h.queue
    exact ⟨l, by rwa [hnext, hhead, htail], by rw [hpushed, hexecuted, hall]⟩
  fresh := by
    intro a task ha
    rw [htask] at ha
    rw [hstarted, hpushed]
    refine ⟨(h.fresh ha).1, (h.fresh ha).2.1, fun b hb => ?_⟩
    rw [htask] at hb
    exact (h.fresh ha).2.2 b hb
  started := by
    rw [hpushed, hstarted]
    exact h.started

theorem Settled.keep (h : Settled s) (hcompleted : s'.completed = s.completed)
    (hstop : s'.stop = s.stop) (hvalues : s'.values = s.values) (heptr : s'.eptr = s.eptr)
    (hfinishes : ∀ b, (s'.phase b).finishes = (s.phase b).finishes) : Settled s' where
  incomplete := by
    simp only [hcompleted, hstop, hvalues, heptr, hfinishes]
    exact h.incomplete
  complete := by
    intro c hc
    rw [hcompleted] at hc
    simp only [hstop, hvalues, heptr, hfinishes]
    exact h.complete hc
  once := by
    simp only [hfinishes]
    exact h.once

/-- The caller takes the first task, or finds that there is none. -/
theorem Queued.pop [DecidableEq Task] (h : Queued s) (here : s.caller = .checking) :
    Queued s.popFront where
  queue := by
    obtain ⟨l, hl, hall⟩ := h.queue
    rw [here] at hall
    cases l with
    | nil =>
      have hhead : s.headNext = none := hl.path
      have htail : s.headTail = none := hl.tail
      exact ⟨[], ⟨by simp [State.popFront, hhead], by simp [State.popFront, hhead, htail]⟩,
        by simpa [State.popFront, hhead, Caller.current] using hall⟩
    | cons task l =>
      obtain ⟨hhead, hpath⟩ : s.headNext = some task ∧ Path s.next (s.next task) l none := hl.path
      have htail : s.headTail = (task :: l).getLast? := hl.tail
      refine ⟨l, ⟨by simpa [State.popFront, hhead] using hpath, ?_⟩, ?_⟩
      · cases l with
        | nil => simp [State.popFront, hhead, htail]
        | cons u m =>
          have hne : (u :: m).getLast? ≠ some task := by
            intro hlast
            exact (List.nodup_cons.mp hl.nodup).1 (List.mem_of_getLast? hlast)
          simp [State.popFront, hhead, htail, List.getLast?_cons_cons, hne]
      · simpa [State.popFront, hhead, Caller.current] using hall
  fresh := h.fresh
  started := h.started

theorem Settled.completed_of (hs : Settled s) (hstop : s.stop = true) :
    s.completed.isSome = true := by
  cases hcompleted : s.completed with
  | none => exact absurd hstop (by simp [(hs.incomplete hcompleted).1])
  | some c => rfl

/-- The caller finds the loop stopped: the completing thread has left `finish`, and no other
thread is in `__push_back_`. -/
theorem Quiet.idle_of (hq : Quiet s) (hs : Settled s) (hl : Locked s) (idle : s.phase none = .idle)
    (here : s.caller = .checking) (hstop : s.stop = true) : ∀ a, s.phase a = .idle := by
  intro a
  cases a with
  | none => exact idle
  | some b =>
    obtain ⟨c, hc⟩ := Option.isSome_iff_exists.mp (hs.completed_of hstop)
    have hholds := hl.alone ((hl.holder none).mpr (.inr ⟨rfl, here⟩)) (Option.some_ne_none b)
    have htask := hq.task (by simp [hc]) b
    have hfinishes := (hs.complete hc).2.2.mp hstop (some b)
    cases hphase : s.phase (some b) <;> rw [hphase] at hholds htask hfinishes <;>
      first | rfl | contradiction

variable [DecidableEq ι]

@[simp] theorem setPhase_same : (s.setPhase a phase).phase a = phase := Function.update_self ..

@[simp] theorem setPhase_other {b : Option ι} (h : b ≠ a) :
    (s.setPhase a phase).phase b = s.phase b := Function.update_of_ne h _ _

/-- One thread goes on to a phase that agrees with the old one. -/
theorem setPhase_agree {α : Type} {f : Phase Task → α} (h : f phase = f (s.phase a))
    (b : Option ι) : f ((s.setPhase a phase).phase b) = f (s.phase b) := by
  by_cases hb : b = a
  · rw [hb, setPhase_same, h]
  · rw [setPhase_other hb]

/-- A thread that is not idle is not the caller, unless that one is active. -/
theorem Locked.caller_idle (h : Locked s) (ha : s.phase a = .idle → a = none → s.caller.active = true)
    (hact : s.caller.active = false) : (s.setPhase a phase).phase none = .idle := by
  have hidle := h.quiet hact
  have hne : none ≠ a := by
    rintro rfl
    exact Bool.false_ne_true (hact.symm.trans (ha hidle rfl))
  rwa [setPhase_other hne]

theorem Locked.acquire (h : Locked s) (free : s.mutex = none) (here : s.phase a ≠ .idle)
    (hholds : phase.holds = true) : Locked ({ s with mutex := some a }.setPhase a phase) where
  holder := by
    intro b
    change some a = some b ↔
      ((s.setPhase a phase).phase b).holds = true ∨ b = none ∧ s.caller = .checking
    by_cases hb : b = a
    · subst hb
      simp [hholds]
    · simpa [hb, (h.free free).1 b, (h.free free).2] using Ne.symm hb
  quiet := h.caller_idle fun hidle => absurd hidle here

theorem Locked.release (h : Locked s) (here : (s.phase a).holds = true) :
    Locked ({ s with mutex := none }.setPhase a .idle) where
  holder := by
    intro b
    have hmine := (h.holder a).mpr (.inl here)
    have hchecking : s.caller ≠ .checking := by
      intro hcaller
      have hnone := (h.holder none).mpr (.inr ⟨rfl, hcaller⟩)
      rw [hmine] at hnone
      obtain rfl := Option.some.inj hnone
      rw [h.quiet (by rw [hcaller]; rfl)] at here
      cases here
    change none = some b ↔
      ((s.setPhase a .idle).phase b).holds = true ∨ b = none ∧ s.caller = .checking
    by_cases hb : b = a
    · subst hb
      simp [hchecking, Phase.holds]
    · simp [hb, h.alone hmine hb, hchecking]
  quiet := by
    intro hact
    by_cases ha : none = a
    · rw [ha]
      exact setPhase_same
    · exact (setPhase_other ha).trans (h.quiet hact)

/-- The completion is stored, and its sender goes on to stop the loop. -/
theorem Settled.complete_of (h : Settled s) (hnone : s.completed = none)
    (c : Completion V E) : Settled ({ s with
      values := c.values s.values, eptr := c.eptr s.eptr,
      completed := some c }.setPhase a .finishing) := by
  obtain ⟨going, hvalues, heptr, hold⟩ := h.incomplete hnone
  have hfinishes : ∀ {b}, ((s.setPhase a .finishing).phase b).finishes = true → b = a := by
    intro b hb
    by_contra hne
    rw [setPhase_other hne, hold] at hb
    cases hb
  refine ⟨nofun, fun hc => ?_, fun {b b'} hb hb' => ?_⟩
  · obtain rfl := Option.some.inj hc
    refine ⟨congrArg c.values hvalues, congrArg c.eptr heptr, ?_⟩
    change s.stop = true ↔ ∀ b, ((s.setPhase a .finishing).phase b).finishes = false
    rw [going]
    refine ⟨nofun, fun hall => ?_⟩
    have hmine := hall a
    rw [setPhase_same] at hmine
    cases hmine
  · exact (hfinishes hb').trans (hfinishes hb).symm

theorem Settled.stop_of (h : Settled s) (here : s.phase a = .stopping) :
    Settled ({ s with stop := true }.setPhase a .notifying) := by
  have hfinishes : ∀ b, ((s.setPhase a .notifying).phase b).finishes = false := by
    intro b
    by_cases hb : b = a
    · rw [hb, setPhase_same]
      rfl
    · rw [setPhase_other hb]
      by_contra hne
      exact hb (h.once (congrArg Phase.finishes here) (by simpa using hne))
  refine ⟨fun hnone => ?_, fun hc => ?_, fun {b _} hb => ?_⟩
  · have hmine := (h.incomplete hnone).2.2.2 a
    rw [here] at hmine
    cases hmine
  · obtain ⟨hvalues, heptr, -⟩ := h.complete hc
    exact ⟨hvalues, heptr, fun _ => hfinishes, fun _ => rfl⟩
  · exact absurd ((hfinishes b).symm.trans hb) nofun

variable [DecidableEq Task]

theorem Stepped.locked (hl : Locked s) (h : Stepped s e s') : Locked s' := by
  cases h with
  | pushBack idle active | complete idle active =>
    refine hl.keep rfl (setPhase_agree ?_) Iff.rfl (hl.caller_idle fun _ => active)
    simp [idle, Phase.holds]
  | lockPush here free | lockFinish here free =>
    exact hl.acquire free (by simp [here]) rfl
  | link here | stop here =>
    refine hl.keep rfl (setPhase_agree (congrArg Phase.holds here).symm) Iff.rfl
      (hl.caller_idle fun hidle => ?_)
    simp [here] at hidle
  | notify here =>
    refine hl.keep rfl (setPhase_agree (by rw [here]; rfl)) Caller.wake_eq.1 fun hact => ?_
    refine hl.caller_idle (fun hidle => by simp [here] at hidle) ?_
    exact Caller.wake_eq.2.1.symm.trans hact
  | unlock here => exact hl.release (by rw [here]; rfl)
  | started idle here | execute idle here | leave idle here =>
    exact hl.keep rfl (fun _ => rfl) (by simp [here]) fun _ => idle
  | lock idle here free => exact hl.check idle free
  | pop idle here =>
    refine hl.checked idle here rfl rfl ?_
    rw [State.popFront]
    cases s.headNext <;> simp
  | wait idle here => exact hl.checked idle here rfl rfl (by simp)
  | spurious here =>
    exact hl.keep rfl (fun _ => rfl) (by simp [here]) fun _ => hl.quiet (by rw [here]; rfl)

/-- A task is handed to `__push_back_`. -/
theorem Queued.begin (h : Queued s) {task : Task} (idle : s.phase a = .idle)
    (new : s.started task = false) : Queued ({ s with
      started := Function.update s.started task true }.setPhase a (.pushing task)) where
  queue := h.queue
  fresh := by
    have hpushed : task ∉ s.pushed := fun hmem => by simp [h.started task hmem] at new
    have hother : ∀ {b u}, b ≠ a → ((s.setPhase a (.pushing task)).phase b).task = some u →
        (s.phase b).task = some u ∧ u ≠ task := by
      intro b u hb hu
      rw [setPhase_other hb] at hu
      refine ⟨hu, ?_⟩
      rintro rfl
      simp [(h.fresh hu).1] at new
    intro b u (hu : ((s.setPhase a (.pushing task)).phase b).task = some u)
    by_cases hb : b = a
    · subst hb
      rw [setPhase_same] at hu
      obtain rfl := Option.some.inj hu
      refine ⟨Function.update_self .., hpushed, fun c hc => ?_⟩
      by_contra hne
      exact (hother hne hc).2 rfl
    · obtain ⟨hold, hne⟩ := hother hb hu
      refine ⟨(Function.update_of_ne hne ..).trans (h.fresh hold).1, (h.fresh hold).2.1, fun c hc => ?_⟩
      by_cases hca : c = a
      · subst hca
        change ((s.setPhase c (.pushing task)).phase c).task = some u at hc
        rw [setPhase_same] at hc
        exact absurd (Option.some.inj hc).symm hne
      · exact (h.fresh hold).2.2 c (hother hca hc).1
  started := by
    intro u hu
    change Function.update s.started task true u = true
    by_cases hut : u = task
    · rw [hut, Function.update_self]
    · rw [Function.update_of_ne hut]
      exact h.started u hu

/-- A task is linked behind the others. -/
theorem Queued.link (h : Queued s) {task : Task} (here : s.phase a = .linking task) :
    Queued ((s.link task).setPhase a .notifying) where
  queue := by
    obtain ⟨l, hl, hall⟩ := h.queue
    have htask : task ∉ l := by
      intro hmem
      have hfresh := (h.fresh (congrArg Phase.task here)).2.1
      rw [hall] at hfresh
      exact hfresh (List.mem_append_right _ hmem)
    refine ⟨l ++ [task], ?_, ?_⟩
    · have hback := hl.pushBack htask
      rw [pushBack] at hback
      change Holds (s.link task).next ⟨(s.link task).headNext, (s.link task).headTail⟩ (l ++ [task])
      rw [State.link]
      cases htail : s.headTail <;> rw [htail] at hback <;> exact hback
    · change s.pushed ++ [task] = _
      rw [hall, List.append_assoc]
      rfl
  fresh := by
    intro b u hu
    change ((s.setPhase a .notifying).phase b).task = some u at hu
    have hb : b ≠ a := by
      rintro rfl
      rw [setPhase_same] at hu
      cases hu
    rw [setPhase_other hb] at hu
    refine ⟨(h.fresh hu).1, fun hmem => ?_, fun c hc => ?_⟩
    · rcases List.mem_append.mp hmem with hmem | hmem
      · exact (h.fresh hu).2.1 hmem
      · obtain rfl := List.mem_singleton.mp hmem
        exact hb ((h.fresh (congrArg Phase.task here)).2.2 b hu)
    · change ((s.setPhase a .notifying).phase c).task = some u at hc
      have hca : c ≠ a := by
        rintro rfl
        rw [setPhase_same] at hc
        cases hc
      rw [setPhase_other hca] at hc
      exact (h.fresh hu).2.2 c hc
  started := by
    intro u hu
    rcases List.mem_append.mp hu with hu | hu
    · exact h.started u hu
    · obtain rfl := List.mem_singleton.mp hu
      exact (h.fresh (congrArg Phase.task here)).1

theorem Stepped.queued (hq : Queued s) (hlaw : e.Lawful s) (h : Stepped s e s') : Queued s' := by
  have hkeep : ∀ {a phase}, phase.task = (s.phase a).task →
      ∀ b, ((s.setPhase a phase).phase b).task = (s.phase b).task := fun h => setPhase_agree h
  cases h with
  | pushBack idle => exact hq.begin idle hlaw
  | complete idle =>
    exact hq.keep rfl rfl rfl rfl rfl (hkeep (by rw [idle]; rfl)) rfl
  | lockPush here | lockFinish here | stop here | unlock here =>
    exact hq.keep rfl rfl rfl rfl rfl (hkeep (by rw [here]; rfl)) rfl
  | notify here =>
    refine hq.keep rfl rfl rfl rfl ?_ (hkeep (by rw [here]; rfl)) rfl
    exact congrArg (s.executed ++ ·) Caller.wake_eq.2.2.1
  | link here => exact hq.link here
  | started idle here | leave idle here | spurious here | wait idle here =>
    refine hq.keep rfl rfl rfl rfl ?_ (fun _ => rfl) rfl
    simp [here, Caller.current]
  | lock idle here =>
    refine hq.keep rfl rfl rfl rfl ?_ (fun _ => rfl) rfl
    rcases here with here | here <;> simp [here, Caller.current]
  | execute idle here =>
    refine hq.keep rfl rfl rfl rfl ?_ (fun _ => rfl) rfl
    simp [here, Caller.current]
  | pop idle here => exact hq.pop here

theorem Stepped.settled (hs : Settled s) (hlaw : e.Lawful s) (h : Stepped s e s') :
    Settled s' := by
  cases h with
  | pushBack here | lockPush here | lockFinish here | link here | notify here | unlock here =>
    exact hs.keep rfl rfl rfl rfl (setPhase_agree (congrArg Phase.finishes here).symm)
  | started | lock | pop | wait | execute | leave | spurious =>
    exact hs.keep rfl rfl rfl rfl fun _ => rfl
  | complete => exact hs.complete_of hlaw _
  | stop here => exact hs.stop_of here

theorem Stepped.awake (ha : Awake s) (h : Stepped s e s') : Awake s' := by
  have hkeep : ∀ {a b phase}, s.phase a ≠ .notifying → s.phase b = .notifying →
      (s.setPhase a phase).phase b = .notifying := by
    intro a b phase hne hb
    have hba : b ≠ a := by
      rintro rfl
      exact hne hb
    rwa [setPhase_other hba]
  intro hcaller
  cases h with
  | pushBack idle =>
    exact (ha hcaller).imp_right fun ⟨b, hb⟩ => ⟨b, hkeep (by rw [idle]; exact nofun) hb⟩
  | complete idle =>
    exact (ha hcaller).imp_right fun ⟨b, hb⟩ => ⟨b, hkeep (by rw [idle]; exact nofun) hb⟩
  | lockPush here | lockFinish here | unlock here =>
    exact (ha hcaller).imp_right fun ⟨b, hb⟩ => ⟨b, hkeep (by rw [here]; exact nofun) hb⟩
  | link here | stop here => exact .inr ⟨_, setPhase_same⟩
  | notify here =>
    change s.caller.wake = _ at hcaller
    cases hold : s.caller <;> simp [hold, Caller.wake] at hcaller
  | wait idle here empty going => exact .inl ⟨empty, going⟩
  | pop idle here =>
    change (match s.headNext with
      | some task => Caller.executing task
      | none => .finished) = _ at hcaller
    cases hhead : s.headNext <;> simp [hhead] at hcaller
  | started | lock | execute | leave | spurious => cases hcaller

theorem Stepped.ended (hs : Settled s) (he : Ended s) (hlaw : e.Lawful s) (h : Stepped s e s') :
    Ended s' := by
  cases h with
  | pushBack | lockPush | lockFinish | link | stop | unlock => exact ⟨he.ended, he.outcome⟩
  | complete =>
    refine ⟨fun _ => rfl, fun ho => ?_⟩
    obtain ⟨c, hc, -⟩ := he.outcome ho
    rw [show s.completed = none from hlaw] at hc
    cases hc
  | notify =>
    refine ⟨fun hended => he.ended (Caller.wake_eq.2.2.2.symm.trans hended), fun {o} ho => ?_⟩
    refine he.outcome (o := o) ?_
    change s.caller.wake = _ at ho
    cases hcaller : s.caller <;> simp_all [Caller.wake]
  | started | lock | wait | execute | spurious => exact ⟨nofun, nofun⟩
  | pop idle here ready =>
    cases hhead : s.headNext with
    | some task => exact ⟨by simp [State.popFront, hhead, Caller.ended], by simp [State.popFront, hhead]⟩
    | none =>
      exact ⟨fun _ => hs.completed_of (ready hhead), by simp [State.popFront, hhead]⟩
  | leave idle here =>
    have hcompleted := he.ended (by rw [here]; rfl)
    refine ⟨fun _ => hcompleted, fun ho => ?_⟩
    obtain ⟨c, hc⟩ := Option.isSome_iff_exists.mp hcompleted
    obtain ⟨hvalues, heptr, -⟩ := hs.complete hc
    refine ⟨c, hc, ?_⟩
    cases ho
    rw [State.result, hvalues, heptr]
    cases c <;> rfl

theorem Stepped.quiet (hl : Locked s) (hs : Settled s) (he : Ended s) (hq : Quiet s)
    (hlaw : e.Lawful s) (horder : e.Orderly s) (h : Stepped s e s') : Quiet s' := by
  have hbusy : ∀ {a phase}, s.phase a = phase → phase ≠ .idle → s.caller.ended ≠ true :=
    fun here hne hended => hne (here.symm.trans ((hq.idle hended).2.2 _))
  have hkeep : ∀ {a phase}, phase.task = (s.phase a).task → s.completed ≠ none →
      ∀ b, ((s.setPhase a phase).phase (some b)).task = none :=
    fun hsame hne b => (setPhase_agree hsame (some b)).trans (hq.task hne b)
  cases h with
  | @pushBack a task idle active =>
    have hmine : s.completed ≠ none → a = none := fun hne => horder.resolve_right hne
    refine ⟨fun hne b => ?_, fun hended => ?_⟩
    · obtain rfl := hmine hne
      exact (congrArg Phase.task (setPhase_other (Option.some_ne_none b))).trans (hq.task hne b)
    · obtain ⟨c, hc⟩ := Option.isSome_iff_exists.mp (he.ended hended)
      have hactive := active (hmine (by simp [hc]))
      change s.caller.ended = true at hended
      cases hcaller : s.caller <;> simp [hcaller, Caller.active, Caller.ended] at hactive hended
  | @complete a c =>
    refine ⟨fun _ b => ?_, fun hended => ?_⟩
    · change ((s.setPhase a .finishing).phase (some b)).task = none
      by_cases hb : some b = a
      · rw [hb, setPhase_same]
        rfl
      · rw [setPhase_other hb]
        exact horder b
    · have hcompleted := he.ended hended
      rw [show s.completed = none from hlaw] at hcompleted
      cases hcompleted
  | lockPush here | lockFinish here | stop here | unlock here =>
    exact ⟨hkeep (congrArg Phase.task here).symm, fun hended => absurd hended (hbusy here nofun)⟩
  | @link a task here =>
    refine ⟨fun hne b => ?_, fun hended => absurd hended (hbusy here nofun)⟩
    change ((s.setPhase a .notifying).phase (some b)).task = none
    by_cases hb : some b = a
    · rw [hb, setPhase_same]
      rfl
    · rw [setPhase_other hb]
      exact hq.task hne b
  | notify here =>
    refine ⟨hkeep (congrArg Phase.task here).symm, fun hended => ?_⟩
    exact absurd (Caller.wake_eq.2.2.2.symm.trans hended) (hbusy here nofun)
  | started | lock | wait | execute | spurious => exact ⟨hq.task, nofun⟩
  | pop idle here ready =>
    refine ⟨hq.task, fun hended => ?_⟩
    cases hhead : s.headNext with
    | some task => simp [State.popFront, hhead, Caller.ended] at hended
    | none =>
      exact ⟨by simp [State.popFront, hhead], rfl, hq.idle_of hs hl idle here (ready hhead)⟩
  | leave idle here => exact ⟨hq.task, fun _ => hq.idle (by rw [here]; rfl)⟩

end Steps

section Runs

variable [DecidableEq ι] [DecidableEq Task] {es : List (Event ι Task V E)}
  {s : State ι Task V E}

theorem run_kept (h : run step (start ι Task V E) es = some s)
    (hlaw : Throughout step Event.Lawful (start ι Task V E) es) :
    Locked s ∧ Queued s ∧ Settled s ∧ Awake s ∧ Ended s := by
  refine run_invariant_of (I := fun s => Locked s ∧ Queued s ∧ Settled s ∧ Awake s ∧ Ended s)
    ?_ ?_ hlaw h
  · rintro u e v ⟨hl, hq, hs, ha, he⟩ hlaw hstep
    have hst := step_stepped hstep
    exact ⟨hst.locked hl, hst.queued hq hlaw, hst.settled hs hlaw, hst.awake ha, hst.ended hs he hlaw⟩
  · refine ⟨⟨?_, ?_⟩, ⟨⟨[], clear_holds, rfl⟩, nofun, nofun⟩, ⟨?_, nofun, nofun⟩, nofun, ⟨nofun, nofun⟩⟩
    · simp [start, Phase.holds]
    · exact fun _ => rfl
    · exact fun _ => ⟨rfl, rfl, rfl, fun _ => rfl⟩

theorem run_quiet (h : run step (start ι Task V E) es = some s)
    (hlaw : Throughout step Event.Lawful (start ι Task V E) es)
    (horder : Throughout step Event.Orderly (start ι Task V E) es) : Quiet s := by
  refine (run_invariant_of (I := fun s => Locked s ∧ Settled s ∧ Ended s ∧ Quiet s)
    ?_ ?_ (hlaw.and horder) h).2.2.2
  · rintro u e v ⟨hl, hs, he, hq⟩ ⟨hlaw, horder⟩ hstep
    have hst := step_stepped hstep
    exact ⟨hst.locked hl, hst.settled hs hlaw, hst.ended hs he hlaw, hst.quiet hl hs he hq hlaw horder⟩
  · have hrun : run step (start ι Task V E) [] = some (start ι Task V E) := rfl
    obtain ⟨hl, -, hs, -, he⟩ := run_kept hrun trivial
    exact ⟨hl, hs, he, nofun, nofun⟩

/-- What has been sent to the receiver has been sent by an event. -/
theorem run_completed (h : run step (start ι Task V E) es = some s) {c : Completion V E}
    (hc : s.completed = some c) : ∃ a, .complete a c ∈ es := by
  refine run_induction (motive := fun es s => ∀ {c}, s.completed = some c → ∃ a, .complete a c ∈ es)
    (fun hc => by cases hc) ?_ h hc
  intro es u e v _ ih hstep c hc
  have hold : v.completed = u.completed → ∃ a, .complete a c ∈ es ++ [e] := by
    intro hsame
    obtain ⟨a, ha⟩ := ih (hsame ▸ hc)
    exact ⟨a, List.mem_append_left _ ha⟩
  cases step_stepped hstep with
  | @complete a d =>
    cases hc
    exact ⟨a, by simp⟩
  | _ => exact hold rfl

/-- What the caller returns with is the completion of some event. -/
theorem run_outcome (h : run step (start ι Task V E) es = some s)
    (hlaw : Throughout step Event.Lawful (start ι Task V E) es) {o : Outcome V E}
    (ho : s.caller = .returned o) : ∃ a c, .complete a c ∈ es ∧ o = c.outcome := by
  obtain ⟨c, hc, hout⟩ := (run_kept h hlaw).2.2.2.2.outcome ho
  obtain ⟨a, ha⟩ := run_completed h hc
  exact ⟨a, c, ha, hout⟩

/-- No wake-up is lost: where no thread can go on, `sync_wait` has returned, or the operation has
not completed yet and all tasks have been executed. -/
theorem sync_wait_rests (h : run step (start ι Task V E) es = some s)
    (hlaw : Throughout step Event.Lawful (start ι Task V E) es)
    (hcaller : step s .caller = none) (hthreads : ∀ a, step s (.thread a) = none) :
    (∃ c, s.completed = some c ∧ s.caller = .returned c.outcome) ∨
      s.completed = none ∧ s.caller = .waiting false ∧ s.executed = s.pushed := by
  obtain ⟨hl, hq, hs, ha, he⟩ := run_kept h hlaw
  have hfree : s.mutex = none := by
    by_contra hne
    obtain ⟨a, ha⟩ := Option.ne_none_iff_exists'.mp hne
    rcases (hl.holder a).mp ha with hholds | ⟨rfl, hchecking⟩
    · have hstuck := hthreads a
      cases hphase : s.phase a <;> simp [step, threadStep, hphase] at hstuck <;>
        simp [hphase, Phase.holds] at hholds
    · have hidle := hl.quiet (by rw [hchecking]; rfl)
      simp only [step, hidle, if_true, callerStep, hchecking] at hcaller
      split at hcaller <;> cases hcaller
  have hidle : ∀ a, s.phase a = .idle := by
    intro a
    have hstuck := hthreads a
    cases hphase : s.phase a <;> simp [step, threadStep, hphase, hfree] at hstuck
    rfl
  have hstuck : callerStep s = none := by simpa [step, hidle] using hcaller
  cases hphase : s.caller with
  | returned o =>
    obtain ⟨c, hc, rfl⟩ := he.outcome hphase
    exact .inl ⟨c, hc, rfl⟩
  | waiting notified =>
    cases notified with
    | true => simp [callerStep, hphase, hfree] at hstuck
    | false =>
      obtain ⟨hhead, hstop⟩ : s.headNext = none ∧ s.stop = false := by
        rcases ha hphase with hempty | ⟨a, ha⟩
        · exact hempty
        · rw [hidle a] at ha
          cases ha
      have hopen : s.completed = none := by
        by_contra hne
        obtain ⟨c, hc⟩ := Option.ne_none_iff_exists'.mp hne
        have hstopped := (hs.complete hc).2.2.mpr fun a => by rw [hidle a]; rfl
        rw [hstop] at hstopped
        cases hstopped
      obtain ⟨l, hlist, hall⟩ := hq.queue
      have hnil : l = [] := hlist.path.eq_nil_iff.mpr hhead
      refine .inr ⟨hopen, rfl, ?_⟩
      rw [hall, hphase, hnil]
      simp [Caller.current]
  | checking =>
    simp only [callerStep, hphase] at hstuck
    split at hstuck <;> cases hstuck
  | starting | locking | executing | finished => simp [callerStep, hphase, hfree] at hstuck

/-- The caller sleeps, executes a task that another thread schedules, and sleeps again. -/
def sleepsTwice : List (Event Unit Nat Nat String) :=
  [.caller, .caller, .caller, .pushBack (some ()) 5, .thread (some ()), .thread (some ()),
    .thread (some ()), .thread (some ()), .caller, .caller, .caller, .caller, .caller]

theorem sync_wait_rests_waiting : ∃ s,
    run step (start Unit Nat Nat String) sleepsTwice = some s ∧
    ((∃ c, s.completed = some c ∧ s.caller = .returned c.outcome) ∨
      s.completed = none ∧ s.caller = .waiting false ∧ s.executed = s.pushed) := by
  obtain ⟨s, hs, hcaller, hthreads⟩ : ∃ s,
      run step (start Unit Nat Nat String) sleepsTwice = some s ∧
      step s .caller = none ∧ ∀ a, step s (.thread a) = none := ⟨_, rfl, rfl, by decide⟩
  exact ⟨s, hs, sync_wait_rests hs (by decide) hcaller hthreads⟩

/-- A thread that pushes a task after the completion may still be at it when `sync_wait` returns. -/
example : ∃ s, run step (start (Fin 2) Nat Nat String)
      [.complete (some 0) .setStopped, .thread (some 0), .thread (some 0), .thread (some 0),
        .thread (some 0), .pushBack (some 1) 5, .caller, .caller, .caller, .caller] = some s ∧
    s.caller = .returned (.returned none) ∧ s.phase (some 1) = .pushing 5 := ⟨_, rfl, rfl, rfl⟩

end Runs

end SyncWait
