import KeyLeak.PoolSteps

/-!
# Every task runs once

A task that has been handed in is in one place: in a remote queue, in the hands of the thread
that empties it, in the pending or the local queue of that thread, in the hand of a thief, or
executed. Wherever it goes, it keeps the index of the queue it was first put in, and that is
the index it is executed with.
-/
namespace Pool

open Runs StealDeque

variable {T : Nat} {σ Task : Type}

/-- Tasks with the index of their queue. -/
def tagged (i : Fin T) (tasks : Multiset Task) : Multiset (Task × Fin T) := tasks.map (·, i)

@[simp] theorem tagged_zero (i : Fin T) : tagged i (0 : Multiset Task) = 0 := rfl

@[simp] theorem tagged_add (i : Fin T) (s t : Multiset Task) :
    tagged i (s + t) = tagged i s + tagged i t := Multiset.map_add _ _ _

@[simp] theorem tagged_singleton (i : Fin T) (task : Task) :
    tagged i ({task} : Multiset Task) = {(task, i)} := rfl

theorem tagged_append (i : Fin T) (tasks tasks' : List Task) :
    tagged i (tasks ++ tasks' : List Task) =
      tagged i (tasks : Multiset Task) + tagged i (tasks' : Multiset Task) := by
  rw [← Multiset.coe_add, tagged_add]

/-- The tasks that a thread has in its hands. -/
def Phase.carried (w : Fin T) : Phase T σ Task → Multiset (Task × Fin T)
  | .collect _ tasks _ => tagged w tasks
  | .clearStealing (some r) => {r}
  | .running task queueIndex => {(task, queueIndex)}
  | _ => 0

@[simp] theorem Phase.carried_collect (w : Fin T) (walk : List (Actor T σ)) (tasks : List Task)
    (asleep : Bool) : (Phase.collect walk tasks asleep).carried w = tagged w tasks := rfl

@[simp] theorem Phase.carried_clearStealing (w : Fin T) (r : Task × Fin T) :
    (Phase.clearStealing (some r) : Phase T σ Task).carried w = {r} := rfl

@[simp] theorem Phase.carried_running (w : Fin T) (task : Task) (queueIndex : Fin T) :
    (Phase.running task queueIndex : Phase T σ Task).carried w = {(task, queueIndex)} := rfl

@[simp] theorem Phase.carried_missed (w : Fin T) (asleep : Bool) :
    (Phase.missed asleep : Phase T σ Task).carried w = 0 := by
  cases asleep <;> rfl

@[simp] theorem Phase.carried_nextSteal (w : Fin T) (near : Bool) (i : Nat) :
    (Phase.nextSteal near i : Phase T σ Task).carried w = 0 := by
  unfold Phase.nextSteal
  split
  · rfl
  · split <;> rfl

@[simp] theorem Phase.carried_signal (w : Fin T) (phase : Phase T σ Task) :
    phase.signal.carried w = phase.carried w := by
  cases phase <;> rfl

theorem coe_map_tag (i : Fin T) (tasks : List Task) :
    ((tasks.map (·, i) : List (Task × Fin T)) : Multiset (Task × Fin T)) =
      tagged i (tasks : Multiset Task) := rfl

def inPending (pending : Fin T → List Task) : Multiset (Task × Fin T) :=
  ∑ i, tagged i (pending i : Multiset Task)

def inLocal (d : Fin T → Deque (Fin T) Task) : Multiset (Task × Fin T) :=
  ∑ i, tagged i (inside (d i))

def inHands (phase : Fin T → Phase T σ Task) : Multiset (Task × Fin T) := ∑ w, (phase w).carried w

theorem inPending_update (pending : Fin T → List Task) (w : Fin T) (tasks : List Task) :
    inPending (Function.update pending w tasks) + tagged w (pending w : Multiset Task) =
      inPending pending + tagged w (tasks : Multiset Task) :=
  Workers.sum_update_at (fun i (l : List Task) => tagged i (l : Multiset Task)) pending w tasks

theorem inHands_update (phase : Fin T → Phase T σ Task) (w : Fin T) (next : Phase T σ Task) :
    inHands (Function.update phase w next) + (phase w).carried w = inHands phase + next.carried w :=
  Workers.sum_update_at (fun i phase => Phase.carried i phase) phase w next

section Deques

/-- The local queues represent these deques. -/
def Represented (p : Pool T σ Task) (d : Fin T → Deque (Fin T) Task) : Prop :=
  ∀ i, LifoQueue.Represents (p.localQueue i) (d i)

variable {p : Pool T σ Task} {d : Fin T → Deque (Fin T) Task}

theorem Represented.congr {q : Pool T σ Task} (h : Represented p d)
    (hlocal : q.localQueue = p.localQueue) : Represented q d := by
  intro i
  rw [hlocal]
  exact h i

variable [DecidableEq Task]

/-- What is left over of a range is the end of it. -/
theorem Represented.suffix (h : Represented p d) {v : Fin T} {values rest : List Task}
    {s : LifoQueue.State (Fin T) Task}
    (hstep : LifoQueue.step (p.localQueue v) (.pushAll values rest) = some s) : rest <:+ values := by
  obtain ⟨dv, hdv, -⟩ := LifoQueue.step_represents (h v) hstep
  simp only [StealDeque.step] at hdv
  split at hdv
  · assumption
  · cases hdv

/-- An operation on a local queue brings in and out what its event says. -/
theorem Represented.step (h : Represented p d) {v : Fin T} {e : StealDeque.Event (Fin T) Task}
    {s : LifoQueue.State (Fin T) Task} (hstep : LifoQueue.step (p.localQueue v) e = some s) :
    ∃ d', Represented (p.setLocal v s) d' ∧
      tagged v (entered e) + inLocal d = tagged v (left e) + inLocal d' := by
  obtain ⟨dv, hdv, hrep⟩ := LifoQueue.step_represents (h v) hstep
  refine ⟨Function.update d v dv, fun i => ?_, ?_⟩
  · by_cases hi : i = v
    · subst hi
      simpa [setLocal] using hrep
    · simpa [setLocal, hi] using h i
  · have hinside := congrArg (tagged v) (step_inside hdv)
    have hsum : inLocal (Function.update d v dv) + tagged v (inside (d v)) =
        inLocal d + tagged v (inside dv) :=
      Workers.sum_update_at (fun i dq => tagged i (inside dq)) d v dv
    rw [tagged_add, tagged_add] at hinside
    apply add_right_cancel (b := tagged v (inside (d v)))
    calc tagged v (entered e) + inLocal d + tagged v (inside (d v))
        = (tagged v (entered e) + tagged v (inside (d v))) + inLocal d := add_right_comm _ _ _
      _ = tagged v (left e) + (inLocal d + tagged v (inside dv)) := by rw [hinside]; abel
      _ = tagged v (left e) + inLocal (Function.update d v dv) + tagged v (inside (d v)) := by
        rw [← hsum, add_assoc]

end Deques

section Nodes

variable [Fintype σ]

def inRemote (remote : Actor T σ → Fin T → List Task) : Multiset (Task × Fin T) :=
  ∑ node, ∑ i, tagged i (remote node i : Multiset Task)

/-- All places where a task can be that has not been executed. -/
def unexecuted (p : Pool T σ Task) (d : Fin T → Deque (Fin T) Task) : Multiset (Task × Fin T) :=
  inRemote p.remote + inPending p.pendingQueue + inLocal d + inHands p.phase

/-- What has been handed in has been executed or is in one of the places. -/
def Conserved (p : Pool T σ Task) (d : Fin T → Deque (Fin T) Task) : Prop :=
  Represented p d ∧
    (p.enqueued : Multiset (Task × Fin T)) = unexecuted p d + (p.executed : Multiset (Task × Fin T))

theorem Conserved.goto {p : Pool T σ Task} {d : Fin T → Deque (Fin T) Task} (h : Conserved p d)
    {w : Fin T} {phase : Phase T σ Task} (hw : phase.carried w = (p.phase w).carried w) :
    Conserved (p.goto w phase) d := by
  have hhands := inHands_update p.phase w phase
  rw [hw] at hhands
  refine ⟨h.1.congr rfl, h.2.trans ?_⟩
  simp only [unexecuted, Pool.goto, add_right_cancel hhands]

theorem start_conserved {numBlocks blockSize : Nat} (hpos : 0 < blockSize) :
    Conserved (start T σ Task numBlocks blockSize) fun _ => StealDeque.empty := by
  refine ⟨fun _ => LifoQueue.start_represents numBlocks hpos, ?_⟩
  simp [unexecuted, start, inRemote, inPending, inLocal, inHands, inside, StealDeque.empty,
    Phase.carried, tagged]

variable [DecidableEq σ]

theorem inRemote_update (remote : Actor T σ → Fin T → List Task) (node : Actor T σ) (i : Fin T)
    (tasks : List Task) :
    inRemote (Function.update remote node (Function.update (remote node) i tasks)) +
        tagged i (remote node i : Multiset Task) =
      inRemote remote + tagged i (tasks : Multiset Task) := by
  have hnode := Workers.sum_update (fun queues : Fin T → List Task =>
    ∑ i, tagged i (queues i : Multiset Task)) remote node (Function.update (remote node) i tasks)
  have hqueue := Workers.sum_update_at (fun i (l : List Task) => tagged i (l : Multiset Task))
    (remote node) i tasks
  apply add_right_cancel (b := ∑ j, tagged j (remote node j : Multiset Task))
  rw [add_right_comm]
  refine (congrArg (· + tagged i (remote node i : Multiset Task)) hnode).trans ?_
  rw [add_assoc, hqueue, ← add_assoc, add_right_comm]
  rfl

variable [DecidableEq Task] {numaNode : Fin T → Int} {p p' q : Pool T σ Task}
  {d : Fin T → Deque (Fin T) Task} {w : Fin T} {phase : Phase T σ Task}

/-- A step of `pop` or `run` moves tasks from one place to another. -/
theorem Popped.moves (h : Popped numaNode p w phase q) (hd : Represented p d) :
    ∃ d', Represented q d' ∧ q.enqueued = p.enqueued ∧
      unexecuted q d' + phase.carried w + (q.executed : Multiset (Task × Fin T)) =
        unexecuted p d + (p.phase w).carried w + (p.executed : Multiset (Task × Fin T)) := by
  cases h with
  | took here hstep =>
    obtain ⟨d', hd', hlocal⟩ := hd.step hstep
    have hold : (p.phase w).carried w = 0 := by
      rcases here with here | ⟨_, here⟩ <;> rw [here] <;> rfl
    refine ⟨d', hd', rfl, ?_⟩
    simp only [entered, left, Option.toList, Multiset.coe_singleton, tagged_singleton,
      tagged_zero, zero_add] at hlocal
    simp only [unexecuted, setLocal, hlocal, hold, Phase.carried_running]
    abel
  | empty here hstep | lost here hstep =>
    obtain ⟨d', hd', hlocal⟩ := hd.step hstep
    have hold : (p.phase w).carried w = 0 := by
      rw [here]
      rfl
    refine ⟨d', hd', rfl, ?_⟩
    simp only [entered, left, Option.toList, Multiset.coe_nil, tagged_zero, zero_add] at hlocal
    simp [unexecuted, setLocal, hlocal, hold]
  | @collected node walk tasks asleep here =>
    have hremote := inRemote_update p.remote node w []
    refine ⟨d, hd, rfl, ?_⟩
    simp only [Multiset.coe_nil, tagged_zero, add_zero] at hremote
    simp only [here, unexecuted, setRemote, Phase.carried_collect, tagged_append,
      Multiset.coe_reverse, ← hremote]
    abel
  | @noTasks asleep here _ =>
    refine ⟨d, hd, rfl, ?_⟩
    simp [here]
  | @appended tasks asleep here _ =>
    have hpending := inPending_update p.pendingQueue w (p.pendingQueue w ++ tasks)
    rw [tagged_append, ← add_assoc, add_right_comm] at hpending
    have hnew : (.move asleep : Phase T σ Task).carried w = 0 := rfl
    refine ⟨d, hd, rfl, ?_⟩
    simp only [here, unexecuted, setPending, Phase.carried_collect, hnew,
      add_right_cancel hpending]
    abel
  | @moved asleep rest s here hstep =>
    obtain ⟨d', hd', hlocal⟩ := hd.step hstep
    have hpending := inPending_update p.pendingQueue w rest
    have hold : (.move asleep : Phase T σ Task).carried w = 0 := rfl
    have hnew : (.popMoved asleep : Phase T σ Task).carried w = 0 := rfl
    refine ⟨d', hd', rfl, ?_⟩
    obtain ⟨values, hvalues⟩ := hd.suffix hstep
    rw [← hvalues] at hlocal
    simp only [entered, left, taken_append, tagged_zero, zero_add] at hlocal
    rw [← hvalues, tagged_append, ← add_assoc] at hpending
    simp only [here, unexecuted, setLocal, setPending, hold, hnew, ← hlocal, ← add_right_cancel hpending]
    abel
  | thief here | gaveUp _ here | stopped here | locked here | dozed here | kept here
  | slept here | woken here | awake _ here | stored here =>
    refine ⟨d, hd.congr ?_, ?_, ?_⟩
    · rfl
    · rfl
    · simp only [here, unexecuted, setNotifying, setStatus]
      rfl
  | @alone near i here =>
    have hold : (.stealing near i : Phase T σ Task).carried w = 0 := rfl
    exact ⟨d, hd, rfl, by rw [here, hold, Phase.carried_nextSteal]⟩
  | @claimed near i v s here _ hstep =>
    obtain ⟨d', hd', hlocal⟩ := hd.step hstep
    have hold : (.stealing near i : Phase T σ Task).carried w = 0 := rfl
    have hnew : (.stolen near i v : Phase T σ Task).carried w = 0 := rfl
    refine ⟨d', hd', rfl, ?_⟩
    simp only [entered, left, tagged_zero, zero_add] at hlocal
    simp only [here, unexecuted, setLocal, hlocal, hold, hnew]
  | nothing here _ hstep | readNull here hstep =>
    obtain ⟨d', hd', hlocal⟩ := hd.step hstep
    have hold : (p.phase w).carried w = 0 := by
      rw [here]
      rfl
    refine ⟨d', hd', rfl, ?_⟩
    simp only [entered, left, Option.toList, Multiset.coe_nil, tagged_zero, zero_add] at hlocal
    simp [unexecuted, setLocal, hlocal, hold]
  | @read near i v task s here hstep =>
    obtain ⟨d', hd', hlocal⟩ := hd.step hstep
    have hold : (p.phase w).carried w = 0 := by
      rw [here]
      rfl
    refine ⟨d', hd', rfl, ?_⟩
    simp only [entered, left, Option.toList, Multiset.coe_singleton, tagged_singleton,
      tagged_zero, zero_add] at hlocal
    simp only [unexecuted, setLocal, hlocal, hold, Phase.carried_clearStealing]
    abel
  | @gotTask task queueIndex targets here =>
    refine ⟨d, hd, rfl, ?_⟩
    rw [here]
    rfl
  | @executed task queueIndex here =>
    refine ⟨d, hd, rfl, ?_⟩
    have hnew : (.tryPop : Phase T σ Task).carried w = 0 := rfl
    simp only [here, unexecuted, Phase.carried_running, hnew, ← Multiset.coe_add,
      Multiset.coe_singleton]
    abel

theorem Popped.conserved (h : Popped numaNode p w phase q) (hc : Conserved p d) :
    ∃ d', Conserved (q.goto w phase) d' := by
  obtain ⟨d', hd', henq, hmoves⟩ := h.moves hc.1
  have hhands := inHands_update p.phase w phase
  refine ⟨d', hd'.congr rfl, ?_⟩
  have hsum : unexecuted (q.goto w phase) d' + (p.phase w).carried w =
      unexecuted q d' + phase.carried w := by
    simp only [unexecuted, Pool.goto, h.phase_eq, add_assoc, hhands]
  have henq' : (q.goto w phase).enqueued = p.enqueued := henq
  rw [henq', hc.2]
  apply add_right_cancel (b := (p.phase w).carried w)
  calc unexecuted p d + p.executed + (p.phase w).carried w
      = unexecuted p d + (p.phase w).carried w + p.executed := add_right_comm _ _ _
    _ = unexecuted q d' + phase.carried w + q.executed := hmoves.symm
    _ = unexecuted (q.goto w phase) d' + q.executed + (p.phase w).carried w := by
      rw [← hsum, add_right_comm]

theorem Stepped.conserved (h : Stepped numaNode p p') (hc : Conserved p d) :
    ∃ d', Conserved p' d' := by
  cases h with
  | popped _ hpop => exact hpop.conserved hc
  | notified hn =>
    cases hn with
    | sleeping | awake | locked => exact ⟨d, hc⟩
    | signalled => exact ⟨d, hc.goto (Phase.carried_signal _ _)⟩
  | weakFails here | spurious here =>
    refine ⟨d, hc.goto ?_⟩
    rw [here]
    rfl
  | registered => exact ⟨d, hc⟩
  | @submitted a node i tasks =>
    have hremote := inRemote_update p.remote node i (tasks ++ p.remote node i)
    rw [tagged_append, ← add_assoc] at hremote
    refine ⟨d, hc.1, ?_⟩
    simp only [unexecuted, setRemote, setNotifying, add_right_cancel hremote, ← Multiset.coe_add,
      hc.2, coe_map_tag]
    abel
  | @pushed w task s pending ok _ hpush hpending =>
    obtain ⟨d', hd', hlocal⟩ := hc.1.step hpush
    have hupdate := inPending_update p.pendingQueue w pending
    refine ⟨d', hd', ?_⟩
    cases ok with
    | true =>
      subst hpending
      simp only [entered, left, tagged_singleton, tagged_zero, zero_add] at hlocal
      simp only [unexecuted, setLocal, setPending, if_true, Function.update_eq_self, ← hlocal,
        ← Multiset.coe_add, hc.2, Multiset.coe_singleton]
      abel
    | false =>
      subst hpending
      simp only [entered, left, tagged_zero, zero_add] at hlocal
      simp only [Bool.false_eq_true, if_false, tagged_append, ← add_assoc] at hupdate
      rw [add_right_comm] at hupdate
      simp only [unexecuted, setLocal, setPending, Bool.false_eq_true, if_false, ← hlocal,
        add_right_cancel hupdate, ← Multiset.coe_add, hc.2, Multiset.coe_singleton,
        tagged_singleton]
      abel
  | @prepended w tasks =>
    have hpending := inPending_update p.pendingQueue w (tasks ++ p.pendingQueue w)
    rw [tagged_append, ← add_assoc] at hpending
    refine ⟨d, hc.1, ?_⟩
    simp only [unexecuted, setPending, add_right_cancel hpending, ← Multiset.coe_add, hc.2,
      coe_map_tag]
    abel
  | stopRequested => exact ⟨d, hc⟩

end Nodes

section Runs

variable [DecidableEq σ] [Fintype σ] [DecidableEq Task] {numaNode : Fin T → Int}
  {numBlocks blockSize : Nat} {es : List (Event T σ Task)} {p : Pool T σ Task}

theorem run_conserved (hpos : 0 < blockSize)
    (h : run (step numaNode) (start T σ Task numBlocks blockSize) es = some p) :
    Handed p ∧ ∃ d, Conserved p d :=
  run_stepped (I := fun p => ∃ d, Conserved p d) ⟨_, start_conserved hpos⟩
    (fun _ _ _ ⟨_, hc⟩ hstep => hstep.conserved hc) h

/-- With blocks that are not empty, and in whatever order the steps of the threads come, every task
is executed at most as often as it has been handed in, and with the index of the queue it was handed
in to; and it has not been executed exactly as long as it is in one of the places of the pool. -/
theorem tasks_run_once (hpos : 0 < blockSize)
    (h : run (step numaNode) (start T σ Task numBlocks blockSize) es = some p) :
    (p.executed : Multiset (Task × Fin T)) ≤ es.flatMap Event.handedIn ∧
    ((es.flatMap Event.handedIn).Nodup → p.executed.Nodup) ∧
    ∃ d, Represented p d ∧ (es.flatMap Event.handedIn : Multiset (Task × Fin T)) =
      unexecuted p d + (p.executed : Multiset (Task × Fin T)) := by
  obtain ⟨-, d, hd, hsum⟩ := run_conserved hpos h
  rw [run_enqueued h] at hsum
  have hle : (p.executed : Multiset (Task × Fin T)) ≤ es.flatMap Event.handedIn := by
    rw [hsum]
    exact Multiset.le_add_left _ _
  exact ⟨hle, fun hnodup => Multiset.coe_nodup.mp (Multiset.nodup_of_le hle hnodup), d, hd, hsum⟩

end Runs

/-- A task for the first of two threads. -/
theorem tasks_run_once_two : ∃ p, run (step fun _ => 0) (start 2 Unit Nat 4 1)
      [.getRemoteQueue (.outsider ()), .submit (.outsider ()) (.outsider ()) 0 [7], .worker 0 0,
        .worker 0 0, .worker 0 0, .worker 0 0, .worker 0 0, .worker 0 0] = some p ∧
    p.executed = [(7, 0)] ∧ p.executed.Nodup := by
  obtain ⟨p, hp, hexecuted⟩ : ∃ p, run (step fun _ => 0) (start 2 Unit Nat 4 1)
        [.getRemoteQueue (.outsider ()), .submit (.outsider ()) (.outsider ()) 0 [7], .worker 0 0,
          .worker 0 0, .worker 0 0, .worker 0 0, .worker 0 0, .worker 0 0] = some p ∧
      p.executed = [(7, 0)] := by
    rw [start, LifoQueue.start_four]
    exact ⟨_, rfl, rfl⟩
  exact ⟨p, hp, hexecuted, (tasks_run_once Nat.one_pos hp).2.1 (by simp [Event.handedIn])⟩

end Pool
