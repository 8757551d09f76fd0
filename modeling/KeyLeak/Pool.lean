import Mathlib.Data.Fintype.Sum
import Mathlib.Tactic.DeriveFintype
import KeyLeak.LifoDeque

/-!
# The threads of a static thread pool

A pool thread takes tasks from its own queue, from the remote queues that other threads push
to, and from the queues of other pool threads; when there are none it sleeps until it is
notified. The threads interleave as they like. A step is one access of one thread to an atomic, the
atomics being sequentially consistent, or one whole operation on a queue: `pop_back`, `push_back` of
a task or of a range, a thief's `steal_front` up to its claim, its reading of the slot, and each
operation on a remote queue or on the list of them.
-/
namespace Pool

inductive Actor (T : Nat) (σ : Type) where
  /-- A thread of the pool. -/
  | worker (w : Fin T)
  | outsider (s : σ)
  deriving DecidableEq, Fintype

/-- `thread_state::state` -/
inductive Status where
  | running
  | stealing
  | sleeping
  | notified
  deriving DecidableEq, Repr

inductive Stage where
  /-- Before `state_.exchange(state::notified)`. -/
  | exchange
  /-- Before the mutex is locked and unlocked. -/
  | lock
  /-- Before `cv_.notify_one()`. -/
  | signal
  deriving DecidableEq, Repr

/-- A thread in `notify` on `target`; where that one was not sleeping, the others follow. -/
structure Notify (T : Nat) where
  stage : Stage
  target : Fin T
  others : List (Fin T)
  deriving DecidableEq, Repr

def startNotify {T : Nat} : List (Fin T) → Option (Notify T)
  | [] => none
  | target :: others => some ⟨.exchange, target, others⟩

/-- Where a pool thread is in `run` and `pop`. In a phase with a flag `asleep`, the flag says
that `try_remote` has been called after `state_` was set to `sleeping`. -/
inductive Phase (T : Nat) (σ Task : Type) where
  | tryPop
  /-- In `pop_all_reversed`, with the remote queues of `walk` to come. -/
  | collect (walk : List (Actor T σ)) (tasks : List Task) (asleep : Bool)
  /-- In `move_pending_to_local`. -/
  | move (asleep : Bool)
  | popMoved (asleep : Bool)
  | setStealing
  | stealing (near : Bool) (i : Nat)
  /-- A slot of the victim has been claimed and not read. -/
  | stolen (near : Bool) (i : Nat) (victim : Fin T)
  | clearStealing (result : Option (Task × Fin T))
  /-- Before the mutex is locked. -/
  | lock
  | compareExchange
  | setSleeping
  | waiting (signalled : Bool)
  | clearSleeping
  /-- Before `state_.store(state::running)`. -/
  | store
  /-- In `__execute`. -/
  | running (task : Task) (queueIndex : Fin T)
  | exited

namespace Phase

variable {T : Nat} {σ Task : Type}

def holdsMutex : Phase T σ Task → Bool
  | .collect _ _ asleep | .move asleep | .popMoved asleep => asleep
  | .compareExchange | .setSleeping => true
  | _ => false

def isRunning : Phase T σ Task → Bool
  | .running .. => true
  | _ => false

/-- What `cv_.notify_one()` does. -/
def signal : Phase T σ Task → Phase T σ Task
  | .waiting _ => .waiting true
  | phase => phase

/-- Where `pop` goes on when `try_remote` finds nothing. -/
def missed (asleep : Bool) : Phase T σ Task := if asleep then .setSleeping else .setStealing

/-- The next round of the two loops over `maxSteals_`. -/
def nextSteal (near : Bool) (i : Nat) : Phase T σ Task :=
  if i + 1 < T + 1 then .stealing near (i + 1)
  else if near then .stealing false 0
  else .clearStealing none

end Phase

end Pool

/-- `enqueued` and `executed` record the tasks handed in, with the queue they went to, and
the calls of `__execute`, with the index they were given. -/
structure Pool (T : Nat) (σ Task : Type) where
  /-- The threads that have a remote queue, newest first. -/
  nodes : List (Pool.Actor T σ)
  remote : Pool.Actor T σ → Fin T → List Task
  status : Fin T → Pool.Status
  stopRequested : Fin T → Bool
  pendingQueue : Fin T → List Task
  localQueue : Fin T → LifoQueue.State (Fin T) Task
  phase : Fin T → Pool.Phase T σ Task
  notifying : Pool.Actor T σ → Option (Pool.Notify T)
  numActive : UInt32
  enqueued : List (Task × Fin T)
  executed : List (Task × Fin T)

namespace Pool

variable {T : Nat} {σ Task : Type}

def start (T : Nat) (σ Task : Type) (numBlocks blockSize : Nat) : Pool T σ Task where
  nodes := []
  remote := fun _ _ => []
  status := fun _ => .running
  stopRequested := fun _ => false
  pendingQueue := fun _ => []
  localQueue := fun _ => LifoQueue.start numBlocks blockSize
  phase := fun _ => .tryPop
  notifying := fun _ => none
  numActive := UInt32.ofNat T <<< 16
  enqueued := []
  executed := []

/-- `numActive_` counts the thieves in its lower half. The upper half is for the threads that
neither steal nor sleep, those that have returned among them. -/
def oneVictim : UInt32 := (1 : UInt32) <<< (16 : UInt32)

section Updates

variable (p : Pool T σ Task)

def goto (w : Fin T) (phase : Phase T σ Task) : Pool T σ Task :=
  { p with phase := Function.update p.phase w phase }

def setStatus (i : Fin T) (status : Status) : Pool T σ Task :=
  { p with status := Function.update p.status i status }

def setPending (w : Fin T) (tasks : List Task) : Pool T σ Task :=
  { p with pendingQueue := Function.update p.pendingQueue w tasks }

def setLocal (v : Fin T) (s : LifoQueue.State (Fin T) Task) : Pool T σ Task :=
  { p with localQueue := Function.update p.localQueue v s }

/-- The owner has worked on its queue. -/
def setQueue (w : Fin T) (q : LifoQueue.Queue Task) : Pool T σ Task :=
  p.setLocal w { p.localQueue w with queue := q }

variable [DecidableEq σ]

def setRemote (node : Actor T σ) (i : Fin T) (tasks : List Task) : Pool T σ Task :=
  { p with remote := Function.update p.remote node (Function.update (p.remote node) i tasks) }

def setNotifying (a : Actor T σ) (n : Option (Notify T)) : Pool T σ Task :=
  { p with notifying := Function.update p.notifying a n }

end Updates

/-- The other threads, from `startIndex` around. -/
def othersFrom (w startIndex : Fin T) : List (Fin T) :=
  ((List.finRange T).map fun i => startIndex + i).filter fun index => index ≠ w

/-- `near_victims_` and `all_victims_` -/
def victims (numaNode : Fin T → Int) (w : Fin T) (near : Bool) : List (Fin T) :=
  (List.finRange T).filter fun v => v ≠ w ∧ (near → numaNode v = numaNode w)

section Step

variable [DecidableEq σ] (numaNode : Fin T → Int) (p : Pool T σ Task)

/-- `choice` is the start index the thread draws. -/
def notifyOneSleeping (w : Fin T) (choice : Nat) : Option (Pool T σ Task) :=
  if h : choice < T then
    some (p.setNotifying (.worker w) (startNotify (othersFrom w ⟨choice, h⟩)))
  else
    none

/-- One step of `notify`; `none` while the mutex is held. -/
def notifyStep (a : Actor T σ) (n : Notify T) : Option (Pool T σ Task) :=
  match n.stage with
  | .exchange =>
    let next := if p.status n.target = .sleeping then some { n with stage := .lock }
      else startNotify n.others
    some ((p.setStatus n.target .notified).setNotifying a next)
  | .lock =>
    if (p.phase n.target).holdsMutex then none
    else some (p.setNotifying a (some { n with stage := .signal }))
  | .signal => some ((p.goto n.target (p.phase n.target).signal).setNotifying a none)

/-- One step of pool thread `w`; `choice` is what its random numbers give, if it draws one. -/
def popStep (w : Fin T) (choice : Nat) : Option (Pool T σ Task) :=
  match p.phase w with
  | .tryPop => (p.localQueue w).queue.popBack.map fun (result, q) =>
    (p.setQueue w q).goto w <| match result with
      | some task => .running task w
      | none => .collect p.nodes [] false
  | .collect (node :: walk) tasks asleep =>
    some ((p.setRemote node w []).goto w
      (.collect walk (tasks ++ (p.remote node w).reverse) asleep))
  | .collect [] tasks asleep =>
    let pending := p.pendingQueue w ++ tasks
    some ((p.setPending w pending).goto w
      (if pending.isEmpty then .missed asleep else .move asleep))
  | .move asleep => ((p.localQueue w).queue.pushAll (p.pendingQueue w)).map fun (rest, q) =>
    ((p.setQueue w q).setPending w rest).goto w (.popMoved asleep)
  | .popMoved asleep => (p.localQueue w).queue.popBack.map fun (result, q) =>
    (p.setQueue w q).goto w <| match result with
      | some task => .running task w
      | none => .missed asleep
  | .setStealing =>
    some ({ p with numActive := p.numActive + (1 - oneVictim) }.goto w (.stealing true 0))
  | .stealing near i =>
    match victims numaNode w near with
    | [] => some (p.goto w (.nextSteal near i))
    | v :: vs => (v :: vs)[choice]?.bind fun v =>
      (p.localQueue v).queue.stealFront.map fun (slot, q) =>
        (p.setLocal v ⟨q, Function.update (p.localQueue v).hand w slot⟩).goto w <| match slot with
          | some _ => .stolen near i v
          | none => .nextSteal near i
  | .stolen near i v => ((p.localQueue v).hand w).map fun slot =>
    let (result, q) := (p.localQueue v).queue.readSlot slot
    (p.setLocal v ⟨q, Function.update (p.localQueue v).hand w none⟩).goto w <| match result with
      | some task => .clearStealing (some (task, v))
      | none => .nextSteal near i
  | .clearStealing result =>
    let numVictims := p.numActive >>> 16
    let numThiefs := p.numActive &&& 0xffff
    let p := { p with numActive := p.numActive - (1 - oneVictim) }.goto w <| match result with
      | some (task, queueIndex) => .running task queueIndex
      | none => .lock
    if numThiefs = 1 ∧ numVictims ≠ 0 then p.notifyOneSleeping w choice else some p
  | .lock => some (p.goto w (if p.stopRequested w then .exited else .compareExchange))
  | .compareExchange =>
    if p.status w = .running then
      some ((p.setStatus w .sleeping).goto w (.collect p.nodes [] true))
    else
      some (p.goto w .store)
  | .setSleeping => some ({ p with numActive := p.numActive - oneVictim }.goto w (.waiting false))
  | .waiting true => some (p.goto w .clearSleeping)
  | .clearSleeping =>
    let numActive := p.numActive
    let p := { p with numActive := p.numActive + oneVictim }.goto w .store
    if numActive = 0 then p.notifyOneSleeping w choice else some p
  | .store => some ((p.setStatus w .running).goto w .tryPop)
  | .running task queueIndex =>
    some ({ p with executed := p.executed ++ [(task, queueIndex)] }.goto w .tryPop)
  | .waiting false | .exited => none

inductive Event (T : Nat) (σ Task : Type) where
  | worker (w : Fin T) (choice : Nat)
  /-- A step of `notify` on a thread from outside. -/
  | outsider (s : σ)
  /-- `compare_exchange_weak` fails although `state_` is `running`. -/
  | weakFails (w : Fin T)
  /-- `cv_.wait` returns although nobody has notified it. -/
  | spurious (w : Fin T)
  /-- `get_remote_queue` -/
  | getRemoteQueue (a : Actor T σ)
  /-- `push_front` or `prepend` to queue `i` of a remote queue, before `notify`. -/
  | submit (a node : Actor T σ) (i : Fin T) (tasks : List Task)
  | pushLocal (w : Fin T) (task : Task)
  | pushLocalAll (w : Fin T) (tasks : List Task)
  /-- `request_stop` on thread `i`, before `cv_.notify_one()`. -/
  | requestStop (a : Actor T σ) (i : Fin T)

/-- A thread of the pool calls its functions from inside a task. -/
def mayAct (a : Actor T σ) : Bool :=
  (p.notifying a).isNone && match a with
    | .worker w => (p.phase w).isRunning
    | .outsider _ => true

def step : Event T σ Task → Option (Pool T σ Task)
  | .worker w choice =>
    match p.notifying (.worker w) with
    | some n => p.notifyStep (.worker w) n
    | none => p.popStep numaNode w choice
  | .outsider s => (p.notifying (.outsider s)).bind fun n => p.notifyStep (.outsider s) n
  | .weakFails w =>
    match p.phase w with
    | .compareExchange => some (p.goto w .store)
    | _ => none
  | .spurious w =>
    match p.phase w with
    | .waiting _ => some (p.goto w (.waiting true))
    | _ => none
  | .getRemoteQueue a =>
    if p.mayAct a then some { p with nodes := if a ∈ p.nodes then p.nodes else a :: p.nodes }
    else none
  | .submit a node i tasks =>
    if p.mayAct a ∧ node ∈ p.nodes then
      some ({ p with enqueued := p.enqueued ++ tasks.map (·, i) }.setRemote node i
        (tasks ++ p.remote node i) |>.setNotifying a (some ⟨.exchange, i, []⟩))
    else
      none
  | .pushLocal w task =>
    if p.mayAct (.worker w) then
      ((p.localQueue w).queue.pushBack task).map fun (ok, q) =>
        ({ p with enqueued := p.enqueued ++ [(task, w)] }.setQueue w q).setPending w
          (if ok then p.pendingQueue w else p.pendingQueue w ++ [task])
    else
      none
  | .pushLocalAll w tasks =>
    if p.mayAct (.worker w) then
      some ({ p with enqueued := p.enqueued ++ tasks.map (·, w) }.setPending w
        (tasks ++ p.pendingQueue w))
    else
      none
  | .requestStop a i =>
    if p.mayAct a ∧ !(p.phase i).holdsMutex then
      some ({ p with stopRequested := Function.update p.stopRequested i true }.setNotifying a
        (some ⟨.signal, i, []⟩))
    else
      none

end Step

end Pool
