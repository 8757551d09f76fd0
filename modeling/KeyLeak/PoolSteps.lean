import KeyLeak.Pool

/-!
# What a step of the pool can do

The cases of `pop`, `run` and `notify`, with the operations on the work-stealing queues
as events of those queues. The invariants of the pool are all read off from here.
-/
namespace Pool

variable {T : Nat} {σ Task : Type} {numaNode : Fin T → Int}

@[simp] theorem setPending_self (p : Pool T σ Task) (w : Fin T) :
    p.setPending w (p.pendingQueue w) = p := by
  rw [setPending, Function.update_eq_self]

theorem mem_victims {w v : Fin T} {near : Bool} (h : v ∈ victims numaNode w near) : v ≠ w :=
  (of_decide_eq_true (List.mem_filter.mp h).2).1

/-- A thread that is not notifying another and, if it is of the pool, is inside a task. -/
structure Free (p : Pool T σ Task) (a : Actor T σ) : Prop where
  silent : p.notifying a = none
  running : ∀ w, a = .worker w → (p.phase w).isRunning

theorem mayAct_free {p : Pool T σ Task} {a : Actor T σ} (h : p.mayAct a) : Free p a := by
  obtain ⟨hnone, hrunning⟩ := Bool.and_eq_true_iff.mp h
  refine ⟨Option.isNone_iff_eq_none.mp hnone, fun w hw => ?_⟩
  subst hw
  exact hrunning

/-- The thread whose queue a claimed slot is in. -/
def Phase.victim : Phase T σ Task → Option (Fin T)
  | .stolen _ _ v => some v
  | _ => none

theorem Phase.victim_missed (asleep : Bool) :
    (Phase.missed asleep : Phase T σ Task).victim = none := by
  cases asleep <;> rfl

theorem Phase.victim_nextSteal (near : Bool) (i : Nat) :
    (Phase.nextSteal near i : Phase T σ Task).victim = none := by
  unfold Phase.nextSteal
  split
  · rfl
  · split <;> rfl

theorem Phase.victim_signal (phase : Phase T σ Task) : phase.signal.victim = phase.victim := by
  cases phase <;> rfl

/-- The slots claimed are those of the threads that are about to read them. -/
def Handed (p : Pool T σ Task) : Prop :=
  ∀ t v, ((p.localQueue v).hand t).isSome ↔ (p.phase t).victim = some v

theorem Handed.none_of {p : Pool T σ Task} (h : Handed p) {t : Fin T}
    (ht : (p.phase t).victim = none) (v : Fin T) : (p.localQueue v).hand t = none := by
  rw [← Option.not_isSome_iff_eq_none, h t v, ht]
  simp

theorem Handed.congr {p q : Pool T σ Task} (h : Handed p) (hlocal : q.localQueue = p.localQueue)
    (hphase : q.phase = p.phase) : Handed q := by
  intro t v
  rw [hlocal, hphase]
  exact h t v

/-- A thread goes from one phase to another, both without a claimed slot. -/
theorem Handed.move {p : Pool T σ Task} (h : Handed p) {w : Fin T} {phase : Phase T σ Task}
    (hold : (p.phase w).victim = none) (hnew : phase.victim = none) : Handed (p.goto w phase) := by
  intro t v
  by_cases ht : t = w
  · subst ht
    simpa [goto, hold, hnew] using h t v
  · simpa [goto, ht] using h t v

theorem start_handed (numBlocks blockSize : Nat) :
    Handed (start T σ Task numBlocks blockSize) := by
  intro t v
  simp [start, LifoQueue.start, Phase.victim]

section Hands

variable [DecidableEq Task] {p : Pool T σ Task} {w : Fin T}

theorem Handed.owner (h : Handed p) {v : Fin T} {e : StealDeque.Event (Fin T) Task}
    {s : LifoQueue.State (Fin T) Task} (hstep : LifoQueue.step (p.localQueue v) e = some s)
    (he : LifoQueue.thief e = none) : Handed (p.setLocal v s) := by
  intro t u
  by_cases hu : u = v
  · subst hu
    simpa [setLocal, LifoQueue.step_hand hstep (by simp [he])] using h t u
  · simpa [setLocal, hu] using h t u

/-- A thief's operation leaves the other hands as they are. -/
theorem Handed.thief (h : Handed p) {v : Fin T} {e : StealDeque.Event (Fin T) Task}
    {s : LifoQueue.State (Fin T) Task} (hstep : LifoQueue.step (p.localQueue v) e = some s)
    (he : LifoQueue.thief e = some w) {phase : Phase T σ Task}
    (hown : (s.hand w).isSome ↔ phase.victim = some v)
    (hothers : ∀ u, u ≠ v → ((p.phase w).victim = some u ↔ phase.victim = some u)) :
    Handed ((p.setLocal v s).goto w phase) := by
  intro t u
  by_cases ht : t = w
  · subst ht
    by_cases hu : u = v
    · subst hu
      simpa [goto, setLocal] using hown
    · simpa [goto, setLocal, hu] using (h t u).trans (hothers u hu)
  · have hne : LifoQueue.thief e ≠ some t := by
      rw [he]
      exact fun heq => ht (Option.some.inj heq).symm
    by_cases hu : u = v
    · subst hu
      simpa [goto, setLocal, ht, LifoQueue.step_hand hstep hne] using h t u
    · simpa [goto, setLocal, ht, hu] using h t u

end Hands

variable [DecidableEq σ]

theorem notifyOneSleeping_some {p p' : Pool T σ Task} {w : Fin T} {choice : Nat}
    (h : p.notifyOneSleeping w choice = some p') :
    ∃ targets, p' = p.setNotifying (.worker w) (startNotify targets) := by
  unfold notifyOneSleeping at h
  split at h <;> cases h
  exact ⟨_, rfl⟩

theorem setNotifying_none {p : Pool T σ Task} {a : Actor T σ} (h : p.notifying a = none) :
    p.setNotifying a (startNotify []) = p := by
  rw [setNotifying, startNotify, ← h, Function.update_eq_self]

/-- Whether it calls `notify_one_sleeping` or not. -/
theorem notifyOneSleeping_ite {p p' : Pool T σ Task} {w : Fin T} {choice : Nat} {c : Prop}
    [Decidable c] (h : (if c then p.notifyOneSleeping w choice else some p) = some p')
    (hn : p.notifying (.worker w) = none) :
    ∃ targets, p' = p.setNotifying (.worker w) (startNotify targets) := by
  split at h
  · exact notifyOneSleeping_some h
  · cases h
    exact ⟨[], (setNotifying_none hn).symm⟩

/-- What a step of `notify` does. -/
inductive Notified (p : Pool T σ Task) (a : Actor T σ) : Pool T σ Task → Prop where
  | sleeping {i others} (here : p.notifying a = some ⟨.exchange, i, others⟩)
      (hstatus : p.status i = .sleeping) :
      Notified p a ((p.setStatus i .notified).setNotifying a (some ⟨.lock, i, others⟩))
  | awake {i others} (here : p.notifying a = some ⟨.exchange, i, others⟩)
      (hstatus : p.status i ≠ .sleeping) :
      Notified p a ((p.setStatus i .notified).setNotifying a (startNotify others))
  | locked {i others} (here : p.notifying a = some ⟨.lock, i, others⟩)
      (hfree : (p.phase i).holdsMutex = false) :
      Notified p a (p.setNotifying a (some ⟨.signal, i, others⟩))
  | signalled {i others} (here : p.notifying a = some ⟨.signal, i, others⟩) :
      Notified p a ((p.goto i (p.phase i).signal).setNotifying a none)

theorem notifyStep_notified {p p' : Pool T σ Task} {a : Actor T σ} {n : Notify T} (hn : p.notifying a = some n)
    (h : p.notifyStep a n = some p') : Notified p a p' := by
  obtain ⟨stage, i, others⟩ := n
  cases stage with
  | exchange =>
    simp only [notifyStep, Option.some.injEq] at h
    subst h
    split
    next hstatus => exact .sleeping hn hstatus
    next hstatus => exact .awake hn hstatus
  | lock =>
    simp only [notifyStep] at h
    split at h <;> cases h
    next hfree => exact .locked hn (by simpa using hfree)
  | signal =>
    cases h
    exact .signalled hn

variable [DecidableEq Task]

/-- What a step of `pop` or `run` does besides going on to the next phase. -/
inductive Popped (numaNode : Fin T → Int) (p : Pool T σ Task) (w : Fin T) :
    Phase T σ Task → Pool T σ Task → Prop where
  | took {task s} (here : p.phase w = .tryPop ∨ ∃ asleep, p.phase w = .popMoved asleep)
      (pop : LifoQueue.step (p.localQueue w) (.pop (some task)) = some s) :
      Popped numaNode p w (.running task w) (p.setLocal w s)
  | empty {s} (here : p.phase w = .tryPop)
      (pop : LifoQueue.step (p.localQueue w) (.pop none) = some s) :
      Popped numaNode p w (.collect p.nodes [] false) (p.setLocal w s)
  | collected {node walk tasks asleep} (here : p.phase w = .collect (node :: walk) tasks asleep) :
      Popped numaNode p w (.collect walk (tasks ++ (p.remote node w).reverse) asleep)
        (p.setRemote node w [])
  | noTasks {asleep} (here : p.phase w = .collect [] [] asleep) (hempty : p.pendingQueue w = []) :
      Popped numaNode p w (.missed asleep) p
  | appended {tasks asleep} (here : p.phase w = .collect [] tasks asleep)
      (hsome : p.pendingQueue w ++ tasks ≠ []) :
      Popped numaNode p w (.move asleep) (p.setPending w (p.pendingQueue w ++ tasks))
  | moved {asleep rest s} (here : p.phase w = .move asleep)
      (push : LifoQueue.step (p.localQueue w) (.pushAll (p.pendingQueue w) rest) = some s) :
      Popped numaNode p w (.popMoved asleep) ((p.setLocal w s).setPending w rest)
  | lost {asleep s} (here : p.phase w = .popMoved asleep)
      (pop : LifoQueue.step (p.localQueue w) (.pop none) = some s) :
      Popped numaNode p w (.missed asleep) (p.setLocal w s)
  | thief (here : p.phase w = .setStealing) :
      Popped numaNode p w (.stealing true 0)
        { p with numActive := p.numActive + (1 - oneVictim) }
  | alone {near i} (here : p.phase w = .stealing near i) :
      Popped numaNode p w (.nextSteal near i) p
  | claimed {near i v s} (here : p.phase w = .stealing near i) (hv : v ≠ w)
      (claim : LifoQueue.step (p.localQueue v) (.claim w true) = some s) :
      Popped numaNode p w (.stolen near i v) (p.setLocal v s)
  | nothing {near i v s} (here : p.phase w = .stealing near i) (hv : v ≠ w)
      (claim : LifoQueue.step (p.localQueue v) (.claim w false) = some s) :
      Popped numaNode p w (.nextSteal near i) (p.setLocal v s)
  | read {near i v task s} (here : p.phase w = .stolen near i v)
      (read : LifoQueue.step (p.localQueue v) (.read w (some task)) = some s) :
      Popped numaNode p w (.clearStealing (some (task, v))) (p.setLocal v s)
  | readNull {near i v s} (here : p.phase w = .stolen near i v)
      (read : LifoQueue.step (p.localQueue v) (.read w none) = some s) :
      Popped numaNode p w (.nextSteal near i) (p.setLocal v s)
  | gotTask {task queueIndex} (targets : List (Fin T))
      (here : p.phase w = .clearStealing (some (task, queueIndex))) :
      Popped numaNode p w (.running task queueIndex)
        ({ p with numActive := p.numActive - (1 - oneVictim) }.setNotifying (.worker w)
          (startNotify targets))
  | gaveUp (targets : List (Fin T)) (here : p.phase w = .clearStealing none) :
      Popped numaNode p w .lock
        ({ p with numActive := p.numActive - (1 - oneVictim) }.setNotifying (.worker w)
          (startNotify targets))
  | stopped (here : p.phase w = .lock) (hstop : p.stopRequested w = true) :
      Popped numaNode p w .exited p
  | locked (here : p.phase w = .lock) (hstop : p.stopRequested w = false) :
      Popped numaNode p w .compareExchange p
  | dozed (here : p.phase w = .compareExchange) (hstatus : p.status w = .running) :
      Popped numaNode p w (.collect p.nodes [] true) (p.setStatus w .sleeping)
  | kept (here : p.phase w = .compareExchange) :
      Popped numaNode p w .store p
  | slept (here : p.phase w = .setSleeping) :
      Popped numaNode p w (.waiting false) { p with numActive := p.numActive - oneVictim }
  | woken (here : p.phase w = .waiting true) :
      Popped numaNode p w .clearSleeping p
  | awake (targets : List (Fin T)) (here : p.phase w = .clearSleeping) :
      Popped numaNode p w .store
        ({ p with numActive := p.numActive + oneVictim }.setNotifying (.worker w)
          (startNotify targets))
  | stored (here : p.phase w = .store) :
      Popped numaNode p w .tryPop (p.setStatus w .running)
  | executed {task queueIndex} (here : p.phase w = .running task queueIndex) :
      Popped numaNode p w .tryPop { p with executed := p.executed ++ [(task, queueIndex)] }


variable {p p' : Pool T σ Task} {w : Fin T} {choice : Nat}

theorem popStep_popped (hn : p.notifying (.worker w) = none)
    (hhand : ∀ near i v, p.phase w = .stealing near i → (p.localQueue v).hand w = none)
    (h : p.popStep numaNode w choice = some p') :
    ∃ phase q, Popped numaNode p w phase q ∧ p' = q.goto w phase := by
  cases hphase : p.phase w with
  | tryPop =>
    simp only [popStep, hphase, Option.map_eq_some_iff] at h
    obtain ⟨⟨result, q⟩, hq, rfl⟩ := h
    cases result with
    | some task => exact ⟨_, _, .took (.inl hphase) (by simp [LifoQueue.step, hq]), rfl⟩
    | none => exact ⟨_, _, .empty hphase (by simp [LifoQueue.step, hq]), rfl⟩
  | collect walk tasks asleep =>
    cases walk with
    | cons node walk =>
      simp only [popStep, hphase, Option.some.injEq] at h
      exact ⟨_, _, .collected hphase, h.symm⟩
    | nil =>
      simp only [popStep, hphase, Option.some.injEq] at h
      subst h
      by_cases hsome : p.pendingQueue w ++ tasks = []
      · obtain ⟨hempty, rfl⟩ := List.append_eq_nil_iff.mp hsome
        refine ⟨_, _, .noTasks hphase hempty, ?_⟩
        rw [if_pos (by simp [hempty])]
        simp
      · refine ⟨_, _, .appended hphase hsome, ?_⟩
        rw [if_neg (by simpa using hsome)]
  | move asleep =>
    simp only [popStep, hphase, Option.map_eq_some_iff] at h
    obtain ⟨⟨rest, q⟩, hq, rfl⟩ := h
    exact ⟨_, _, .moved hphase (by simp [LifoQueue.step, hq]), rfl⟩
  | popMoved asleep =>
    simp only [popStep, hphase, Option.map_eq_some_iff] at h
    obtain ⟨⟨result, q⟩, hq, rfl⟩ := h
    cases result with
    | some task => exact ⟨_, _, .took (.inr ⟨_, hphase⟩) (by simp [LifoQueue.step, hq]), rfl⟩
    | none => exact ⟨_, _, .lost hphase (by simp [LifoQueue.step, hq]), rfl⟩
  | setStealing =>
    simp only [popStep, hphase, Option.some.injEq] at h
    exact ⟨_, _, .thief hphase, h.symm⟩
  | stealing near i =>
    simp only [popStep, hphase] at h
    split at h
    · cases h
      exact ⟨_, _, .alone hphase, rfl⟩
    next v vs hvs =>
      obtain ⟨u, hu, hsteal⟩ := Option.bind_eq_some_iff.mp h
      obtain ⟨⟨slot, q⟩, hq, rfl⟩ := Option.map_eq_some_iff.mp hsteal
      have hne : u ≠ w := mem_victims (hvs ▸ List.mem_of_getElem? hu)
      have hnone := hhand near i u hphase
      cases slot with
      | some slot => exact ⟨_, _, .claimed hphase hne (by simp [LifoQueue.step, hnone, hq]), rfl⟩
      | none => exact ⟨_, _, .nothing hphase hne (by simp [LifoQueue.step, hnone, hq]), rfl⟩
  | stolen near i v =>
    simp only [popStep, hphase, Option.map_eq_some_iff] at h
    obtain ⟨slot, hslot, rfl⟩ := h
    have hread : LifoQueue.step (p.localQueue v) (.read w ((p.localQueue v).queue.readSlot slot).1) =
        some ⟨((p.localQueue v).queue.readSlot slot).2,
          Function.update (p.localQueue v).hand w none⟩ := by
      simp [LifoQueue.step, hslot]
    generalize ((p.localQueue v).queue.readSlot slot).1 = result at hread ⊢
    cases result with
    | some task => exact ⟨_, _, .read hphase hread, rfl⟩
    | none => exact ⟨_, _, .readNull hphase hread, rfl⟩
  | clearStealing result =>
    cases result with
    | some r =>
      simp only [popStep, hphase] at h
      obtain ⟨targets, rfl⟩ := notifyOneSleeping_ite h hn
      exact ⟨_, _, .gotTask targets hphase, rfl⟩
    | none =>
      simp only [popStep, hphase] at h
      obtain ⟨targets, rfl⟩ := notifyOneSleeping_ite h hn
      exact ⟨_, _, .gaveUp targets hphase, rfl⟩
  | lock =>
    simp only [popStep, hphase, Option.some.injEq] at h
    subst h
    cases hstop : p.stopRequested w with
    | true => exact ⟨_, _, .stopped hphase hstop, rfl⟩
    | false => exact ⟨_, _, .locked hphase hstop, rfl⟩
  | compareExchange =>
    simp only [popStep, hphase] at h
    split at h <;> cases h
    next hstatus => exact ⟨_, _, .dozed hphase hstatus, rfl⟩
    next => exact ⟨_, _, .kept hphase, rfl⟩
  | setSleeping =>
    simp only [popStep, hphase, Option.some.injEq] at h
    exact ⟨_, _, .slept hphase, h.symm⟩
  | waiting signalled =>
    cases signalled with
    | true =>
      simp only [popStep, hphase, Option.some.injEq] at h
      exact ⟨_, _, .woken hphase, h.symm⟩
    | false => simp [popStep, hphase] at h
  | clearSleeping =>
    simp only [popStep, hphase] at h
    obtain ⟨targets, rfl⟩ := notifyOneSleeping_ite h hn
    exact ⟨_, _, .awake targets hphase, rfl⟩
  | store =>
    simp only [popStep, hphase, Option.some.injEq] at h
    exact ⟨_, _, .stored hphase, h.symm⟩
  | running task queueIndex =>
    simp only [popStep, hphase, Option.some.injEq] at h
    exact ⟨_, _, .executed hphase, h.symm⟩
  | exited => simp [popStep, hphase] at h

/-- What a step of the pool does. -/
inductive Stepped (numaNode : Fin T → Int) (p : Pool T σ Task) : Pool T σ Task → Prop where
  | popped {w : Fin T} {phase q} (hn : p.notifying (.worker w) = none)
      (popped : Popped numaNode p w phase q) : Stepped numaNode p (q.goto w phase)
  | notified {a q} (notified : Notified p a q) : Stepped numaNode p q
  | weakFails {w : Fin T} (here : p.phase w = .compareExchange) : Stepped numaNode p (p.goto w .store)
  | spurious {w : Fin T} {signalled} (here : p.phase w = .waiting signalled) :
      Stepped numaNode p (p.goto w (.waiting true))
  | registered {nodes} (hnodes : p.nodes ⊆ nodes) : Stepped numaNode p { p with nodes := nodes }
  | submitted {a node i} {tasks : List Task} (free : Free p a) (hnode : node ∈ p.nodes) :
      Stepped numaNode p (({ p with enqueued := p.enqueued ++ tasks.map (·, i) }.setRemote node i
        (tasks ++ p.remote node i)).setNotifying a (some ⟨.exchange, i, []⟩))
  | pushed {w : Fin T} {task s pending ok} (running : (p.phase w).isRunning)
      (push : LifoQueue.step (p.localQueue w) (.push task ok) = some s)
      (hpending : pending = if ok then p.pendingQueue w else p.pendingQueue w ++ [task]) :
      Stepped numaNode p (({ p with enqueued := p.enqueued ++ [(task, w)] }.setLocal w s).setPending
        w pending)
  | prepended {w : Fin T} {tasks : List Task} (running : (p.phase w).isRunning) :
      Stepped numaNode p ({ p with enqueued := p.enqueued ++ tasks.map (·, w) }.setPending w
        (tasks ++ p.pendingQueue w))
  | stopRequested {a i} (free : Free p a) (hfree : (p.phase i).holdsMutex = false) :
      Stepped numaNode p ({ p with
        stopRequested := Function.update p.stopRequested i true }.setNotifying a
          (some ⟨.signal, i, []⟩))

theorem step_stepped {e : Event T σ Task}
    (hhand : ∀ w near i v, p.phase w = .stealing near i → (p.localQueue v).hand w = none)
    (h : step numaNode p e = some p') : Stepped numaNode p p' := by
  cases e with
  | worker w choice =>
    simp only [step] at h
    cases hn : p.notifying (.worker w) with
    | some n =>
      rw [hn] at h
      exact .notified (notifyStep_notified hn h)
    | none =>
      rw [hn] at h
      obtain ⟨phase, q, hq, rfl⟩ := popStep_popped hn (hhand w) h
      exact .popped hn hq
  | outsider s =>
    obtain ⟨n, hn, h⟩ := Option.bind_eq_some_iff.mp h
    exact .notified (notifyStep_notified hn h)
  | weakFails w =>
    simp only [step] at h
    split at h <;> cases h
    next here => exact .weakFails here
  | spurious w =>
    simp only [step] at h
    split at h <;> cases h
    next here => exact .spurious here
  | getRemoteQueue a =>
    simp only [step] at h
    split at h <;> cases h
    refine .registered ?_
    split
    · exact List.Subset.refl _
    · exact List.subset_cons_self _ _
  | submit a node i tasks =>
    simp only [step] at h
    split at h <;> cases h
    next hmay => exact .submitted (mayAct_free hmay.1) hmay.2
  | pushLocal w task =>
    simp only [step] at h
    split at h
    next hmay =>
      obtain ⟨⟨ok, q⟩, hq, rfl⟩ := Option.map_eq_some_iff.mp h
      exact .pushed ((mayAct_free hmay).running w rfl) (by simp [LifoQueue.step, hq]) rfl
    next => cases h
  | pushLocalAll w tasks =>
    simp only [step] at h
    split at h <;> cases h
    next hmay => exact .prepended ((mayAct_free hmay).running w rfl)
  | requestStop a i =>
    simp only [step] at h
    split at h <;> cases h
    next hmay => exact .stopRequested (mayAct_free hmay.1) (by simpa using hmay.2)

theorem Popped.phase_eq {phase : Phase T σ Task} {q : Pool T σ Task}
    (h : Popped numaNode p w phase q) : q.phase = p.phase := by
  cases h <;> rfl

theorem Popped.handed {phase : Phase T σ Task} {q : Pool T σ Task} (h : Handed p)
    (hpop : Popped numaNode p w phase q) : Handed (q.goto w phase) := by
  cases hpop with
  | took here hstep =>
    refine (h.owner hstep rfl).move ?_ rfl
    rcases here with here | ⟨_, here⟩ <;> exact congrArg Phase.victim here
  | empty here hstep | moved here hstep =>
    exact (h.owner hstep rfl).move (congrArg Phase.victim here) rfl
  | lost here hstep =>
    exact (h.owner hstep rfl).move (congrArg Phase.victim here) (Phase.victim_missed _)
  | collected here | appended here | thief here | gotTask _ here | gaveUp _ here | stopped here
  | locked here | dozed here | kept here | slept here | woken here | awake _ here | stored here
  | executed here =>
    refine Handed.move (h.congr ?_ ?_) ?_ ?_
    · rfl
    · rfl
    · exact congrArg Phase.victim here
    · rfl
  | noTasks here => exact Handed.move h (congrArg Phase.victim here) (Phase.victim_missed _)
  | alone here => exact Handed.move h (congrArg Phase.victim here) (Phase.victim_nextSteal _ _)
  | claimed here hv hstep =>
    refine h.thief hstep rfl ?_ fun u hu => ?_
    · simp [LifoQueue.step_claim hstep, Phase.victim]
    · simp [here, Phase.victim, Ne.symm hu]
  | nothing here hv hstep =>
    refine h.thief hstep rfl ?_ fun u hu => ?_
    · simp [LifoQueue.step_claim hstep, Phase.victim_nextSteal]
    · rw [here, Phase.victim_nextSteal]
      exact Iff.rfl
  | read here hstep =>
    refine h.thief hstep rfl ?_ fun u hu => ?_
    · simp [LifoQueue.step_read hstep, Phase.victim]
    · simp [here, Phase.victim, Ne.symm hu]
  | readNull here hstep =>
    refine h.thief hstep rfl ?_ fun u hu => ?_
    · simp [LifoQueue.step_read hstep, Phase.victim_nextSteal]
    · rw [here, Phase.victim_nextSteal]
      simp [Phase.victim, Ne.symm hu]

theorem Stepped.handed (h : Handed p) (hstep : Stepped numaNode p p') : Handed p' := by
  cases hstep with
  | popped _ hpop => exact hpop.handed h
  | notified hn =>
    cases hn with
    | sleeping | awake | locked => exact h
    | @signalled i others here =>
      intro t v
      by_cases ht : t = i
      · subst ht
        simpa [goto, setNotifying, Phase.victim_signal] using h t v
      · simpa [goto, setNotifying, ht] using h t v
  | weakFails here | spurious here => exact Handed.move h (congrArg Phase.victim here) rfl
  | registered | submitted | prepended | stopRequested => exact h
  | pushed _ hpush => exact h.owner hpush rfl

/-- The tasks that an event hands in, with the queue they go to. -/
def Event.handedIn : Event T σ Task → List (Task × Fin T)
  | .submit _ _ i tasks => tasks.map (·, i)
  | .pushLocal w task => [(task, w)]
  | .pushLocalAll w tasks => tasks.map (·, w)
  | _ => []

theorem step_enqueued {e : Event T σ Task} (hh : Handed p) (h : step numaNode p e = some p') :
    p'.enqueued = p.enqueued ++ e.handedIn := by
  have hnotify : ∀ {a n}, p.notifyStep a n = some p' → p'.enqueued = p.enqueued := by
    rintro a ⟨stage, i, others⟩ hn
    cases stage with
    | exchange | signal =>
      cases hn
      rfl
    | lock =>
      simp only [notifyStep] at hn
      split at hn <;> cases hn
      rfl
  cases e with
  | worker w choice =>
    change _ = p.enqueued ++ []
    rw [List.append_nil]
    simp only [step] at h
    cases hn : p.notifying (.worker w) with
    | some n =>
      rw [hn] at h
      exact hnotify h
    | none =>
      rw [hn] at h
      obtain ⟨phase, q, hq, rfl⟩ :=
        popStep_popped hn (fun near i v hw => hh.none_of (by rw [hw]; rfl) v) h
      change q.enqueued = _
      cases hq <;> rfl
  | outsider s =>
    change _ = p.enqueued ++ []
    rw [List.append_nil]
    obtain ⟨n, -, h⟩ := Option.bind_eq_some_iff.mp h
    exact hnotify h
  | weakFails | spurious | getRemoteQueue | requestStop =>
    change _ = p.enqueued ++ []
    rw [List.append_nil]
    simp only [step] at h
    split at h <;> cases h
    rfl
  | submit | pushLocalAll =>
    simp only [step] at h
    split at h <;> cases h
    rfl
  | pushLocal w task =>
    simp only [step] at h
    split at h
    · obtain ⟨r, -, rfl⟩ := Option.map_eq_some_iff.mp h
      rfl
    · cases h

/-- What holds at the start and is kept by all that a step can do holds after every run. -/
theorem run_stepped {numBlocks blockSize : Nat} {I : Pool T σ Task → Prop}
    (hstart : I (start T σ Task numBlocks blockSize))
    (keep : ∀ p p', Handed p → I p → Stepped numaNode p p' → I p')
    {es : List (Event T σ Task)}
    (h : Runs.run (step numaNode) (start T σ Task numBlocks blockSize) es = some p) :
    Handed p ∧ I p := by
  refine Runs.run_invariant (I := fun p => Handed p ∧ I p) ?_ ⟨start_handed _ _, hstart⟩ h
  rintro u e v ⟨hu, hI⟩ he
  have hstep := step_stepped (fun w near i v hw => hu.none_of (by rw [hw]; rfl) v) he
  exact ⟨hstep.handed hu, keep u v hu hI hstep⟩

theorem run_enqueued {numBlocks blockSize : Nat} {es : List (Event T σ Task)}
    (h : Runs.run (step numaNode) (start T σ Task numBlocks blockSize) es = some p) :
    p.enqueued = es.flatMap Event.handedIn := by
  refine (Runs.run_induction (motive := fun es p => Handed p ∧
    p.enqueued = es.flatMap Event.handedIn) ⟨start_handed _ _, rfl⟩ ?_ h).2
  rintro fs u e v - ⟨hu, henq⟩ he
  have hstep := step_stepped (fun w near i v hw => hu.none_of (by rw [hw]; rfl) v) he
  refine ⟨hstep.handed hu, ?_⟩
  rw [step_enqueued hu he, henq, List.flatMap_append, List.flatMap_singleton]

end Pool
