import KeyLeak.PoolTasks

/-!
# No task is stranded

A pool thread goes to sleep in three steps: it sets its state, looks into the remote queues once
more and waits. Whoever pushes a task for it either pushes before the thread looks, or
finds its state set and wakes it. So when nobody can take another step, no task for a thread that
has not been stopped is left in any queue.
-/
namespace Pool

open Runs

variable {T : Nat} {σ Task : Type}

/-- The remote queues a thread that has set its state has still to look into. -/
def Phase.walked : Phase T σ Task → Option (List (Actor T σ))
  | .collect walk _ true => some walk
  | .move true | .popMoved true | .setSleeping | .waiting false => some []
  | _ => none

/-- Where a thread of the pool may be while it notifies others. -/
def Phase.mayNotify : Phase T σ Task → Bool
  | .running .. | .lock | .store => true
  | _ => false

theorem Phase.walked_mutex {phase : Phase T σ Task} {walk : List (Actor T σ)}
    (h : phase.walked = some walk) : phase.holdsMutex = true ∨ phase = .waiting false := by
  cases phase with
  | collect _ _ asleep | move asleep | popMoved asleep =>
    cases asleep
    · cases h
    · exact .inl rfl
  | setSleeping => exact .inl rfl
  | waiting signalled =>
    cases signalled
    · exact .inr rfl
    · cases h
  | _ => cases h

/-- Somebody is in `notify` on thread `i`, in this stage. -/
def Notifies (p : Pool T σ Task) (stage : Stage) (i : Fin T) : Prop :=
  ∃ a others, p.notifying a = some ⟨stage, i, others⟩

/-- Thread `i` is about to be woken, or the queues it has looked into are empty unless
somebody is about to find it sleeping. -/
inductive Watched (p : Pool T σ Task) (i : Fin T) (walk : List (Actor T σ)) : Prop where
  | sleeping (status : p.status i = .sleeping)
      (seen : ∀ node, node ∉ walk → p.remote node i ≠ [] → p.Notifies .exchange i)
  | found (lock : p.Notifies .lock i)
  | passed (waiting : p.phase i = .waiting false) (signal : p.Notifies .signal i)

structure Wakeful (p : Pool T σ Task) : Prop where
  unregistered : ∀ node, node ∉ p.nodes → ∀ i, p.remote node i = []
  busy : ∀ w, p.notifying (.worker w) ≠ none → (p.phase w).mayNotify
  exited : ∀ i, p.phase i = .exited → p.stopRequested i = true
  unstopped : ∀ i, (p.phase i).holdsMutex → p.stopRequested i = false
  stopping : ∀ i, p.phase i = .waiting false → p.stopRequested i = true → p.Notifies .signal i
  watched : ∀ i walk, (p.phase i).walked = some walk → p.Watched i walk

theorem start_wakeful (numBlocks blockSize : Nat) :
    Wakeful (start T σ Task numBlocks blockSize) where
  unregistered _ _ _ := rfl
  busy _ h := absurd rfl h
  exited _ h := by cases h
  unstopped _ _ := rfl
  stopping _ h := by cases h
  watched _ _ h := by cases h

variable {p q : Pool T σ Task}

theorem Notifies.mono {stage : Stage} {i : Fin T} (h : p.Notifies stage i)
    (hn : ∀ a n, p.notifying a = some n → n.target = i → q.notifying a = some n) :
    q.Notifies stage i := by
  obtain ⟨a, others, ha⟩ := h
  exact ⟨a, others, hn a _ ha rfl⟩

theorem Watched.mono {i : Fin T} {walk walk' : List (Actor T σ)} (h : p.Watched i walk)
    (hn : ∀ a n, p.notifying a = some n → n.target = i → q.notifying a = some n)
    (hstatus : q.status i = p.status i)
    (hremote : ∀ node, node ∉ walk' → q.remote node i ≠ [] →
      node ∉ walk ∧ p.remote node i ≠ [])
    (hphase : p.phase i = .waiting false → q.phase i = .waiting false) : q.Watched i walk' := by
  cases h with
  | sleeping status seen =>
    refine .sleeping (hstatus.trans status) fun node hnode hsome => ?_
    obtain ⟨hnode', hsome'⟩ := hremote node hnode hsome
    exact (seen node hnode' hsome').mono hn
  | found lock => exact .found (lock.mono hn)
  | passed waiting signal => exact .passed (hphase waiting) (signal.mono hn)

theorem Watched.congr {i : Fin T} {walk : List (Actor T σ)} (h : p.Watched i walk)
    (hnotifying : q.notifying = p.notifying) (hstatus : q.status = p.status)
    (hremote : q.remote = p.remote) (hphase : q.phase i = p.phase i) : q.Watched i walk :=
  h.mono (fun a n ha _ => (congrFun hnotifying a).trans ha) (congrFun hstatus i)
    (fun node hnode hsome => ⟨hnode, fun hnil => hsome (by rw [hremote]; exact hnil)⟩)
    fun hi => hphase.trans hi

variable {w : Fin T}

theorem Wakeful.goto {phase : Phase T σ Task} (hw : Wakeful p) (hw' : (p.phase w).mayNotify = false)
    (hexited : phase ≠ .exited) (hmutex : phase.holdsMutex = false)
    (hwalked : phase.walked = none) : Wakeful (p.goto w phase) := by
  have hother : ∀ i, i ≠ w → (p.goto w phase).phase i = p.phase i :=
    fun i hi => Function.update_of_ne hi _ _
  have hown : (p.goto w phase).phase w = phase := Function.update_self _ _ _
  have hwaiting : phase ≠ .waiting false := by
    rintro rfl
    cases hwalked
  refine ⟨hw.unregistered, fun i hi => ?_, fun i hi => ?_, fun i hi => ?_, fun i hi hs => ?_,
    fun i walk hwalk => ?_⟩ <;> by_cases hiw : i = w
  · subst hiw
    exact absurd (hw.busy i hi) (by simp [hw'])
  · rw [hother i hiw]
    exact hw.busy i hi
  · subst hiw
    exact absurd (hown.symm.trans hi) hexited
  · exact hw.exited i (hother i hiw ▸ hi)
  · subst hiw
    rw [hown, hmutex] at hi
    cases hi
  · exact hw.unstopped i (hother i hiw ▸ hi)
  · subst hiw
    exact absurd (hown.symm.trans hi) hwaiting
  · exact hw.stopping i (hother i hiw ▸ hi) hs
  · subst hiw
    rw [hown, hwalked] at hwalk
    cases hwalk
  · exact (hw.watched i walk (hother i hiw ▸ hwalk)).congr rfl rfl rfl (hother i hiw)

/-- What a step of `pop` or `run` leaves to the other threads. -/
structure Framed (p q : Pool T σ Task) (w : Fin T) : Prop where
  nodes : q.nodes = p.nodes
  stop : q.stopRequested = p.stopRequested
  status : ∀ i, i ≠ w → q.status i = p.status i
  remote : ∀ node i, i ≠ w → q.remote node i = p.remote node i
  cleared : ∀ node i, p.remote node i = [] → q.remote node i = []
  others : ∀ a, a ≠ .worker w → q.notifying a = p.notifying a

variable [DecidableEq σ]

theorem Framed.notifying (h : Framed p q w) (hn : p.notifying (.worker w) = none) (a : Actor T σ)
    (n : Notify T) (ha : p.notifying a = some n) : q.notifying a = some n := by
  by_cases haw : a = .worker w
  · rw [haw, hn] at ha
    cases ha
  · rw [h.others a haw]
    exact ha

/-- A thread that goes on in `notify` leaves what the others notify as it is. -/
theorem Notifies.other {stage stage' : Stage} {i j : Fin T} {a : Actor T σ} {others : List (Fin T)}
    {n : Option (Notify T)} {r : Pool T σ Task} (h : p.Notifies stage' j)
    (here : p.notifying a = some ⟨stage, i, others⟩) (hne : stage' ≠ stage ∨ j ≠ i)
    (hr : r.notifying = p.notifying) : (r.setNotifying a n).Notifies stage' j := by
  obtain ⟨b, others', hb⟩ := h
  refine ⟨b, others', ?_⟩
  have hab : b ≠ a := by
    rintro rfl
    rw [here] at hb
    cases hb
    simp at hne
  change Function.update r.notifying a n b = _
  rw [Function.update_of_ne hab, hr, hb]

/-- A thread that starts to notify another has not been notifying. -/
theorem Notifies.started {stage : Stage} {i : Fin T} {a : Actor T σ} {n : Option (Notify T)}
    {r : Pool T σ Task} (h : p.Notifies stage i) (hfree : p.notifying a = none)
    (hr : r.notifying = p.notifying) : (r.setNotifying a n).Notifies stage i := by
  obtain ⟨b, others, hb⟩ := h
  refine ⟨b, others, ?_⟩
  have hab : b ≠ a := by
    rintro rfl
    rw [hfree] at hb
    cases hb
  change Function.update r.notifying a n b = _
  rw [Function.update_of_ne hab, hr, hb]

theorem Free.busy {a : Actor T σ} (hfree : Free p a) (hw : Wakeful p) {n : Option (Notify T)}
    {w : Fin T} (h : Function.update p.notifying a n (.worker w) ≠ none) :
    (p.phase w).mayNotify := by
  by_cases ha : .worker w = a
  · have hrunning := hfree.running w ha.symm
    cases hphase : p.phase w <;> simp_all [Phase.isRunning, Phase.mayNotify]
  · rw [Function.update_of_ne ha] at h
    exact hw.busy w h

theorem Notified.wakeful {a : Actor T σ} (hw : Wakeful p) (h : Notified p a q) : Wakeful q := by
  have hbusy : ∀ {n : Option (Notify T)} {i : Fin T} {stage : Stage} {others : List (Fin T)},
      p.notifying a = some ⟨stage, i, others⟩ →
      ∀ w, Function.update p.notifying a n (.worker w) ≠ none → (p.phase w).mayNotify := by
    intro n i stage others here w hne
    apply hw.busy w
    by_cases ha : .worker w = a
    · rw [ha, here]
      simp
    · rwa [Function.update_of_ne ha] at hne
  cases h with
  | @sleeping i others here hstatus =>
    refine ⟨hw.unregistered, hbusy here, hw.exited, hw.unstopped,
      fun j hj hs => (hw.stopping j hj hs).other here (.inl (by simp)) rfl, fun j walk hwalk => ?_⟩
    by_cases hji : j = i
    · subst hji
      exact .found ⟨a, others, Function.update_self _ _ _⟩
    · cases hw.watched j walk hwalk with
      | sleeping status seen =>
        exact .sleeping ((Function.update_of_ne hji _ _).trans status)
          fun node hnode hsome => (seen node hnode hsome).other here (.inr hji) rfl
      | found lock => exact .found (lock.other here (.inl (by simp)) rfl)
      | passed waiting signal => exact .passed waiting (signal.other here (.inl (by simp)) rfl)
  | @awake i others here hstatus =>
    refine ⟨hw.unregistered, hbusy here, hw.exited, hw.unstopped,
      fun j hj hs => (hw.stopping j hj hs).other here (.inl (by simp)) rfl, fun j walk hwalk => ?_⟩
    cases hw.watched j walk hwalk with
    | sleeping status seen =>
      have hji : j ≠ i := by
        rintro rfl
        exact hstatus status
      exact .sleeping ((Function.update_of_ne hji _ _).trans status)
        fun node hnode hsome => (seen node hnode hsome).other here (.inr hji) rfl
    | found lock => exact .found (lock.other here (.inl (by simp)) rfl)
    | passed waiting signal => exact .passed waiting (signal.other here (.inl (by simp)) rfl)
  | @locked i others here hfree =>
    refine ⟨hw.unregistered, hbusy here, hw.exited, hw.unstopped,
      fun j hj hs => (hw.stopping j hj hs).other here (.inl (by simp)) rfl, fun j walk hwalk => ?_⟩
    by_cases hji : j = i
    · subst hji
      rcases Phase.walked_mutex hwalk with hmutex | hwaiting
      · exact absurd hmutex (by simp [setNotifying, hfree])
      · exact .passed hwaiting ⟨a, others, Function.update_self _ _ _⟩
    · cases hw.watched j walk hwalk with
      | sleeping status seen =>
        exact .sleeping status
          fun node hnode hsome => (seen node hnode hsome).other here (.inr hji) rfl
      | found lock => exact .found (lock.other here (.inr hji) rfl)
      | passed waiting signal => exact .passed waiting (signal.other here (.inl (by simp)) rfl)
  | @signalled i others here =>
    have hphase : ∀ j, (Function.update p.phase i (p.phase i).signal j = p.phase j ∧
          (j = i → p.phase j ≠ .waiting false)) ∨
        (Function.update p.phase i (p.phase i).signal j = .waiting true ∧
          ∃ b, p.phase j = .waiting b) := by
      intro j
      by_cases hji : j = i
      · subst hji
        rw [Function.update_self]
        cases hj : p.phase j with
        | waiting b => exact .inr ⟨rfl, b, rfl⟩
        | _ => exact .inl ⟨rfl, fun _ => by simp⟩
      · exact .inl ⟨Function.update_of_ne hji _ _, fun h => absurd h hji⟩
    refine ⟨hw.unregistered, fun j hj => ?_, fun j hj => ?_, fun j hj => ?_, fun j hj hs => ?_,
      fun j walk hwalk => ?_⟩ <;> rcases hphase j with ⟨hsame, hwaiting⟩ | ⟨hwoken, b, hb⟩
    · exact (congrArg Phase.mayNotify hsame).trans (hbusy here j hj)
    · exact absurd (hbusy here j hj) (by rw [hb]; exact Bool.false_ne_true)
    · exact hw.exited j (hsame ▸ hj)
    · cases hwoken.symm.trans hj
    · exact hw.unstopped j ((congrArg Phase.holdsMutex hsame).symm.trans hj)
    · cases (congrArg Phase.holdsMutex hwoken).symm.trans hj
    · have hji : j ≠ i := fun h => hwaiting h (hsame ▸ hj)
      exact (hw.stopping j (hsame ▸ hj) hs).other here (.inr hji) rfl
    · cases hwoken.symm.trans hj
    · cases hw.watched j walk ((congrArg Phase.walked hsame).symm.trans hwalk) with
      | sleeping status seen =>
        exact .sleeping status
          fun node hnode hsome => (seen node hnode hsome).other here (.inl (by simp)) rfl
      | found lock => exact .found (lock.other here (.inl (by simp)) rfl)
      | passed waiting signal =>
        have hji : j ≠ i := fun h => hwaiting h waiting
        exact .passed (hsame.trans waiting) (signal.other here (.inr hji) rfl)
    · cases (congrArg Phase.walked hwoken).symm.trans hwalk

variable [DecidableEq Task] {numaNode : Fin T → Int} {phase : Phase T σ Task}

theorem Popped.framed (h : Popped numaNode p w phase q) : Framed p q w := by
  cases h with
  | collected =>
    refine ⟨rfl, rfl, fun _ _ => rfl, fun node' i hi => ?_, fun node' i hnil => ?_, fun _ _ => rfl⟩
    all_goals
      simp only [setRemote, Function.update_apply]
      split
    · subst node'
      exact Function.update_of_ne hi _ _
    · rfl
    · subst node'
      rw [Function.update_apply]
      split
      · rfl
      · exact hnil
    · exact hnil
  | dozed | stored =>
    exact ⟨rfl, rfl, fun _ hi => Function.update_of_ne hi _ _, fun _ _ _ => rfl, fun _ _ => id,
      fun _ _ => rfl⟩
  | gotTask | gaveUp | awake =>
    exact ⟨rfl, rfl, fun _ _ => rfl, fun _ _ _ => rfl, fun _ _ => id,
      fun _ ha => Function.update_of_ne ha _ _⟩
  | _ => exact ⟨rfl, rfl, fun _ _ => rfl, fun _ _ _ => rfl, fun _ _ => id, fun _ _ => rfl⟩

/-- A thread that goes to sleep stays watched. -/
theorem Popped.watched (hw : Wakeful p) (h : Popped numaNode p w phase q)
    {walk : List (Actor T σ)} (hwalk : phase.walked = some walk) : (q.goto w phase).Watched w walk := by
  have hkeep : ∀ {r : Pool T σ Task} {walk : List (Actor T σ)},
      r.notifying = p.notifying → r.status = p.status → r.remote = p.remote →
      p.phase w ≠ .waiting false → (p.phase w).walked = some walk →
      (r.goto w phase).Watched w walk := by
    intro r walk hnotifying hstatus hremote hphase hwalk
    refine (hw.watched w walk hwalk).mono (fun a n ha _ => ?_) (congrFun hstatus w)
      (fun node hnode hsome => ⟨hnode, ?_⟩) fun h => absurd h hphase
    · exact (congrFun hnotifying a).trans ha
    · rw [← hremote]
      exact hsome
  cases h with
  | @collected node walk' tasks asleep here =>
    cases asleep with
    | false => cases hwalk
    | true =>
      cases hwalk
      refine (hw.watched w _ (by rw [here]; rfl)).mono (fun _ _ ha _ => ha) rfl
        (fun node' hnode hsome => ?_) fun h => by simp [here] at h
      by_cases heq : node' = node
      · subst heq
        exact absurd (by simp [goto, setRemote]) hsome
      · exact ⟨by simp [heq, hnode], by simpa [goto, setRemote, heq] using hsome⟩
  | @noTasks asleep here | @appended _ asleep here | @moved asleep _ _ here | @lost asleep _ here =>
    cases asleep with
    | false => cases hwalk
    | true =>
      cases hwalk
      refine hkeep ?_ ?_ ?_ (by simp [here]) (by rw [here]; rfl)
      all_goals rfl
  | slept here =>
    cases hwalk
    refine hkeep ?_ ?_ ?_ (by simp [here]) (by rw [here]; rfl)
    all_goals rfl
  | dozed here hstatus =>
    cases hwalk
    refine .sleeping (by simp [goto, setStatus]) fun node hnode hsome => ?_
    exact absurd (hw.unregistered node hnode w) hsome
  | alone | nothing | readNull =>
    unfold Phase.nextSteal at hwalk
    split at hwalk
    · cases hwalk
    · split at hwalk <;> cases hwalk
  | _ => cases hwalk

theorem Popped.wakeful (hw : Wakeful p) (hn : p.notifying (.worker w) = none)
    (h : Popped numaNode p w phase q) : Wakeful (q.goto w phase) := by
  have hf := h.framed
  have hother : ∀ i, i ≠ w → (q.goto w phase).phase i = p.phase i := by
    intro i hi
    rw [← h.phase_eq]
    exact Function.update_of_ne hi _ _
  have hown : (q.goto w phase).phase w = phase := Function.update_self _ _ _
  refine ⟨fun node hnode i => ?_, fun i hi => ?_, fun i hi => ?_, fun i hi => ?_, fun i hi hs => ?_,
    fun i walk hwalk => ?_⟩
  · exact hf.cleared node i (hw.unregistered node (hf.nodes ▸ hnode) i)
  · by_cases hiw : i = w
    · subst hiw
      rw [hown]
      cases h with
      | gotTask | gaveUp | awake => rfl
      | _ => exact absurd hn hi
    · rw [hother i hiw]
      have hsame := hf.others (.worker i) (by simpa using hiw)
      exact hw.busy i (hsame ▸ hi)
  · change q.stopRequested i = true
    rw [hf.stop]
    by_cases hiw : i = w
    · subst hiw
      rw [hown] at hi
      cases h with
      | stopped here hstop => exact hstop
      | noTasks here | lost here =>
        unfold Phase.missed at hi
        split at hi <;> cases hi
      | alone | nothing | readNull =>
        unfold Phase.nextSteal at hi
        split at hi
        · cases hi
        · split at hi <;> cases hi
      | _ => cases hi
    · exact hw.exited i (hother i hiw ▸ hi)
  · change q.stopRequested i = false
    rw [hf.stop]
    by_cases hiw : i = w
    · subst hiw
      rw [hown] at hi
      cases h with
      | locked here hstop => exact hstop
      | dozed here => exact hw.unstopped i (by rw [here]; rfl)
      | @collected _ _ _ asleep here | @noTasks asleep here | @appended _ asleep here
      | @moved asleep _ _ here | @lost asleep _ here =>
        cases asleep
        · cases hi
        · exact hw.unstopped i (by rw [here]; rfl)
      | alone | nothing | readNull =>
        unfold Phase.nextSteal at hi
        split at hi
        · cases hi
        · split at hi <;> cases hi
      | _ => cases hi
    · exact hw.unstopped i (hother i hiw ▸ hi)
  · by_cases hiw : i = w
    · subst hiw
      rw [hown] at hi
      cases h with
      | slept here =>
        have hno := hw.unstopped i (by rw [here]; rfl)
        have hyes : p.stopRequested i = true := hs
        rw [hno] at hyes
        cases hyes
      | noTasks here | lost here =>
        unfold Phase.missed at hi
        split at hi <;> cases hi
      | alone | nothing | readNull =>
        unfold Phase.nextSteal at hi
        split at hi
        · cases hi
        · split at hi <;> cases hi
      | _ => cases hi
    · have hs' : p.stopRequested i = true := hf.stop ▸ hs
      exact (hw.stopping i (hother i hiw ▸ hi) hs').mono fun a n ha _ => hf.notifying hn a n ha
  · by_cases hiw : i = w
    · subst hiw
      rw [hown] at hwalk
      exact h.watched hw hwalk
    · refine (hw.watched i walk (hother i hiw ▸ hwalk)).mono
        (fun a n ha _ => hf.notifying hn a n ha) (hf.status i hiw)
        (fun node hnode hsome => ⟨hnode, ?_⟩) fun hi => (hother i hiw).trans hi
      rwa [← hf.remote node i hiw]

theorem Stepped.wakeful (hw : Wakeful p) (h : Stepped numaNode p q) : Wakeful q := by
  cases h with
  | popped hn hpop => exact hpop.wakeful hw hn
  | notified hn => exact hn.wakeful hw
  | weakFails here => exact hw.goto (by rw [here]; rfl) (by simp) rfl rfl
  | spurious here => exact hw.goto (by rw [here]; rfl) (by simp) rfl rfl
  | registered hnodes =>
    exact ⟨fun node hnode => hw.unregistered node fun h => hnode (hnodes h), hw.busy, hw.exited,
      hw.unstopped, hw.stopping, fun i walk h => (hw.watched i walk h).congr rfl rfl rfl rfl⟩
  | pushed | prepended =>
    exact ⟨hw.unregistered, hw.busy, hw.exited, hw.unstopped, hw.stopping,
      fun i walk h => (hw.watched i walk h).congr rfl rfl rfl rfl⟩
  | @submitted a node i tasks hfree hnode =>
    have hremote : ∀ node' j, (node' ≠ node ∨ j ≠ i) → Function.update p.remote node
        (Function.update (p.remote node) i (tasks ++ p.remote node i)) node' j =
          p.remote node' j := by
      intro node' j hne
      by_cases hnn : node' = node
      · subst hnn
        rw [Function.update_self, Function.update_of_ne (hne.resolve_left fun h => h rfl)]
      · rw [Function.update_of_ne hnn]
    refine ⟨fun node' hnode' j => ?_, fun w hne => hfree.busy hw hne, hw.exited, hw.unstopped,
      fun j hj hs => (hw.stopping j hj hs).started hfree.silent rfl, fun j walk hwalk => ?_⟩
    · have hnn : node' ≠ node := fun h => hnode' (h ▸ hnode)
      exact (hremote node' j (.inl hnn)).trans (hw.unregistered node' hnode' j)
    · by_cases hji : j = i
      · subst hji
        cases hw.watched j walk hwalk with
        | sleeping status seen =>
          exact .sleeping status fun _ _ _ => ⟨a, [], Function.update_self _ _ _⟩
        | found lock => exact .found (lock.started hfree.silent rfl)
        | passed waiting signal => exact .passed waiting (signal.started hfree.silent rfl)
      · cases hw.watched j walk hwalk with
        | sleeping status seen =>
          refine .sleeping status fun node' hnode' hsome => ?_
          refine (seen node' hnode' ?_).started hfree.silent rfl
          rwa [← hremote node' j (.inr hji)]
        | found lock => exact .found (lock.started hfree.silent rfl)
        | passed waiting signal => exact .passed waiting (signal.started hfree.silent rfl)
  | @stopRequested a i hfree hmutex =>
    have hstop : ∀ j, j ≠ i → Function.update p.stopRequested i true j = p.stopRequested j :=
      fun j hj => Function.update_of_ne hj _ _
    refine ⟨hw.unregistered, fun w hne => hfree.busy hw hne, fun j hj => ?_, fun j hj => ?_,
      fun j hj hs => ?_, fun j walk hwalk => ?_⟩
    · change Function.update p.stopRequested i true j = true
      by_cases hji : j = i
      · subst hji
        exact Function.update_self _ _ _
      · exact (hstop j hji).trans (hw.exited j hj)
    · have hji : j ≠ i := by
        rintro rfl
        exact absurd hj (by simp [setNotifying, hmutex])
      exact (hstop j hji).trans (hw.unstopped j hj)
    · by_cases hji : j = i
      · subst hji
        exact ⟨a, [], Function.update_self _ _ _⟩
      · exact (hw.stopping j hj ((hstop j hji).symm.trans hs)).started hfree.silent rfl
    · cases hw.watched j walk hwalk with
      | sleeping status seen =>
        exact .sleeping status
          fun node hnode hsome => (seen node hnode hsome).started hfree.silent rfl
      | found lock => exact .found (lock.started hfree.silent rfl)
      | passed waiting signal => exact .passed waiting (signal.started hfree.silent rfl)

end Pool
