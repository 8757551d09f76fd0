import KeyLeak.PoolWake

/-!
# The pool at rest

When nobody can take another step, every thread waits or has been stopped, and no task for
a thread that waits is left anywhere.
-/
namespace Pool

open Runs StealDeque

variable {T : Nat} {σ Task : Type}

/-- What the phases of `pop` know of the two queues of the thread. -/
def Phase.Fits (phase : Phase T σ Task) (pending : List Task) (q : LifoQueue.Queue Task) : Prop :=
  match phase with
  | .tryPop | .clearStealing (some _) | .store | .running .. | .exited => True
  | .collect _ _ false => q.contents = []
  | .move _ => pending ≠ []
  | .popMoved _ => q.Ready
  | _ => pending = [] ∧ q.contents = []

/-- Thieves change nothing of it. -/
theorem Phase.Fits.thief {phase : Phase T σ Task} {pending : List Task}
    {q q' : LifoQueue.Queue Task} (h : phase.Fits pending q)
    (hq : (q.contents = [] → q'.contents = []) ∧ (q.Ready → q'.Ready)) :
    phase.Fits pending q' := by
  cases phase with
  | tryPop | store | running | exited => trivial
  | collect _ _ asleep =>
    cases asleep with
    | false => exact hq.1 h
    | true => exact ⟨h.1, hq.1 h.2⟩
  | move => exact h
  | popMoved => exact hq.2 h
  | clearStealing result =>
    cases result with
    | some r => trivial
    | none => exact ⟨h.1, hq.1 h.2⟩
  | _ => exact ⟨h.1, hq.1 h.2⟩

theorem Phase.fits_nextSteal {near : Bool} {i : Nat} {pending : List Task}
    {q : LifoQueue.Queue Task} (h : pending = [] ∧ q.contents = []) :
    (Phase.nextSteal near i : Phase T σ Task).Fits pending q := by
  unfold Phase.nextSteal
  split
  · exact h
  · split
    · exact h
    · exact h

def Stocked (p : Pool T σ Task) : Prop :=
  ∀ w, (p.phase w).Fits (p.pendingQueue w) (p.localQueue w).queue

theorem start_stocked (numBlocks blockSize : Nat) :
    Stocked (start T σ Task numBlocks blockSize) := fun _ => trivial

theorem Phase.not_mayNotify {phase : Phase T σ Task} (h : phase.holdsMutex = true ∨
    phase.victim ≠ none) : phase.mayNotify = false := by
  cases phase <;> simp_all [Phase.holdsMutex, Phase.victim, Phase.mayNotify]

/-- A task that has not been executed is in one of the places. -/
theorem mem_unexecuted [Fintype σ] {p : Pool T σ Task}
    {d : Fin T → Deque (Fin T) Task} {r : Task × Fin T} (h : r ∈ unexecuted p d) :
    (∃ node, p.remote node r.2 ≠ []) ∨ p.pendingQueue r.2 ≠ [] ∨ inside (d r.2) ≠ 0 ∨
      ∃ w, (p.phase w).carried w ≠ 0 := by
  have htag : ∀ {i : Fin T} {tasks : Multiset Task}, r ∈ tagged i tasks → i = r.2 ∧ tasks ≠ 0 := by
    intro i tasks hr
    obtain ⟨task, htask, rfl⟩ := Multiset.mem_map.mp hr
    exact ⟨rfl, fun h0 => by simp [h0] at htask⟩
  simp only [unexecuted, inRemote, inPending, inLocal, inHands, Multiset.mem_add,
    Multiset.mem_sum, Finset.mem_univ, true_and] at h
  rcases h with ((⟨node, i, hr⟩ | ⟨i, hr⟩) | ⟨i, hr⟩) | ⟨w, hr⟩
  · obtain ⟨rfl, hne⟩ := htag hr
    exact .inl ⟨node, by simpa using hne⟩
  · obtain ⟨rfl, hne⟩ := htag hr
    exact .inr (.inl (by simpa using hne))
  · obtain ⟨rfl, hne⟩ := htag hr
    exact .inr (.inr (.inl hne))
  · exact .inr (.inr (.inr ⟨w, fun h0 => by simp [h0] at hr⟩))

/-- An operation on one local queue, as the threads see it. -/
theorem setLocal_others {p : Pool T σ Task} {v i : Fin T} {s : LifoQueue.State (Fin T) Task} (hi : i ≠ v) :
    (p.setLocal v s).localQueue i = p.localQueue i := Function.update_of_ne hi _ _

theorem setLocal_thief [DecidableEq Task] {p : Pool T σ Task} {d : Fin T → Deque (Fin T) Task}
    (hd : Represented p d) {v t : Fin T} {e : StealDeque.Event (Fin T) Task}
    {s : LifoQueue.State (Fin T) Task} (hstep : LifoQueue.step (p.localQueue v) e = some s)
    (ht : LifoQueue.thief e = some t) (i : Fin T) :
    ((p.localQueue i).queue.contents = [] →
      ((p.setLocal v s).localQueue i).queue.contents = []) ∧
    ((p.localQueue i).queue.Ready → ((p.setLocal v s).localQueue i).queue.Ready) := by
  by_cases hi : i = v
  · subst hi
    simpa [setLocal] using LifoQueue.step_thief (hd i).wf hstep ht
  · rw [setLocal_others hi]
    exact ⟨id, id⟩

section Rest

variable [DecidableEq σ] {numaNode : Fin T → Int} {p : Pool T σ Task}
  {d : Fin T → Deque (Fin T) Task} {w : Fin T}

theorem notifyOneSleeping_isSome (w : Fin T) : (p.notifyOneSleeping w 0).isSome := by
  rw [notifyOneSleeping, dif_pos (Nat.zero_lt_of_lt w.isLt)]
  rfl

/-- Only a push ever waits, and then for a thief. -/
theorem popStep_isSome (numaNode : Fin T → Int) (hd : Represented p d) (hh : Handed p)
    (hthieves : ∀ t, (p.phase t).victim = none) (hwaiting : p.phase w ≠ .waiting false)
    (hexited : p.phase w ≠ .exited) : ∃ choice, (p.popStep numaNode w choice).isSome := by
  refine ⟨0, ?_⟩
  cases hphase : p.phase w with
  | tryPop | popMoved asleep =>
    obtain ⟨r, q, hq, -⟩ := (hd w).wf.popBack
    simp [popStep, hphase, hq]
  | collect walk => cases walk <;> simp [popStep, hphase]
  | move asleep =>
    have hpush := (hd w).wf.pushAll (p.pendingQueue w)
    simp only [popStep, hphase, Option.isSome_map]
    generalize (p.localQueue w).queue.pushAll (p.pendingQueue w) = r at hpush
    cases hpush with
    | pushed => rfl
    | waiting hunread =>
      obtain ⟨t, ht⟩ := (hd w).unread hunread
      exact absurd (hh.none_of (hthieves t) w) ht
  | stealing near i =>
    simp only [popStep, hphase]
    split
    · rfl
    next v vs _ =>
      obtain ⟨r, hr, -⟩ := (hd v).wf.stealFront
      simp [hr]
  | stolen near i v =>
    have hnone := hthieves w
    rw [hphase] at hnone
    cases hnone
  | clearStealing result =>
    simp only [popStep, hphase]
    split
    · exact notifyOneSleeping_isSome w
    · rfl
  | clearSleeping =>
    simp only [popStep, hphase]
    split
    · exact notifyOneSleeping_isSome w
    · rfl
  | compareExchange =>
    simp only [popStep, hphase]
    split <;> rfl
  | waiting signalled =>
    cases signalled with
    | true => simp [popStep, hphase]
    | false => exact absurd hphase hwaiting
  | exited => exact absurd hphase hexited
  | setStealing | lock | setSleeping | store | running => simp [popStep, hphase]

/-- No thread of the pool and nobody who notifies one can take a step. -/
def Quiescent (numaNode : Fin T → Int) (p : Pool T σ Task) : Prop :=
  (∀ w choice, step numaNode p (.worker w choice) = none) ∧
    ∀ s, step numaNode p (.outsider s) = none

/-- At rest nobody notifies, and every thread waits or has been stopped. -/
theorem Quiescent.rest (hq : Quiescent numaNode p) (hd : Represented p d) (hh : Handed p)
    (hw : Wakeful p) :
    (∀ a, p.notifying a = none) ∧ ∀ w, p.phase w = .waiting false ∨ p.phase w = .exited := by
  have hpop : ∀ w, p.notifying (.worker w) = none → ∀ choice, p.popStep numaNode w choice = none := by
    intro w hn choice
    have hstep := hq.1 w choice
    simpa only [step, hn] using hstep
  have hquiet : ∀ w, (p.phase w).mayNotify = false → p.notifying (.worker w) = none := by
    intro w hmay
    by_contra hn
    exact absurd (hw.busy w hn) (by simp [hmay])
  have hthieves : ∀ t, (p.phase t).victim = none := by
    intro t
    by_contra hvictim
    have hnone := hpop t (hquiet t (Phase.not_mayNotify (.inr hvictim))) 0
    cases hphase : p.phase t with
    | stolen near i v =>
      have hhand := (hh t v).mpr (by rw [hphase]; rfl)
      obtain ⟨slot, hslot⟩ := Option.isSome_iff_exists.mp hhand
      simp [popStep, hphase, hslot] at hnone
    | _ =>
      rw [hphase] at hvictim
      exact hvictim rfl
  have hrest : ∀ w, p.notifying (.worker w) = none →
      p.phase w = .waiting false ∨ p.phase w = .exited := by
    intro w hn
    by_contra hne
    push Not at hne
    obtain ⟨choice, hsome⟩ := popStep_isSome numaNode hd hh hthieves hne.1 hne.2
    rw [hpop w hn choice] at hsome
    cases hsome
  have hsilent : ∀ a, p.notifying a = none := by
    intro a
    by_contra hne
    obtain ⟨⟨stage, i, others⟩, hn⟩ := Option.ne_none_iff_exists'.mp hne
    have hstuck : p.notifyStep a ⟨stage, i, others⟩ = none := by
      cases a with
      | worker w => simpa only [step, hn] using hq.1 w 0
      | outsider s =>
        have hstep := hq.2 s
        rw [step, hn] at hstep
        exact hstep
    cases stage with
    | exchange | signal => simp [notifyStep] at hstuck
    | lock =>
      have hmutex : (p.phase i).holdsMutex = true := by simpa [notifyStep] using hstuck
      rcases hrest i (hquiet i (Phase.not_mayNotify (.inl hmutex))) with h | h <;>
        simp [h, Phase.holdsMutex] at hmutex
  exact ⟨hsilent, fun w => hrest w (hsilent _)⟩

/-- At rest the threads that have been told to stop have returned and the others wait, and only
tasks for the former are left. -/
theorem Quiescent.left [Fintype σ] (hq : Quiescent numaNode p) (hh : Handed p) (hc : Conserved p d)
    (hs : Stocked p) (hw : Wakeful p) :
    (∀ w, p.phase w = if p.stopRequested w then .exited else .waiting false) ∧
    ∀ r ∈ unexecuted p d, p.stopRequested r.2 = true := by
  obtain ⟨hsilent, hrest⟩ := hq.rest hc.1 hh hw
  have hnobody : ∀ {stage i}, ¬ p.Notifies stage i := by
    rintro stage i ⟨a, others, ha⟩
    rw [hsilent] at ha
    cases ha
  have hphase : ∀ w, p.phase w = if p.stopRequested w then .exited else .waiting false := by
    intro w
    rcases hrest w with hwaiting | hexited
    · cases hstop : p.stopRequested w with
      | true => exact absurd (hw.stopping w hwaiting hstop) hnobody
      | false => simpa using hwaiting
    · simpa [hw.exited w hexited] using hexited
  refine ⟨hphase, fun r hr => ?_⟩
  by_contra hstop
  have hwaiting : p.phase r.2 = .waiting false := by simpa [hstop] using hphase r.2
  have hfits : p.pendingQueue r.2 = [] ∧ (p.localQueue r.2).queue.contents = [] := by
    have hfits := hs r.2
    rw [hwaiting] at hfits
    exact hfits
  have hcarried : ∀ w, (p.phase w).carried w = 0 ∧ (p.phase w).victim = none := by
    intro w
    rcases hrest w with h | h <;> rw [h] <;> exact ⟨rfl, rfl⟩
  rcases mem_unexecuted hr with ⟨node, hne⟩ | hne | hne | ⟨w, hne⟩
  · cases hw.watched r.2 [] (by rw [hwaiting]; rfl) with
    | sleeping _ seen => exact hnobody (seen node List.not_mem_nil hne)
    | found lock => exact hnobody lock
    | passed _ signal => exact hnobody signal
  · exact hne hfits.1
  · have hcontents : (d r.2).contents = [] :=
      List.map_eq_nil_iff.mp ((hc.1 r.2).contents.symm.trans hfits.2)
    have hhands : ∀ t, (d r.2).hand t = none :=
      fun t => (hc.1 r.2).hand_none (hh.none_of (hcarried t).2 r.2)
    exact hne (by simp [inside, hcontents, hhands])
  · exact hne (hcarried w).1

end Rest

variable [DecidableEq σ] [DecidableEq Task] {numaNode : Fin T → Int} {p q : Pool T σ Task}
  {d : Fin T → Deque (Fin T) Task} {w : Fin T} {phase : Phase T σ Task}

/-- What a step of `pop` or `run` leaves of the queues of the other threads. -/
theorem Popped.stock (hd : Represented p d) (h : Popped numaNode p w phase q) {i : Fin T}
    (hi : i ≠ w) : q.pendingQueue i = p.pendingQueue i ∧
    ((p.localQueue i).queue.contents = [] → (q.localQueue i).queue.contents = []) ∧
    ((p.localQueue i).queue.Ready → (q.localQueue i).queue.Ready) := by
  cases h with
  | took | empty | lost =>
    rw [setLocal_others hi]
    exact ⟨rfl, id, id⟩
  | moved =>
    refine ⟨Function.update_of_ne hi _ _, ?_⟩
    simp only [setPending, setLocal_others hi]
    exact ⟨id, id⟩
  | appended => exact ⟨Function.update_of_ne hi _ _, id, id⟩
  | claimed _ _ hstep | nothing _ _ hstep | read _ hstep | readNull _ hstep =>
    exact ⟨rfl, setLocal_thief hd hstep rfl i⟩
  | _ => exact ⟨rfl, id, id⟩

theorem Popped.fits (hd : Represented p d) (hs : Stocked p) (h : Popped numaNode p w phase q) :
    phase.Fits (q.pendingQueue w) (q.localQueue w).queue := by
  have hfits := hs w
  cases h with
  | took | read | gotTask | stopped | kept | awake | stored | executed => trivial
  | empty here hstep =>
    simp only [setLocal, Function.update_self]
    exact (LifoQueue.step_pop_none (hd w) hstep).2
  | @collected _ _ _ asleep here =>
    rw [here] at hfits
    cases asleep <;> exact hfits
  | @noTasks asleep here hempty =>
    rw [here] at hfits
    cases asleep with
    | false => exact ⟨hempty, hfits⟩
    | true => exact hfits
  | appended here hsome =>
    simp only [setPending, Phase.Fits, Function.update_self]
    exact hsome
  | moved here hstep =>
    rw [here] at hfits
    simp only [setPending, setLocal, Phase.Fits, Function.update_self]
    exact LifoQueue.step_pushAll_ready (hd w).wf hstep hfits
  | lost here hstep =>
    rw [here] at hfits
    refine absurd (LifoQueue.step_pop_none (hd w) hstep).1 fun hnil => hfits ?_
    exact (List.append_eq_nil_iff.mp hnil).2
  | thief here | gaveUp _ here | locked here | dozed here | slept here | woken here =>
    rw [here] at hfits
    exact hfits
  | alone here =>
    rw [here] at hfits
    exact Phase.fits_nextSteal hfits
  | claimed here _ hstep =>
    rw [here] at hfits
    exact ⟨hfits.1, (setLocal_thief hd hstep rfl w).1 hfits.2⟩
  | nothing here _ hstep | readNull here hstep =>
    rw [here] at hfits
    exact Phase.fits_nextSteal ⟨hfits.1, (setLocal_thief hd hstep rfl w).1 hfits.2⟩

theorem Stepped.stocked (hd : Represented p d) (hs : Stocked p) (h : Stepped numaNode p q) :
    Stocked q := by
  cases h with
  | @popped w phase q hn hpop =>
    intro i
    by_cases hi : i = w
    · subst hi
      simpa [Pool.goto] using hpop.fits hd hs
    · obtain ⟨hpending, hqueue⟩ := hpop.stock hd hi
      have hphase : (q.goto w phase).phase i = p.phase i := by
        rw [← hpop.phase_eq]
        exact Function.update_of_ne hi _ _
      rw [hphase]
      exact ((congrArg (fun l => (p.phase i).Fits l _) hpending).mpr ((hs i).thief hqueue))
  | notified hn =>
    cases hn with
    | sleeping | awake | locked => exact hs
    | @signalled i others here =>
      intro j
      by_cases hj : j = i
      · subst hj
        have hfits := hs j
        simp only [setNotifying, Pool.goto, Function.update_self]
        cases hphase : p.phase j <;> rw [hphase] at hfits <;> exact hfits
      · simpa [setNotifying, Pool.goto, hj] using hs j
  | @weakFails w here =>
    intro i
    by_cases hi : i = w
    · subst hi
      simp [Pool.goto, Phase.Fits]
    · simpa [Pool.goto, hi] using hs i
  | @spurious w signalled here =>
    intro i
    by_cases hi : i = w
    · subst hi
      have hfits := hs i
      rw [here] at hfits
      simpa [Pool.goto, Phase.Fits] using hfits
    · simpa [Pool.goto, hi] using hs i
  | registered | submitted | stopRequested => exact hs
  | @pushed w task s pending ok hrunning =>
    intro i
    by_cases hi : i = w
    · subst hi
      cases hphase : p.phase i <;> simp_all [Phase.isRunning, Phase.Fits, setLocal, setPending]
    · simpa [setLocal, setPending, hi] using hs i
  | @prepended w tasks hrunning =>
    intro i
    by_cases hi : i = w
    · subst hi
      cases hphase : p.phase i <;> simp_all [Phase.isRunning, Phase.Fits, setPending]
    · simpa [setPending, hi] using hs i

section Runs

variable [Fintype σ] {numBlocks blockSize : Nat} {es : List (Event T σ Task)}

theorem run_kept (hpos : 0 < blockSize)
    (h : run (step numaNode) (start T σ Task numBlocks blockSize) es = some p) :
    Handed p ∧ ∃ d, Conserved p d ∧ Stocked p ∧ Wakeful p := by
  refine run_stepped (I := fun p => ∃ d, Conserved p d ∧ Stocked p ∧ Wakeful p)
    ⟨_, start_conserved hpos, start_stocked _ _, start_wakeful _ _⟩ ?_ h
  rintro u v - ⟨d, hc, hs, hw⟩ hstep
  obtain ⟨d', hc'⟩ := hstep.conserved hc
  exact ⟨d', hc', hstep.stocked hc.1 hs, hstep.wakeful hw⟩

end Runs

end Pool
