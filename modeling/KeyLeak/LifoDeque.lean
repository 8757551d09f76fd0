import KeyLeak.Lib.StealDeque
import KeyLeak.LifoQueue

/-!
# The queue is a deque

With the operations of the queue as atomic steps, the owner and the thieves, in whatever order they
come, get the results of a deque from which thieves take the oldest element and the owner the
newest; a slot that has been claimed keeps its element until it is read.
-/
namespace LifoQueue

open Runs StealDeque

variable {ι α : Type}

/-- A queue and what its thieves have claimed. -/
structure State (ι α : Type) where
  queue : Queue α
  hand : ι → Option (Nat × Nat)

def start (numBlocks blockSize : Nat) : State ι α := ⟨.new numBlocks blockSize, fun _ => none⟩

/-- A hand that has claimed a slot holds what is in it. -/
def Holds (q : Queue α) : Option (Nat × Nat) → Option α → Prop
  | none, none => True
  | some slot, some value => slot.2 < (q.blocks slot.1).claimed ∧
      (q.blocks slot.1).ringBuffer slot.2 = some value
  | _, _ => False

theorem Holds.mono {q q' : Queue α} {slot : Option (Nat × Nat)} {value : Option α}
    (h : Holds q slot value)
    (hle : ∀ s, slot = some s → (q.blocks s.1).claimed ≤ (q'.blocks s.1).claimed)
    (hring : ∀ s, slot = some s → s.2 < (q.blocks s.1).claimed →
      (q'.blocks s.1).ringBuffer s.2 = (q.blocks s.1).ringBuffer s.2) : Holds q' slot value := by
  cases slot with
  | none => cases value <;> exact h
  | some slot =>
    cases value with
    | none => exact h
    | some value =>
      exact ⟨Nat.lt_of_lt_of_le h.1 (hle slot rfl), (hring slot rfl h.1).trans h.2⟩

section Represents

variable [Fintype ι]

/-- How many thieves have claimed a slot of block `i` and not read it. -/
def inflight (hand : ι → Option (Nat × Nat)) (i : Nat) : Nat :=
  ∑ t, if (hand t).map Prod.fst = some i then 1 else 0

theorem inflight_pos {hand : ι → Option (Nat × Nat)} {t : ι} {slot : Nat × Nat}
    (h : hand t = some slot) : 0 < inflight hand slot.1 := by
  have hone : (if (hand t).map Prod.fst = some slot.1 then 1 else 0) ≤ inflight hand slot.1 :=
    Finset.single_le_sum (f := fun t => if (hand t).map Prod.fst = some slot.1 then 1 else 0)
      (fun _ _ => Nat.zero_le _) (Finset.mem_univ t)
  exact Nat.lt_of_lt_of_le (by simp [h]) hone

/-- The queue and its thieves represent a deque. -/
structure Represents (s : State ι α) (d : Deque ι α) : Prop where
  wf : s.queue.Wf
  contents : s.queue.contents = d.contents.map some
  hands : ∀ t, Holds s.queue (s.hand t) (d.hand t)
  reads : ∀ i, (s.queue.blocks i).stealHead + inflight s.hand i = (s.queue.blocks i).claimed

/-- What the owner does carries the representation over. -/
theorem Represents.kept {s : State ι α} {d : Deque ι α} (h : Represents s d) {q : Queue α}
    (hwf : q.Wf) (hkept : Queue.Kept s.queue q) {contents : List α}
    (hcontents : q.contents = contents.map some) :
    Represents { s with queue := q } { d with contents := contents } := by
  refine ⟨hwf, hcontents, fun t => ?_, fun i => ?_⟩
  · have hsame : ∀ slot, s.hand t = some slot → (q.blocks slot.1).claimed =
        (s.queue.blocks slot.1).claimed ∧ ∀ p, p < (s.queue.blocks slot.1).claimed →
        (q.blocks slot.1).ringBuffer p = (s.queue.blocks slot.1).ringBuffer p := by
      intro slot hslot
      cases hkept slot.1 with
      | same hclaimed _ hring => exact ⟨hclaimed, hring⟩
      | reset hdone _ _ =>
        have := h.reads slot.1
        have := inflight_pos hslot
        omega
    exact (h.hands t).mono (fun slot hslot => (hsame slot hslot).1.ge)
      fun slot hslot hlt => (hsame slot hslot).2 _ hlt
  · have hreads := h.reads i
    cases hkept i with
    | same hclaimed hreads' _ => exact (by rw [hclaimed, hreads']; exact hreads)
    | reset hdone hclaimed hreads' =>
      change (q.blocks i).stealHead + inflight s.hand i = (q.blocks i).claimed
      omega

theorem Represents.hand_none {s : State ι α} {d : Deque ι α} (h : Represents s d) {t : ι}
    (hs : s.hand t = none) : d.hand t = none := by
  have hhand := h.hands t
  rw [hs] at hhand
  cases hd : d.hand t with
  | none => rfl
  | some value =>
    rw [hd] at hhand
    exact hhand.elim

theorem start_represents (numBlocks : Nat) {blockSize : Nat} (h : 0 < blockSize) :
    Represents (start numBlocks blockSize : State ι α) StealDeque.empty := by
  refine ⟨Queue.new_wf numBlocks h, ?_, fun _ => trivial, fun i => ?_⟩
  · rw [Queue.contents, Block.own_nil rfl, Queue.shared]
    change ((List.Ico 0 1).map fun c => (Block.new blockSize : Block α).unclaimed).flatten ++ [] = _
    rw [Block.Idle.unclaimed ⟨rfl, rfl, Nat.zero_le _⟩]
    rfl
  · simp [start, Queue.new, Block.new, Block.claimed, inflight]

/-- A push waits for a thief that has claimed a slot. -/
theorem Represents.unread {s : State ι α} {d : Deque ι α} (h : Represents s d)
    (hunread : s.queue.Unread) : ∃ t, s.hand t ≠ none := by
  obtain ⟨i, hi⟩ := hunread
  by_contra hnone
  push Not at hnone
  have hcount := h.reads i
  simp only [inflight, hnone, Option.map_none, reduceCtorEq, if_false, Finset.sum_const_zero]
    at hcount
  exact hi hcount

end Represents

section Step

variable [DecidableEq ι] [DecidableEq α]

/-- An operation is a step when it gives the result of the event; one that would wait is none. -/
def step (s : State ι α) : Event ι α → Option (State ι α)
  | .push value ok =>
    match s.queue.pushBack value with
    | some (ok', q) => if ok' = ok then some { s with queue := q } else none
    | none => none
  | .pushAll values rest =>
    match s.queue.pushAll values with
    | some (rest', q) => if rest' = rest then some { s with queue := q } else none
    | none => none
  | .pop result =>
    match s.queue.popBack with
    | some (result', q) => if result' = result then some { s with queue := q } else none
    | none => none
  | .claim thief found =>
    match s.hand thief, s.queue.stealFront with
    | none, some (slot, q) =>
      if slot.isSome = found then some ⟨q, Function.update s.hand thief slot⟩ else none
    | _, _ => none
  | .read thief result =>
    match s.hand thief with
    | some slot =>
      let (result', q) := s.queue.readSlot slot
      if result' = result then some ⟨q, Function.update s.hand thief none⟩ else none
    | none => none

/-- The hand an operation changes. -/
def thief : Event ι α → Option ι
  | .claim t _ | .read t _ => some t
  | _ => none

theorem step_hand {s s' : State ι α} {e : Event ι α} (h : step s e = some s') {u : ι}
    (hu : thief e ≠ some u) : s'.hand u = s.hand u := by
  cases e with
  | push | pushAll | pop =>
    simp only [step] at h
    split at h
    · split at h <;> cases h
      rfl
    · cases h
  | claim t found =>
    have hne : u ≠ t := fun heq => hu (congrArg some heq.symm)
    simp only [step] at h
    split at h
    · split at h <;> cases h
      exact Function.update_of_ne hne _ _
    · cases h
  | read t result =>
    have hne : u ≠ t := fun heq => hu (congrArg some heq.symm)
    simp only [step] at h
    split at h
    · split at h <;> cases h
      exact Function.update_of_ne hne _ _
    · cases h

theorem step_claim {s s' : State ι α} {t : ι} {found : Bool}
    (h : step s (.claim t found) = some s') : (s'.hand t).isSome = found := by
  simp only [step] at h
  split at h
  · split at h <;> cases h
    next hfound => simpa using hfound
  · cases h

theorem step_read {s s' : State ι α} {t : ι} {result : Option α}
    (h : step s (.read t result) = some s') : s'.hand t = none := by
  simp only [step] at h
  split at h
  · split at h <;> cases h
    exact Function.update_self _ _ _
  · cases h

/-- What thieves do leaves an empty queue empty and the owner's block as it is. -/
theorem step_thief {s s' : State ι α} {e : Event ι α} (hwf : s.queue.Wf)
    (hstep : step s e = some s') {t : ι} (ht : thief e = some t) :
    (s.queue.contents = [] → s'.queue.contents = []) ∧ (s.queue.Ready → s'.queue.Ready) := by
  cases e with
  | push | pushAll | pop => cases ht
  | claim t found =>
    obtain ⟨⟨slot, q⟩, hq, hstolen⟩ := hwf.stealFront
    simp only [step, hq] at hstep
    split at hstep
    next hsome =>
      cases hsome
      split at hstep <;> cases hstep
      cases hstolen with
      | claimed hclaim =>
        refine ⟨fun hnil => ?_, fun hready => ?_⟩
        · have hfront := hclaim.front
          rw [hnil] at hfront
          cases hfront
        · rw [Queue.Ready, hclaim.owner]
          exact hready
      | nothing => exact ⟨id, id⟩
    next => cases hstep
  | read t result =>
    simp only [step] at hstep
    split at hstep
    next slot _ =>
      split at hstep <;> cases hstep
      refine ⟨fun hnil => (hwf.readSlot slot).2.1.trans hnil, fun hready => ?_⟩
      rw [Queue.Ready, Queue.readSlot_own]
      exact hready
    next => cases hstep

theorem step_pushAll_ready {s s' : State ι α} (hwf : s.queue.Wf) {values rest : List α}
    (hstep : step s (.pushAll values rest) = some s') (hne : values ≠ []) : s'.queue.Ready := by
  have hpush := hwf.pushAll values
  simp only [step] at hstep
  generalize s.queue.pushAll values = r at hpush hstep
  cases hpush with
  | pushed taken hsplit hwf' hkept hcontents hfull hready =>
    simp at hstep
    obtain ⟨rfl, rfl⟩ := hstep
    exact hready hne
  | waiting => simp at hstep

variable [Fintype ι]

theorem inflight_update (hand : ι → Option (Nat × Nat)) (t : ι) (slot : Option (Nat × Nat)) (i : Nat) :
    inflight (Function.update hand t slot) i + (if (hand t).map Prod.fst = some i then 1 else 0) =
      inflight hand i + (if slot.map Prod.fst = some i then 1 else 0) :=
  Workers.sum_update (fun slot => if slot.map Prod.fst = some i then 1 else 0) hand t slot

/-- A claim takes the oldest element into the thief's hand. -/
theorem Represents.claimed {s : State ι α} {d : Deque ι α} (h : Represents s d) {t : ι}
    (hs : s.hand t = none) {i : Nat} {q : Queue α} (hclaim : s.queue.Claimed i q) :
    ∃ d', StealDeque.step d (.claim t true) = some d' ∧
      Represents ⟨q, Function.update s.hand t (some (i, (s.queue.blocks i).claimed))⟩ d' := by
  have hfront := hclaim.front
  rw [h.contents] at hfront
  obtain ⟨value, rest, hd, hvalue, hrest⟩ := List.map_eq_cons_iff.mp hfront
  refine ⟨⟨rest, Function.update d.hand t (some value)⟩, ?_, hclaim.wf, hrest.symm, fun u => ?_,
    fun j => ?_⟩
  · simp [StealDeque.step, hd, h.hand_none hs]
  · by_cases hu : u = t
    · subst hu
      simp only [Function.update_self]
      exact ⟨by rw [hclaim.slot]; exact Nat.lt_succ_self _, by rw [hclaim.ring]; exact hvalue.symm⟩
    · simp only [Function.update_of_ne hu]
      refine (h.hands u).mono (fun slot _ => ?_) fun slot _ _ => ?_ <;>
        by_cases hj : slot.1 = i
      · rw [hj, hclaim.slot]
        exact Nat.le_succ _
      · rw [hclaim.others _ hj]
      · rw [hj, hclaim.ring]
      · rw [hclaim.others _ hj]
  · have hcount := inflight_update s.hand t (some (i, (s.queue.blocks i).claimed)) j
    have hreads := h.reads j
    simp only [hs, Option.map_none, reduceCtorEq, if_false, Option.map_some, Option.some.injEq]
      at hcount
    change (q.blocks j).stealHead + inflight (Function.update s.hand t _) j = _
    by_cases hj : j = i
    · subst hj
      rw [if_pos rfl] at hcount
      rw [hclaim.reads, hclaim.slot]
      omega
    · rw [if_neg (Ne.symm hj)] at hcount
      rw [hclaim.others j hj]
      omega

theorem Represents.read {s : State ι α} {d : Deque ι α} (h : Represents s d) {t : ι}
    {slot : Nat × Nat} (hs : s.hand t = some slot) {result : Option α}
    (hresult : (s.queue.readSlot slot).1 = result) :
    ∃ d', StealDeque.step d (.read t result) = some d' ∧
      Represents ⟨(s.queue.readSlot slot).2, Function.update s.hand t none⟩ d' := by
  have hhand := h.hands t
  rw [hs] at hhand
  obtain ⟨hwf, hcontents, hblock⟩ := h.wf.readSlot slot
  cases hd : d.hand t with
  | none =>
    rw [hd] at hhand
    exact hhand.elim
  | some value =>
    rw [hd] at hhand
    have hvalue : result = some value := hresult.symm.trans hhand.2
    subst hvalue
    refine ⟨{ d with hand := Function.update d.hand t none }, if_pos hd, hwf,
      hcontents.trans h.contents, fun u => ?_, fun j => ?_⟩
    · by_cases hu : u = t
      · subst hu
        simp [Holds]
      · simp only [Function.update_of_ne hu]
        exact (h.hands u).mono (fun s _ => (hblock s.1).1.ge) fun s _ _ => congrFun (hblock s.1).2.1 _
    · have hcount := inflight_update s.hand t none j
      have hreads := h.reads j
      simp only [hs, Option.map_none, reduceCtorEq, if_false, Option.map_some, Option.some.injEq]
        at hcount
      change ((s.queue.readSlot slot).2.blocks j).stealHead + inflight (Function.update s.hand t none) j = _
      rw [(hblock j).1, (hblock j).2.2]
      by_cases hj : slot.1 = j
      · rw [if_pos hj] at hcount ⊢
        omega
      · rw [if_neg hj] at hcount ⊢
        omega

theorem step_represents {s s' : State ι α} {d : Deque ι α} {e : Event ι α} (h : Represents s d)
    (hstep : step s e = some s') : ∃ d', StealDeque.step d e = some d' ∧ Represents s' d' := by
  cases e with
  | push value ok =>
    have hpush := h.wf.pushBack value
    simp only [step] at hstep
    generalize s.queue.pushBack value = r at hpush hstep
    cases hpush with
    | pushed hwf hkept hcontents =>
      cases ok <;> simp at hstep
      subst hstep
      exact ⟨_, rfl, h.kept hwf hkept (by rw [hcontents, h.contents]; simp)⟩
    | full =>
      cases ok <;> simp at hstep
      subst hstep
      exact ⟨d, rfl, h⟩
    | waiting => simp at hstep
  | pushAll values rest =>
    have hpush := h.wf.pushAll values
    simp only [step] at hstep
    generalize s.queue.pushAll values = r at hpush hstep
    cases hpush with
    | pushed taken hsplit hwf hkept hcontents =>
      simp at hstep
      obtain ⟨rfl, rfl⟩ := hstep
      subst hsplit
      refine ⟨_, if_pos (List.suffix_append _ _), h.kept hwf hkept ?_⟩
      rw [hcontents, h.contents, StealDeque.taken_append, List.map_append]
    | waiting => simp at hstep
  | pop result =>
    obtain ⟨r, q, hq, hwf, hkept, hcontents⟩ := h.wf.popBack
    simp [step, hq] at hstep
    obtain ⟨rfl, rfl⟩ := hstep
    rcases hcontents with hcontents | ⟨rfl, hempty, rfl⟩
    · rw [h.contents, List.map_eq_append_iff] at hcontents
      obtain ⟨rest, last, hd, hrest, hlast⟩ := hcontents
      obtain ⟨value, rfl, rfl⟩ := List.map_eq_singleton_iff.mp hlast
      refine ⟨{ d with contents := rest }, ?_, h.kept hwf hkept hrest.symm⟩
      simp [StealDeque.step, hd]
    · have hd : d.contents = [] := List.map_eq_nil_iff.mp (h.contents.symm.trans hempty)
      exact ⟨d, if_pos hd, h⟩
  | claim thief found =>
    obtain ⟨⟨slot, q⟩, hq, hstolen⟩ := h.wf.stealFront
    cases hs : s.hand thief with
    | some slot => simp [step, hs] at hstep
    | none =>
      simp only [step, hs, hq] at hstep
      cases hstolen with
      | claimed hclaim =>
        cases found <;> simp at hstep
        subst hstep
        exact h.claimed hs hclaim
      | nothing =>
        cases found <;> simp at hstep
        subst hstep
        refine ⟨d, rfl, ?_⟩
        rwa [← hs, Function.update_eq_self]
  | read thief result =>
    cases hs : s.hand thief with
    | none => simp [step, hs] at hstep
    | some slot =>
      simp only [step, hs] at hstep
      split at hstep <;> cases hstep
      next hresult => exact h.read hs hresult

theorem step_pop_none {s s' : State ι α} {d : Deque ι α} (h : Represents s d)
    (hstep : step s (.pop none) = some s') :
    s.queue.contents = [] ∧ s'.queue.contents = [] := by
  obtain ⟨d', hd', h'⟩ := step_represents h hstep
  simp only [StealDeque.step] at hd'
  split at hd' <;> cases hd'
  next hnil => simp [h.contents, h'.contents, hnil]

section Runs

variable {numBlocks blockSize : Nat} {es : List (Event ι α)} {s : State ι α}

theorem run_represents (hpos : 0 < blockSize)
    (h : run step (start numBlocks blockSize) es = some s) :
    ∃ d, run StealDeque.step StealDeque.empty es = some d ∧ Represents s d :=
  run_simulation (fun _ _ _ _ => step_represents) (start_represents numBlocks hpos) h

/-- After whole operations, in whatever order, the next one has an answer, except that a push may
wait as long as some thief has claimed a slot and not read it; and a thief never reads a null
pointer. -/
theorem queue_answers (hpos : 0 < blockSize)
    (h : run step (start numBlocks blockSize) es = some s) :
    (∃ result, (step s (.pop result)).isSome) ∧
    (∀ t, s.hand t = none → ∃ found, (step s (.claim t found)).isSome) ∧
    (∀ t, s.hand t ≠ none → ∃ value, (step s (.read t (some value))).isSome) ∧
    ((∀ t, s.hand t = none) →
      (∀ value, ∃ ok, (step s (.push value ok)).isSome) ∧
      ∀ values, ∃ rest, (step s (.pushAll values rest)).isSome) := by
  obtain ⟨d, -, hrep⟩ := run_represents hpos h
  refine ⟨?_, fun t ht => ?_, fun t ht => ?_, fun hnone => ?_⟩
  · obtain ⟨r, q, hq, -⟩ := hrep.wf.popBack
    exact ⟨r, by simp [step, hq]⟩
  · obtain ⟨⟨slot, q⟩, hq, -⟩ := hrep.wf.stealFront
    exact ⟨slot.isSome, by simp [step, ht, hq]⟩
  · obtain ⟨slot, hslot⟩ := Option.ne_none_iff_exists'.mp ht
    have hhand := hrep.hands t
    rw [hslot] at hhand
    cases hd : d.hand t with
    | none =>
      rw [hd] at hhand
      exact hhand.elim
    | some value =>
      rw [hd] at hhand
      exact ⟨value, by simp [step, hslot, Queue.readSlot, Block.read, hhand.2]⟩
  · have hread : ¬ s.queue.Unread := by
      intro hu
      obtain ⟨t, ht⟩ := hrep.unread hu
      exact ht (hnone t)
    refine ⟨fun value => ?_, fun values => ?_⟩
    · have hpush := hrep.wf.pushBack value
      simp only [step]
      generalize s.queue.pushBack value = r at hpush
      cases hpush with
      | pushed => exact ⟨true, by simp⟩
      | full => exact ⟨false, by simp⟩
      | waiting hunread => exact absurd hunread hread
    · have hpush := hrep.wf.pushAll values
      simp only [step]
      generalize s.queue.pushAll values = r at hpush
      cases hpush with
      | @pushed rest => exact ⟨rest, by simp⟩
      | waiting hunread => exact absurd hunread hread

end Runs

end Step

/-- Four blocks of one slot: the fourth push finds no free block. -/
theorem start_four : (start 4 1 : State ι Nat) =
    ⟨⟨1, 0, fun _ => .new 1, 3⟩, fun _ => none⟩ := by
  have hceil : Nat.nextPowerOfTwo 4 = 4 := by decide +kernel
  simp [start, Queue.new, hceil]

theorem queue_answers_four : ∃ s : State (Fin 2) Nat,
    run step (start 4 1) [.push 1 true, .push 2 true, .claim 0 true] = some s ∧
    s.hand 0 ≠ none ∧ ∃ value, (step s (.read 0 (some value))).isSome := by
  obtain ⟨s, hs, hhand⟩ : ∃ s : State (Fin 2) Nat,
      run step (start 4 1) [.push 1 true, .push 2 true, .claim 0 true] = some s ∧
      s.hand 0 ≠ none := by
    rw [start_four]
    exact ⟨_, rfl, by decide⟩
  exact ⟨s, hs, hhand, (queue_answers Nat.one_pos hs).2.2.1 0 hhand⟩

end LifoQueue
