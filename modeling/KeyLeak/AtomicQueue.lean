import KeyLeak.IntrusiveQueue
import KeyLeak.Lib.Runs

/-!
# The atomic queues between the threads

A task reaches a pool thread through an `__atomic_intrusive_queue`: whoever submits it links it
to the head it has read and swaps the head, and the pool thread swaps the head for null and
reverses what it has got. Each step below is one atomic action on such a head or one step of
a thread on items that are its own; the threads interleave as they like, and a
`compare_exchange_weak` may fail at any time. An operation on a queue that belongs to one thread
is one step, `move_pending_to_local` with its `splice` among them.
-/
namespace AtomicQueue

open Runs Chain IntrusiveQueue

/-- Where a thread is in `push_front`, `prepend` or `pop_all_reversed`. -/
inductive Phase (κ N : Type) where
  | idle
  /-- Before the last item is linked to the old head. -/
  | linking (k : κ) (newHead tail oldHead : Option N)
  | pushing (k : κ) (newHead tail oldHead : Option N)
  /-- In `reset_head`. -/
  | resetting (k : κ) (oldHead : Option N)
  /-- In `make_reversed`. -/
  | reversing (list newHead newTail : Option N)
  deriving DecidableEq

/-- `linked` records the items that are in a queue, or on their way from one to another. -/
structure State (ι κ ρ N : Type) where
  next : N → Option N
  linked : N → Bool
  /-- `__head_` of the atomic queues. -/
  head : κ → Option N
  /-- The queues that belong to one thread each. -/
  queue : ρ → Queue N
  phase : ι → Phase κ N

inductive Event (ι κ ρ N : Type) where
  | pushFront (q : ρ) (item : N)
  | pushBack (q : ρ) (item : N)
  | popFront (q : ρ) (item : N)
  | append (q other : ρ)
  | prepend (q other : ρ)
  | movePendingToLocal (q : ρ) (moved : List N)
  /-- `push_front` of an atomic queue reads the head. -/
  | submit (i : ι) (k : κ) (item : N)
  /-- `prepend` of an atomic queue reads the head. -/
  | submitAll (i : ι) (k : κ) (q : ρ)
  | link (i : ι)
  /-- `compare_exchange_weak`; where it succeeds, whether the queue was empty. -/
  | compareExchange (i : ι) (k : κ) (wasEmpty : Option Bool)
  | resetHead (i : ι) (k : κ)
  | exchangeNull (i : ι) (k : κ) (ok : Bool)
  | reverse (i : ι)
  /-- `tasks.append(pop_all_reversed())` -/
  | appendReversed (i : ι) (q : ρ)
  deriving DecidableEq

variable {ι κ ρ N : Type}

def start (ι κ ρ N : Type) : State ι κ ρ N where
  next := fun _ => none
  linked := fun _ => false
  head := fun _ => none
  queue := fun _ => clear
  phase := fun _ => .idle

section Step

variable [DecidableEq ι] [DecidableEq κ] [DecidableEq ρ] [DecidableEq N]

/-- An item that is linked already is not handed in again. `prepend` would follow the null tail of
an empty queue; its only caller does not call it with one. -/
def step (s : State ι κ ρ N) : Event ι κ ρ N → Option (State ι κ ρ N)
  | .pushFront q item =>
    if s.linked item then none
    else
      let (next, queue) := pushFront s.next (s.queue q) item
      some { s with
        next := next
        linked := Function.update s.linked item true
        queue := Function.update s.queue q queue }
  | .pushBack q item =>
    if s.linked item then none
    else
      let (next, queue) := pushBack s.next (s.queue q) item
      some { s with
        next := next
        linked := Function.update s.linked item true
        queue := Function.update s.queue q queue }
  | .popFront q item => (popFront s.next (s.queue q)).bind fun (front, queue) =>
    if front = item then
      some { s with
        linked := Function.update s.linked item false
        queue := Function.update s.queue q queue }
    else
      none
  | .append q other =>
    if q = other then none
    else (append s.next (s.queue q) (s.queue other)).map fun (next, queue) =>
      { s with
        next := next
        queue := Function.update (Function.update s.queue other clear) q queue }
  | .prepend q other =>
    if q = other then none
    else (prepend s.next (s.queue q) (s.queue other)).map fun (next, queue) =>
      { s with
        next := next
        queue := Function.update (Function.update s.queue other clear) q queue }
  | .movePendingToLocal q moved =>
    (movePendingToLocal s.next (s.queue q) moved.length).bind fun (items, next, queue) =>
      if items = moved then
        some { s with
          next := next
          linked := fun item => s.linked item && item ∉ moved
          queue := Function.update s.queue q queue }
      else
        none
  | .submit i k item =>
    match s.phase i with
    | .idle =>
      if s.linked item then none
      else
        some { s with
          linked := Function.update s.linked item true
          phase := Function.update s.phase i (.linking k (some item) (some item) (s.head k)) }
    | _ => none
  | .submitAll i k q =>
    match s.phase i with
    | .idle =>
      if (s.queue q).isEmpty then none
      else
        some { s with
          queue := Function.update s.queue q clear
          phase := Function.update s.phase i
            (.linking k (s.queue q).head (s.queue q).tail (s.head k)) }
    | _ => none
  | .link i =>
    match s.phase i with
    | .linking k newHead tail oldHead => (setNext s.next tail oldHead).map fun next =>
      { s with
        next := next
        phase := Function.update s.phase i (.pushing k newHead tail oldHead) }
    | _ => none
  | .compareExchange i k wasEmpty =>
    match s.phase i with
    | .pushing k' newHead tail oldHead =>
      match wasEmpty with
      | some wasEmpty =>
        if k' = k ∧ s.head k = oldHead ∧ wasEmpty = oldHead.isNone then
          some { s with
            head := Function.update s.head k newHead
            phase := Function.update s.phase i .idle }
        else
          none
      | none =>
        if k' = k then
          some { s with phase := Function.update s.phase i (.linking k newHead tail (s.head k)) }
        else
          none
    | _ => none
  | .resetHead i k =>
    match s.phase i with
    | .idle => some { s with phase := Function.update s.phase i (.resetting k (s.head k)) }
    | _ => none
  | .exchangeNull i k ok =>
    match s.phase i with
    | .resetting k' oldHead =>
      match ok with
      | true =>
        if k' = k ∧ s.head k = oldHead then
          some { s with
            head := Function.update s.head k none
            phase := Function.update s.phase i (.reversing oldHead none oldHead) }
        else
          none
      | false =>
        if k' = k then
          some { s with phase := Function.update s.phase i (.resetting k (s.head k)) }
        else
          none
    | _ => none
  | .reverse i =>
    match s.phase i with
    | .reversing (some item) newHead newTail =>
      let (next, newHead, list) := reverseRound s.next newHead item
      some { s with
        next := next
        phase := Function.update s.phase i (.reversing list newHead newTail) }
    | _ => none
  | .appendReversed i q =>
    match s.phase i with
    | .reversing none newHead newTail =>
      (append s.next (s.queue q) ⟨newHead, newTail⟩).map fun (next, queue) =>
        { s with
          next := next
          queue := Function.update s.queue q queue
          phase := Function.update s.phase i .idle }
    | _ => none

end Step

/-- Where an item can be: in an atomic queue, in a queue of one thread, or with a thread. -/
inductive Place (ι κ ρ : Type) where
  | shared (k : κ)
  | queue (q : ρ)
  | hand (i : ι)
  deriving DecidableEq

section Lists

variable [DecidableEq ι] [DecidableEq κ] [DecidableEq ρ] [DecidableEq N]

/-- All of one list goes where `l` is then. -/
def moveList (lists : Place ι κ ρ → List N) (p q : Place ι κ ρ) (l : List N) :
    Place ι κ ρ → List N :=
  Function.update (Function.update lists p []) q l

/-- What the same events do to lists of tasks: an atomic queue is a stack that one action pushes
a whole list on and one action empties. -/
def listStep (lists : Place ι κ ρ → List N) :
    Event ι κ ρ N → Option (Place ι κ ρ → List N)
  | .pushFront q item => some (Function.update lists (.queue q) (item :: lists (.queue q)))
  | .pushBack q item => some (Function.update lists (.queue q) (lists (.queue q) ++ [item]))
  | .popFront q item =>
    if (lists (.queue q)).head? = some item then
      some (Function.update lists (.queue q) (lists (.queue q)).tail)
    else
      none
  | .append q other =>
    some (moveList lists (.queue other) (.queue q) (lists (.queue q) ++ lists (.queue other)))
  | .prepend q other =>
    some (moveList lists (.queue other) (.queue q) (lists (.queue other) ++ lists (.queue q)))
  | .movePendingToLocal q moved =>
    if moved <+: lists (.queue q) then
      some (Function.update lists (.queue q) ((lists (.queue q)).drop moved.length))
    else
      none
  | .submit i _ item => some (Function.update lists (.hand i) [item])
  | .submitAll i _ q => some (moveList lists (.queue q) (.hand i) (lists (.queue q)))
  | .compareExchange i k (some wasEmpty) =>
    if wasEmpty = (lists (.shared k)).isEmpty then
      some (moveList lists (.hand i) (.shared k) (lists (.hand i) ++ lists (.shared k)))
    else
      none
  | .exchangeNull i k true =>
    some (moveList lists (.shared k) (.hand i) (lists (.shared k)).reverse)
  | .appendReversed i q =>
    some (moveList lists (.hand i) (.queue q) (lists (.queue q) ++ lists (.hand i)))
  | .link _ | .compareExchange _ _ none | .resetHead _ _ | .exchangeNull _ _ false | .reverse _ =>
    some lists

end Lists

/-- What a thread has in hand. -/
def Hand (next : N → Option N) (l : List N) : Phase κ N → Prop
  | .idle | .resetting .. => l = []
  | .linking _ newHead tail _ => (∃ b, Path next newHead l b) ∧ tail = l.getLast? ∧ l ≠ []
  | .pushing _ newHead tail oldHead => Path next newHead l oldHead ∧ tail = l.getLast? ∧ l ≠ []
  | .reversing list newHead newTail => ∃ m r, Path next list m none ∧ Path next newHead r none ∧
    l = m.reverse ++ r ∧ newTail = l.getLast?

/-- A place holds a list. -/
def Stored (s : State ι κ ρ N) (l : List N) : Place ι κ ρ → Prop
  | .shared k => Path s.next (s.head k) l none
  | .queue q => Holds s.next (s.queue q) l
  | .hand i => Hand s.next l (s.phase i)

structure Represents (s : State ι κ ρ N) (lists : Place ι κ ρ → List N) : Prop where
  apart : Apart lists
  linked : ∀ item, s.linked item = true ↔ ∃ p, item ∈ lists p
  stored : ∀ p, Stored s (lists p) p

theorem start_represents : Represents (start ι κ ρ N) fun _ => [] where
  apart := apart_empty
  linked := by simp [start]
  stored := by
    intro p
    cases p with
    | shared k => rfl
    | queue q => exact clear_holds
    | hand i => rfl

variable {next next' : N → Option N} {l m : List N} {s s' : State ι κ ρ N}
  {lists : Place ι κ ρ → List N} {p q : Place ι κ ρ} {phase : Phase κ N}

theorem Hand.congr (h : Hand next l phase) (hframe : ∀ y ∈ l, next' y = next y) :
    Hand next' l phase := by
  cases phase with
  | idle | resetting => exact h
  | linking k newHead tail oldHead =>
    obtain ⟨⟨b, hpath⟩, hrest⟩ := h
    exact ⟨⟨b, hpath.congr hframe⟩, hrest⟩
  | pushing k newHead tail oldHead => exact ⟨h.1.congr hframe, h.2⟩
  | reversing list newHead newTail =>
    obtain ⟨m, r, hm, hr, rfl, htail⟩ := h
    refine ⟨m, r, hm.congr fun y hy => hframe y ?_, hr.congr fun y hy => hframe y ?_, rfl, htail⟩
    · simp [hy]
    · simp [hy]

/-- Nothing has changed in a place but for the links. -/
def Same (s s' : State ι κ ρ N) : Place ι κ ρ → Prop
  | .shared k => s'.head k = s.head k
  | .queue q => s'.queue q = s.queue q
  | .hand i => s'.phase i = s.phase i

theorem Stored.congr (h : Stored s l p) (hsame : Same s s' p)
    (hframe : ∀ y ∈ l, s'.next y = s.next y) : Stored s' l p := by
  cases p with
  | shared k =>
    have hpath := Path.congr h hframe
    rwa [← hsame] at hpath
  | queue q =>
    have hholds := Holds.congr h hframe
    rwa [← hsame] at hholds
  | hand i =>
    have hhand := Hand.congr h hframe
    rwa [← hsame] at hhand

/-- What `make_reversed` returns is a queue of its items. -/
theorem Represents.reversed (h : Represents s lists) {i : ι} {newHead newTail : Option N}
    (hphase : s.phase i = .reversing none newHead newTail) :
    Holds s.next ⟨newHead, newTail⟩ (lists (.hand i)) := by
  have hhand : Hand s.next (lists (.hand i)) (s.phase i) := h.stored (.hand i)
  rw [hphase] at hhand
  obtain ⟨m, r, hm, hr, hl, htail⟩ := hhand
  obtain rfl := hm.eq_nil_iff.mpr rfl
  refine ⟨?_, htail⟩
  rw [hl]
  exact hr

/-- How many steps a thread that is left alone has still to go if no swap fails spuriously. A swap
that relies on a head which has changed takes another round. -/
def Left [DecidableEq N] (s : State ι κ ρ N) (lists : Place ι κ ρ → List N) (i : ι) (n : Nat) :
    Prop :=
  match s.phase i with
  | .idle => n = 0
  | .linking k _ _ oldHead => n = if s.head k = oldHead then 2 else 4
  | .pushing k _ _ oldHead => n = if s.head k = oldHead then 1 else 3
  | .resetting k oldHead => n = (lists (.shared k)).length + if s.head k = oldHead then 2 else 3
  | .reversing list _ _ => ∃ m, Path s.next list m none ∧ n = m.length + 1

theorem exists_left [DecidableEq N] (h : Represents s lists) (i : ι) : ∃ n, Left s lists i n := by
  have hhand : Hand s.next (lists (.hand i)) (s.phase i) := h.stored (.hand i)
  unfold Left
  cases hphase : s.phase i with
  | reversing list newHead newTail =>
    rw [hphase] at hhand
    obtain ⟨m, r, hm, -⟩ := hhand
    exact ⟨m.length + 1, m, hm, rfl⟩
  | _ => exact ⟨_, rfl⟩

section Changes

variable [DecidableEq ι] [DecidableEq κ] [DecidableEq ρ]

/-- The links of one place have been written, and the lists are as before. -/
theorem Represents.rewrite (h : Represents s lists) (hlinked : s'.linked = s.linked)
    (hsame : ∀ r, r ≠ p → Same s s' r) (hframe : ∀ y ∉ lists p, s'.next y = s.next y)
    (hp : Stored s' (lists p) p) : Represents s' lists where
  apart := h.apart
  linked := hlinked ▸ h.linked
  stored := by
    intro r
    by_cases hr : r = p
    · exact hr ▸ hp
    · exact (h.stored r).congr (hsame r hr) fun y hy => hframe y fun hyp => hr (h.apart.same hy hyp)

/-- A new item enters a place. -/
theorem Represents.insert {item : N} [DecidableEq N] (h : Represents s lists)
    (hitem : s.linked item = false) (hl : l.Perm (item :: lists p))
    (hlinked : s'.linked = Function.update s.linked item true)
    (hsame : ∀ r, r ≠ p → Same s s' r)
    (hframe : ∀ y, y ≠ item → y ∉ lists p → s'.next y = s.next y) (hp : Stored s' l p) :
    Represents s' (Function.update lists p l) := by
  have hnew : ∀ r, item ∉ lists r := by
    intro r hr
    rw [(h.linked item).mpr ⟨r, hr⟩] at hitem
    cases hitem
  refine ⟨h.apart.insert hnew hl, fun y => ?_, fun r => ?_⟩
  · rw [hlinked]
    by_cases hy : y = item
    · subst hy
      simp only [Function.update_self, true_iff]
      refine ⟨p, ?_⟩
      rw [Function.update_self]
      exact hl.mem_iff.mpr List.mem_cons_self
    · rw [Function.update_of_ne hy, h.linked y]
      refine exists_congr fun r => ?_
      by_cases hr : r = p
      · subst hr
        rw [Function.update_self, hl.mem_iff, List.mem_cons]
        exact (or_iff_right hy).symm
      · rw [Function.update_of_ne hr]
  · by_cases hr : r = p
    · subst hr
      rwa [Function.update_self]
    · rw [Function.update_of_ne hr]
      refine (h.stored r).congr (hsame r hr) fun y hy => hframe y ?_ fun hyp => ?_
      · rintro rfl
        exact hnew r hy
      · exact hr (h.apart.same hy hyp)

/-- Items leave the front of a place. -/
theorem Represents.remove (h : Represents s lists) (hl : lists p = m ++ l)
    (hlinked : ∀ y, s'.linked y = true ↔ s.linked y = true ∧ y ∉ m)
    (hsame : ∀ r, r ≠ p → Same s s' r) (hframe : s'.next = s.next) (hp : Stored s' l p) :
    Represents s' (Function.update lists p l) := by
  have hnodup := h.apart.nodup p
  rw [hl] at hnodup
  have hother : ∀ {r y}, r ≠ p → y ∈ lists r → y ∉ m := by
    intro r y hr hy hm
    exact hr (h.apart.same hy (hl ▸ List.mem_append_left l hm))
  refine ⟨h.apart.shrink fun r => ?_, fun y => ?_, fun r => ?_⟩
  · by_cases hr : r = p
    · subst hr
      rw [Function.update_self, hl]
      exact List.sublist_append_right m l
    · rw [Function.update_of_ne hr]
  · rw [hlinked, h.linked]
    constructor
    · rintro ⟨⟨r, hy⟩, hm⟩
      refine ⟨r, ?_⟩
      by_cases hr : r = p
      · subst hr
        rw [Function.update_self]
        exact (List.mem_append.mp (hl ▸ hy)).resolve_left hm
      · rwa [Function.update_of_ne hr]
    · rintro ⟨r, hy⟩
      by_cases hr : r = p
      · subst hr
        rw [Function.update_self] at hy
        refine ⟨⟨r, hl ▸ List.mem_append_right m hy⟩, fun hm => ?_⟩
        exact (List.nodup_append.mp hnodup).2.2 y hm y hy rfl
      · rw [Function.update_of_ne hr] at hy
        exact ⟨⟨r, hy⟩, hother hr hy⟩
  · by_cases hr : r = p
    · subst hr
      rwa [Function.update_self]
    · rw [Function.update_of_ne hr]
      exact (h.stored r).congr (hsame r hr) fun y _ => congrFun hframe y

/-- All items of one place go to another. -/
theorem Represents.move (h : Represents s lists) (hpq : p ≠ q)
    (hl : l.Perm (lists p ++ lists q)) (hlinked : s'.linked = s.linked)
    (hsame : ∀ r, r ≠ p → r ≠ q → Same s s' r)
    (hframe : ∀ y, y ∉ lists p → y ∉ lists q → s'.next y = s.next y) (hp : Stored s' [] p)
    (hq : Stored s' l q) : Represents s' (moveList lists p q l) := by
  refine ⟨h.apart.move hpq hl, fun y => ?_, fun r => ?_⟩
  · rw [hlinked, h.linked]
    constructor
    · rintro ⟨r, hy⟩
      by_cases hr : r = p ∨ r = q
      · refine ⟨q, ?_⟩
        rw [moveList, Function.update_self, hl.mem_iff, List.mem_append]
        exact hr.imp (fun hrp => by rwa [← hrp]) fun hrq => by rwa [← hrq]
      · push Not at hr
        refine ⟨r, ?_⟩
        rwa [moveList, Function.update_of_ne hr.2, Function.update_of_ne hr.1]
    · rintro ⟨r, hy⟩
      by_cases hrq : r = q
      · rw [hrq, moveList, Function.update_self, hl.mem_iff, List.mem_append] at hy
        exact hy.elim (fun hy => ⟨p, hy⟩) fun hy => ⟨q, hy⟩
      · rw [moveList, Function.update_of_ne hrq] at hy
        by_cases hrp : r = p
        · simp [hrp] at hy
        · rw [Function.update_of_ne hrp] at hy
          exact ⟨r, hy⟩
  · by_cases hrq : r = q
    · subst hrq
      rwa [moveList, Function.update_self]
    · rw [moveList, Function.update_of_ne hrq]
      by_cases hrp : r = p
      · subst hrp
        rwa [Function.update_self]
      · rw [Function.update_of_ne hrp]
        refine (h.stored r).congr (hsame r hrp hrq) fun y hy => hframe y ?_ ?_
        · exact fun hyp => hrp (h.apart.same hy hyp)
        · exact fun hyq => hrq (h.apart.same hy hyq)

variable [DecidableEq N] {e : Event ι κ ρ N}

/-- Every step of the program is one of the lists: what the events return is what they return of
lists. -/
theorem step_represents (h : Represents s lists) (hstep : step s e = some s') :
    ∃ lists', listStep lists e = some lists' ∧ Represents s' lists' := by
  have hqueue : ∀ q, Holds s.next (s.queue q) (lists (.queue q)) := fun q => h.stored (.queue q)
  have hhand : ∀ i, Hand s.next (lists (.hand i)) (s.phase i) := fun i => h.stored (.hand i)
  have hnew : ∀ {item p}, ¬ s.linked item → item ∉ lists p :=
    fun hitem hp => hitem ((h.linked _).mpr ⟨_, hp⟩)
  have hdisj : ∀ {p q}, p ≠ q → (lists p).Disjoint (lists q) :=
    fun hpq _ hp hq => hpq (h.apart.same hp hq)
  cases e with
  | pushFront q item =>
    simp only [step] at hstep
    split at hstep <;> cases hstep
    next hitem =>
      refine ⟨_, rfl, h.insert (by simpa using hitem) (List.Perm.refl _) rfl ?_ ?_ ?_⟩
      · rintro (k | r | i) hr <;> simp_all [Same]
      · exact fun y hy _ => pushFront_frame hy
      · simpa [Stored] using (hqueue q).pushFront (hnew hitem)
  | pushBack q item =>
    simp only [step] at hstep
    split at hstep <;> cases hstep
    next hitem =>
      refine ⟨_, rfl, h.insert (by simpa using hitem) (List.perm_append_comm) rfl ?_ ?_ ?_⟩
      · rintro (k | r | i) hr <;> simp_all [Same]
      · exact fun y hy hyq => (hqueue q).pushBack_frame (by simp [hy, hyq])
      · simpa [Stored] using (hqueue q).pushBack (hnew hitem)
  | popFront q item =>
    obtain ⟨⟨front, queue⟩, hpop, hstep⟩ := Option.bind_eq_some_iff.mp hstep
    simp only at hstep
    split at hstep <;> cases hstep
    next hfront =>
      subst hfront
      obtain ⟨m, hm, hholds⟩ := (hqueue q).popFront_some hpop
      refine ⟨Function.update lists (.queue q) m, by simp [listStep, hm], ?_⟩
      refine h.remove (m := [front]) hm (fun y => ?_) ?_ rfl ?_
      · by_cases hy : y = front
        · simp [hy]
        · simp [hy]
      · rintro (k | r | i) hr <;> simp_all [Same]
      · simpa [Stored] using hholds
  | append q other =>
    simp only [step] at hstep
    split at hstep
    next => cases hstep
    next hne =>
      obtain ⟨⟨next, queue⟩, happend, rfl⟩ := Option.map_eq_some_iff.mp hstep
      have hplaces : (Place.queue q : Place ι κ ρ) ≠ .queue other := fun heq =>
        hne (Place.queue.inj heq)
      obtain ⟨next', queue', happend', hholds, hframe⟩ :=
        (hqueue q).append (hqueue other) (hdisj hplaces)
      rw [happend] at happend'
      cases happend'
      refine ⟨_, rfl, h.move hplaces.symm List.perm_append_comm rfl ?_ (fun y _ => hframe y) ?_ ?_⟩
      · rintro (k | r | i) hr hr' <;> simp_all [Same]
      · simpa [Stored, Ne.symm hne] using clear_holds
      · simpa [Stored] using hholds
  | prepend q other =>
    simp only [step] at hstep
    split at hstep
    next => cases hstep
    next hne =>
      obtain ⟨⟨next, queue⟩, hprepend, rfl⟩ := Option.map_eq_some_iff.mp hstep
      have hplaces : (Place.queue q : Place ι κ ρ) ≠ .queue other := fun heq =>
        hne (Place.queue.inj heq)
      obtain ⟨next', queue', hprepend', hholds, hframe⟩ :=
        (hqueue q).prepend (hqueue other) (hdisj hplaces)
      rw [hprepend] at hprepend'
      cases hprepend'
      refine ⟨_, rfl, h.move hplaces.symm (List.Perm.refl _) rfl ?_ (fun y hy _ => hframe y hy) ?_ ?_⟩
      · rintro (k | r | i) hr hr' <;> simp_all [Same]
      · simpa [Stored, Ne.symm hne] using clear_holds
      · simpa [Stored] using hholds
  | movePendingToLocal q moved =>
    obtain ⟨⟨items, next, queue⟩, hmove, hstep⟩ := Option.bind_eq_some_iff.mp hstep
    simp only at hstep
    split at hstep <;> cases hstep
    next hitems =>
      obtain ⟨queue', hmove', hholds⟩ := (hqueue q).movePendingToLocal moved.length
      rw [hmove] at hmove'
      cases hmove'
      have hprefix : moved <+: lists (.queue q) := by
        rw [← hitems]
        exact List.take_prefix _ _
      refine ⟨_, by rw [listStep, if_pos hprefix], ?_⟩
      refine h.remove (m := moved) ?_ (fun y => by simp) ?_ rfl ?_
      · conv_lhs => rw [← List.take_append_drop moved.length (lists (.queue q)), hitems]
      · rintro (k | r | i) hr <;> simp_all [Same]
      · simpa [Stored] using hholds
  | submit i k item =>
    simp only [step] at hstep
    split at hstep
    next hphase =>
      split at hstep <;> cases hstep
      next hitem =>
        have hnil : lists (.hand i) = [] := by simpa [hphase, Hand] using hhand i
        refine ⟨_, rfl, h.insert (by simpa using hitem) (by simp [hnil]) rfl ?_ (fun _ _ _ => rfl) ?_⟩
        · rintro (k' | r | j) hr <;> simp_all [Same]
        · simp [Stored, Hand]
    next => cases hstep
  | submitAll i k q =>
    simp only [step] at hstep
    split at hstep
    next hphase =>
      split at hstep <;> cases hstep
      next hfull =>
        have hnil : lists (.hand i) = [] := by simpa [hphase, Hand] using hhand i
        have hne : lists (.queue q) ≠ [] := fun hempty => hfull ((hqueue q).isEmpty_iff.mpr hempty)
        refine ⟨_, rfl, h.move (by simp) (by simp [hnil]) rfl ?_ (fun _ _ _ => rfl) ?_ ?_⟩
        · rintro (k' | r | j) hr hr' <;> simp_all [Same]
        · simpa [Stored] using clear_holds
        · simpa [Stored, Hand, hne] using ⟨⟨none, (hqueue q).path⟩, (hqueue q).tail⟩
    next => cases hstep
  | link i =>
    simp only [step] at hstep
    split at hstep
    next k newHead tail oldHead hphase =>
      obtain ⟨next, hnext, rfl⟩ := Option.map_eq_some_iff.mp hstep
      have hlist := hhand i
      rw [hphase] at hlist
      obtain ⟨⟨b, hpath⟩, htail, hne⟩ := hlist
      obtain ⟨next', hnext', hpath', hframe⟩ :=
        setNext_last hpath (h.apart.nodup _) htail hne oldHead
      rw [hnext] at hnext'
      cases hnext'
      refine ⟨_, rfl, h.rewrite (p := .hand i) rfl ?_ hframe ?_⟩
      · rintro (k' | r | j) hr <;> simp_all [Same]
      · simpa [Stored, Hand, hne] using ⟨hpath', htail⟩
    next => cases hstep
  | compareExchange i k wasEmpty =>
    simp only [step] at hstep
    split at hstep
    next k' newHead tail oldHead hphase =>
      have hlist := hhand i
      rw [hphase] at hlist
      obtain ⟨hpath, htail, hne⟩ := hlist
      split at hstep
      next wasEmpty =>
        split at hstep <;> cases hstep
        next hall =>
          obtain ⟨rfl, hhead, rfl⟩ := hall
          have hshared : Path s.next (s.head k') (lists (.shared k')) none := h.stored (.shared k')
          have hempty : oldHead.isNone = (lists (.shared k')).isEmpty := by
            rw [Bool.eq_iff_iff, Option.isNone_iff_eq_none, List.isEmpty_iff, hshared.eq_nil_iff, hhead]
          refine ⟨_, by rw [listStep, if_pos hempty], ?_⟩
          refine h.move (by simp) (List.Perm.refl _) rfl ?_ (fun _ _ _ => rfl) ?_ ?_
          · rintro (k'' | r | j) hr hr' <;> simp_all [Same]
          · simp [Stored, Hand]
          · rw [hhead] at hshared
            simpa [Stored] using path_append.mpr ⟨oldHead, hpath, hshared⟩
      next =>
        split at hstep <;> cases hstep
        refine ⟨_, rfl, h.rewrite (p := .hand i) rfl ?_ (fun _ _ => rfl) ?_⟩
        · rintro (k'' | r | j) hr <;> simp_all [Same]
        · simpa [Stored, Hand, hne] using ⟨⟨_, hpath⟩, htail⟩
    next => cases hstep
  | resetHead i k =>
    simp only [step] at hstep
    split at hstep <;> cases hstep
    next hphase =>
      refine ⟨_, rfl, h.rewrite (p := .hand i) rfl ?_ (fun _ _ => rfl) ?_⟩
      · rintro (k' | r | j) hr <;> simp_all [Same]
      · simpa [Stored, Hand, hphase] using hhand i
  | exchangeNull i k ok =>
    simp only [step] at hstep
    split at hstep
    next k' oldHead hphase =>
      have hnil : lists (.hand i) = [] := by simpa [hphase, Hand] using hhand i
      split at hstep
      next =>
        split at hstep <;> cases hstep
        next hall =>
          obtain ⟨rfl, hhead⟩ := hall
          have hshared : Path s.next (s.head k') (lists (.shared k')) none := h.stored (.shared k')
          refine ⟨_, rfl, h.move (by simp) (by simp [hnil]) rfl ?_
            (fun _ _ _ => rfl) ?_ ?_⟩
          · rintro (k'' | r | j) hr hr' <;> simp_all [Same]
          · simp [Stored]
          · rw [hhead] at hshared
            have htail : oldHead = (lists (.shared k')).head? := by
              cases hlist : lists (.shared k') with
              | nil => exact path_nil.mp (hlist ▸ hshared)
              | cons y l => exact (path_cons.mp (hlist ▸ hshared)).1
            simpa [Stored, Hand] using ⟨_, hshared, [], rfl, by simp, by simpa using htail⟩
      next =>
        split at hstep <;> cases hstep
        refine ⟨_, rfl, h.rewrite (p := .hand i) rfl ?_ (fun _ _ => rfl) ?_⟩
        · rintro (k'' | r | j) hr <;> simp_all [Same]
        · simpa [Stored, Hand] using hnil
    next => cases hstep
  | reverse i =>
    simp only [step] at hstep
    split at hstep <;> cases hstep
    next item newHead newTail hphase =>
      have hlist := hhand i
      rw [hphase] at hlist
      obtain ⟨m, r, hm, hr, hl, htail⟩ := hlist
      cases m with
      | nil => cases hm
      | cons y m =>
        obtain ⟨hitem, hm⟩ := hm
        cases hitem
        have hnodup : (m.reverse ++ item :: r).Nodup := by
          simpa [hl] using h.apart.nodup (.hand i)
        have hitemr : item ∉ r := (List.nodup_cons.mp (List.nodup_append.mp hnodup).2.1).1
        have hitemm : item ∉ m := fun hmem =>
          (List.nodup_append.mp hnodup).2.2 item (by simpa using hmem) item List.mem_cons_self rfl
        refine ⟨_, rfl, h.rewrite (p := .hand i) rfl ?_ (fun y hy => ?_) ?_⟩
        · rintro (k' | r' | j) hr <;> simp_all [Same]
        · refine Function.update_of_ne ?_ _ _
          rintro rfl
          exact hy (by simp [hl])
        · simp only [Stored, Function.update_self, reverseRound]
          exact ⟨m, item :: r, hm.write_other hitemm newHead, hr.push hitemr, by simp [hl], htail⟩
  | appendReversed i q =>
    simp only [step] at hstep
    split at hstep
    next newHead newTail hphase =>
      obtain ⟨⟨next, queue⟩, happend, rfl⟩ := Option.map_eq_some_iff.mp hstep
      obtain ⟨next', queue', happend', hholds, hframe⟩ :=
        (hqueue q).append (h.reversed hphase) (hdisj (by simp))
      rw [happend] at happend'
      cases happend'
      refine ⟨_, rfl, h.move (by simp) List.perm_append_comm rfl ?_ (fun y _ => hframe y) ?_ ?_⟩
      · rintro (k | r | j) hr hr' <;> simp_all [Same]
      · simp [Stored, Hand]
      · simpa [Stored] using hholds
    next => cases hstep

variable {es : List (Event ι κ ρ N)}

theorem run_represents (h : run step (start ι κ ρ N) es = some s) :
    ∃ lists, run listStep (fun _ => []) es = some lists ∧ Represents s lists := by
  refine run_simulation (R := Represents) ?_ start_represents h
  intro u lists e v hr hstep
  exact step_represents hr hstep

/-- Whatever the interleaving, and also where an item comes back to a head between a read and the
swap that relies on it, the queues are lists: they return what the lists return, each atomic
queue and each queue of a thread links the items of its list in order, and no item is in two
places or twice in one. -/
theorem queues_are_lists (h : run step (start ι κ ρ N) es = some s) :
    ∃ lists, run listStep (fun _ => []) es = some lists ∧ Apart lists ∧
      (∀ k, Path s.next (s.head k) (lists (.shared k)) none) ∧
      (∀ q, Holds s.next (s.queue q) (lists (.queue q))) ∧
      ∀ item, s.linked item = true ↔ ∃ p, item ∈ lists p := by
  obtain ⟨lists, hrun, hrep⟩ := run_represents h
  exact ⟨lists, hrun, hrep.apart, fun k => hrep.stored (.shared k),
    fun q => hrep.stored (.queue q), hrep.linked⟩

/-- Thread 0 has read item 1 as the head, which is taken, used up and handed in again before
thread 0 swaps the head. -/
theorem queues_are_lists_again : ∃ s, ∃ lists : Place (Fin 2) Unit Unit → List Nat,
    run step (start (Fin 2) Unit Unit Nat)
      [.submit 1 () 1, .link 1, .compareExchange 1 () (some true), .submit 0 () 2, .resetHead 1 (),
        .exchangeNull 1 () true, .reverse 1, .appendReversed 1 (), .popFront () 1,
        .submit 1 () 3, .link 1, .compareExchange 1 () (some true), .submit 1 () 1, .link 1,
        .compareExchange 1 () (some false), .link 0, .compareExchange 0 () (some false)] = some s ∧
    s.head () = some 2 ∧ lists (.shared ()) = [2, 1, 3] ∧
    Path s.next (s.head ()) (lists (.shared ())) none := by
  obtain ⟨s, hs, hhead⟩ : ∃ s, run step (start (Fin 2) Unit Unit Nat)
      [.submit 1 () 1, .link 1, .compareExchange 1 () (some true), .submit 0 () 2, .resetHead 1 (),
        .exchangeNull 1 () true, .reverse 1, .appendReversed 1 (), .popFront () 1,
        .submit 1 () 3, .link 1, .compareExchange 1 () (some true), .submit 1 () 1, .link 1,
        .compareExchange 1 () (some false), .link 0, .compareExchange 0 () (some false)] = some s ∧
      s.head () = some 2 := ⟨_, rfl, rfl⟩
  obtain ⟨lists, hlists, -, hpath, -⟩ := queues_are_lists hs
  refine ⟨s, lists, hs, hhead, ?_, hpath ()⟩
  cases hlists
  rfl

/-- A step of the thread inside an operation that it has begun. -/
def Event.continues (i : ι) : Event ι κ ρ N → Prop
  | .link j | .compareExchange j _ _ | .exchangeNull j _ _ | .reverse j | .appendReversed j _ => j = i
  | _ => False

/-- A `compare_exchange_weak` that fails although the head is as expected. -/
def State.spurious (s : State ι κ ρ N) : Event ι κ ρ N → Nat
  | .compareExchange i k none =>
    match s.phase i with
    | .pushing _ _ _ oldHead => if s.head k = oldHead then 1 else 0
    | _ => 0
  | .exchangeNull i k false =>
    match s.phase i with
    | .resetting _ oldHead => if s.head k = oldHead then 1 else 0
    | _ => 0
  | _ => 0

/-- Every step of the thread brings it nearer to the end, but for the spurious failures. -/
theorem Left.step {i : ι} {n : Nat} (h : Represents s lists) (hleft : Left s lists i n)
    (he : e.continues i) (hstep : step s e = some s') :
    ∃ lists' m, Represents s' lists' ∧ Left s' lists' i m ∧ m + 1 ≤ n + 2 * s.spurious e := by
  obtain ⟨lists', hlists, hrep⟩ := step_represents h hstep
  refine ⟨lists', ?_⟩
  cases e with
  | link j =>
    obtain rfl : j = i := he
    cases hlists
    cases hphase : s.phase j <;> simp only [AtomicQueue.step, hphase] at hstep
    case linking k newHead tail oldHead =>
      obtain ⟨next, -, rfl⟩ := Option.map_eq_some_iff.mp hstep
      simp only [Left, hphase] at hleft
      refine ⟨if s.head k = oldHead then 1 else 3, hrep, by simp [Left], ?_⟩
      split at hleft <;> simp_all
    all_goals cases hstep
  | compareExchange j k wasEmpty =>
    obtain rfl : j = i := he
    cases hphase : s.phase j <;> simp only [AtomicQueue.step, hphase] at hstep
    case pushing k' newHead tail oldHead =>
      simp only [Left, hphase] at hleft
      cases wasEmpty with
      | some wasEmpty =>
        simp only at hstep
        split at hstep <;> cases hstep
        exact ⟨0, hrep, by simp [Left], by split at hleft <;> omega⟩
      | none =>
        simp only at hstep
        split at hstep <;> cases hstep
        next hk =>
          subst hk
          refine ⟨2, hrep, by simp [Left], ?_⟩
          simp only [State.spurious, hphase]
          split at hleft <;> simp_all
    all_goals cases hstep
  | exchangeNull j k ok =>
    obtain rfl : j = i := he
    cases hphase : s.phase j <;> simp only [AtomicQueue.step, hphase] at hstep
    case resetting k' oldHead =>
      simp only [Left, hphase] at hleft
      cases ok with
      | true =>
        simp only at hstep
        split at hstep <;> cases hstep
        next hhead =>
          obtain ⟨rfl, rfl⟩ := hhead
          have hpath : Path s.next (s.head k') (lists (.shared k')) none := h.stored (.shared k')
          refine ⟨(lists (.shared k')).length + 1, hrep, ?_, ?_⟩
          · simp only [Left, Function.update_self]
            exact ⟨_, hpath, rfl⟩
          · rw [if_pos rfl] at hleft
            omega
      | false =>
        simp only at hstep
        split at hstep <;> cases hstep
        next hk =>
          subst hk
          cases hlists
          refine ⟨(lists (.shared k')).length + 2, hrep, by simp [Left], ?_⟩
          simp only [State.spurious, hphase]
          split at hleft <;> simp_all
    all_goals cases hstep
  | reverse j =>
    obtain rfl : j = i := he
    cases hphase : s.phase j <;> simp only [AtomicQueue.step, hphase] at hstep
    case reversing list newHead newTail =>
      simp only [Left, hphase] at hleft
      obtain ⟨m, hm, rfl⟩ := hleft
      cases list with
      | none => cases hstep
      | some y =>
        cases hstep
        cases m with
        | nil => cases hm
        | cons x m =>
          obtain ⟨hx, hrest⟩ := hm
          cases hx
          have hy : y ∉ m := (List.nodup_cons.mp (Path.nodup (a := some y) ⟨rfl, hrest⟩)).1
          refine ⟨m.length + 1, hrep, ?_, by simp⟩
          simp only [Left, Function.update_self]
          exact ⟨m, hrest.write_other hy newHead, rfl⟩
    all_goals cases hstep
  | appendReversed j q =>
    obtain rfl : j = i := he
    cases hphase : s.phase j <;> simp only [AtomicQueue.step, hphase] at hstep
    case reversing list newHead newTail =>
      cases list with
      | some y => cases hstep
      | none =>
        obtain ⟨⟨next, queue⟩, -, rfl⟩ := Option.map_eq_some_iff.mp hstep
        simp only [Left, hphase] at hleft
        obtain ⟨m, -, rfl⟩ := hleft
        exact ⟨0, hrep, by simp [Left], by omega⟩
    all_goals cases hstep
  | _ => cases he

/-- A thread that is not at the end of its operation can go on, and not only with a spurious
failure; in particular it never follows a null pointer. -/
theorem thread_goes_on [Nonempty ρ] (h : Represents s lists) {i : ι} (hbusy : s.phase i ≠ .idle) :
    ∃ (e : Event ι κ ρ N) (s' : State ι κ ρ N), e.continues i ∧ s.spurious e = 0 ∧
      step s e = some s' := by
  have hhand : Hand s.next (lists (.hand i)) (s.phase i) := h.stored (.hand i)
  cases hphase : s.phase i with
  | idle => exact absurd hphase hbusy
  | linking k newHead tail oldHead =>
    rw [hphase] at hhand
    obtain ⟨⟨b, hpath⟩, htail, hne⟩ := hhand
    obtain ⟨next, hnext, -, -⟩ := setNext_last hpath (h.apart.nodup _) htail hne oldHead
    exact ⟨.link i, _, rfl, rfl, by simp only [step, hphase, hnext]; rfl⟩
  | pushing k newHead tail oldHead =>
    by_cases hhead : s.head k = oldHead
    · exact ⟨.compareExchange i k (some oldHead.isNone), _, rfl, rfl,
        by simp [step, hphase, hhead]; rfl⟩
    · exact ⟨.compareExchange i k none, _, rfl, by simp [State.spurious, hphase, hhead],
        by simp [step, hphase]; rfl⟩
  | resetting k oldHead =>
    by_cases hhead : s.head k = oldHead
    · exact ⟨.exchangeNull i k true, _, rfl, rfl, by simp [step, hphase, hhead]; rfl⟩
    · exact ⟨.exchangeNull i k false, _, rfl, by simp [State.spurious, hphase, hhead],
        by simp [step, hphase]; rfl⟩
  | reversing list newHead newTail =>
    cases list with
    | some y => exact ⟨.reverse i, _, rfl, rfl, by simp only [step, hphase]; rfl⟩
    | none =>
      obtain ⟨q⟩ := ‹Nonempty ρ›
      have hqueue : Holds s.next (s.queue q) (lists (.queue q)) := h.stored (.queue q)
      obtain ⟨next, queue, happend, -, -⟩ := hqueue.append (h.reversed hphase)
        fun y hq hi => by simpa using h.apart.same hq hi
      exact ⟨.appendReversed i q, _, rfl, rfl, by simp only [step, hphase, happend]; rfl⟩

/-- An operation does not loop for ever: what a thread does of its own operation from a reachable
state on, if the other threads leave it alone, takes no more steps than some bound and two for
each spurious failure of a swap; and until the operation is over, there is a next step. -/
theorem thread_completes [Nonempty ρ] (h : run step (start ι κ ρ N) es = some s) (i : ι) :
    ∃ bound, ∀ rest t, (∀ e ∈ rest, e.continues i) → run step s rest = some t →
      rest.length ≤ bound + cost step (fun u e => 2 * u.spurious e) s rest ∧
      (t.phase i ≠ .idle → ∃ (e : Event ι κ ρ N) (t' : State ι κ ρ N),
        e.continues i ∧ t.spurious e = 0 ∧ step t e = some t') := by
  obtain ⟨lists, -, hrep⟩ := run_represents h
  obtain ⟨bound, hbound⟩ := exists_left hrep i
  refine ⟨bound, fun rest t hrest hrun => ?_⟩
  have hnext : ∀ (u : State ι κ ρ N) (e : Event ι κ ρ N) v n, e.continues i →
      (∃ lists, Represents u lists ∧ Left u lists i n) → step u e = some v →
      ∃ m, (∃ lists, Represents v lists ∧ Left v lists i m) ∧ m + 1 ≤ n + 2 * u.spurious e := by
    rintro u e v n he ⟨lists, hu, hn⟩ hstep
    obtain ⟨lists', m, hv, hm, hle⟩ := hn.step hu he hstep
    exact ⟨m, ⟨lists', hv, hm⟩, hle⟩
  obtain ⟨m, ⟨lists', ht, -⟩, hle⟩ := run_length_le hnext ⟨lists, hrep, hbound⟩ hrest hrun
  exact ⟨by omega, thread_goes_on ht⟩

/-- Thread 0 still relies on a head that thread 1 has swapped; it reads the head again, and its
swap fails once more for no reason. -/
theorem thread_completes_missed : ∃ s t bound,
    run step (start (Fin 2) Unit Unit Nat)
      [.submit 0 () 2, .link 0, .submit 1 () 1, .link 1,
        .compareExchange 1 () (some true)] = some s ∧
    run step s [.compareExchange 0 () none, .link 0, .compareExchange 0 () none, .link 0,
      .compareExchange 0 () (some false)] = some t ∧ t.phase 0 = .idle ∧ 5 ≤ bound + 2 := by
  obtain ⟨s, t, hs, ht, hidle, hcost⟩ : ∃ s t, run step (start (Fin 2) Unit Unit Nat)
      [.submit 0 () 2, .link 0, .submit 1 () 1, .link 1,
        .compareExchange 1 () (some true)] = some s ∧
      run step s [.compareExchange 0 () none, .link 0, .compareExchange 0 () none, .link 0,
        .compareExchange 0 () (some false)] = some t ∧ t.phase 0 = .idle ∧
      cost step (fun u e => 2 * u.spurious e) s [.compareExchange 0 () none, .link 0,
        .compareExchange 0 () none, .link 0, .compareExchange 0 () (some false)] = 2 :=
    ⟨_, _, rfl, rfl, rfl, rfl⟩
  obtain ⟨bound, hbound⟩ := thread_completes hs 0
  obtain ⟨hle, -⟩ := hbound _ t (by simp [Event.continues]) ht
  rw [hcost] at hle
  exact ⟨s, t, bound, hs, ht, hidle, hle⟩

end Changes

end AtomicQueue
