import KeyLeak.Lib.Chain

/-!
# The intrusive queue of tasks

`__intrusive_queue` links its items through a field of their own. Here `next` is that field of
all items; an operation is given the field and the queue and gives back what it has written, or
`none` where it would follow a null pointer.
-/
namespace IntrusiveQueue

open Chain

structure Queue (N : Type) where
  head : Option N
  tail : Option N
  deriving DecidableEq, Repr

structure Iterator (N : Type) where
  predecessor : Option N
  item : Option N
  deriving DecidableEq, Repr

variable {N : Type}

def clear : Queue N := ⟨none, none⟩

def Queue.isEmpty (q : Queue N) : Bool := q.head.isNone

def popFront (next : N → Option N) (q : Queue N) : Option (N × Queue N) :=
  q.head.map fun item => (item, ⟨next item, if next item = none then none else q.tail⟩)

def Queue.begin (q : Queue N) : Iterator N := ⟨none, q.head⟩

/-- `operator++` -/
def Iterator.advance (next : N → Option N) (it : Iterator N) : Iterator N :=
  ⟨it.item, it.item.bind next⟩

/-- The items that an iteration meets in so many rounds, and the iterator after them. -/
def walk (next : N → Option N) : Nat → Iterator N → List N × Iterator N
  | 0, it => ([], it)
  | n + 1, it =>
    match it.item with
    | none => ([], it)
    | some item => ((item :: (walk next n (it.advance next)).1), (walk next n (it.advance next)).2)

section Write

variable [DecidableEq N]

/-- `ptr->*_Next = value` -/
def setNext (next : N → Option N) (ptr value : Option N) : Option (N → Option N) :=
  ptr.map fun x => Function.update next x value

def pushFront (next : N → Option N) (q : Queue N) (item : N) : (N → Option N) × Queue N :=
  (Function.update next item q.head,
    ⟨some item, if q.tail = none then some item else q.tail⟩)

def pushBack (next : N → Option N) (q : Queue N) (item : N) : (N → Option N) × Queue N :=
  match q.tail with
  | none => (Function.update next item none, ⟨some item, some item⟩)
  | some tail =>
    (Function.update (Function.update next item none) tail (some item), ⟨q.head, some item⟩)

def append (next : N → Option N) (q other : Queue N) : Option ((N → Option N) × Queue N) :=
  if other.isEmpty then some (next, q)
  else if q.isEmpty then some (next, other)
  else (setNext next q.tail other.head).map fun next => (next, ⟨q.head, other.tail⟩)

def prepend (next : N → Option N) (q other : Queue N) : Option ((N → Option N) × Queue N) :=
  if other.isEmpty then some (next, q)
  else (setNext next other.tail q.head).map fun next =>
    (next, ⟨other.head, if q.tail = none then other.tail else q.tail⟩)

/-- The queue that is spliced into and the other one. -/
def splice (next : N → Option N) (q : Queue N) (pos : Iterator N) (other : Queue N)
    (first last : Iterator N) : Option ((N → Option N) × Queue N × Queue N) :=
  if first = last then some (next, q, other)
  else
    let cut := if other.head = first.item then
        some (next, ⟨last.item, if last.item = none then none else other.tail⟩)
      else
        (setNext next first.predecessor last.item).bind fun next =>
          (setNext next last.predecessor pos.item).map fun next => (next, other)
    cut.bind fun (next, other) =>
      if q.isEmpty then some (next, ⟨first.item, last.predecessor⟩, other)
      else (setNext next pos.predecessor first.item).map fun next =>
        (next, ⟨q.head, if pos.item = none then last.predecessor else q.tail⟩, other)

/-- `move_pending_to_local`, where the local queue has room for `count` tasks. -/
def movePendingToLocal (next : N → Option N) (pendingQueue : Queue N) (count : Nat) :
    Option (List N × (N → Option N) × Queue N) :=
  let (moved, last) := walk next count pendingQueue.begin
  let tmp : Queue N := clear
  (splice next tmp tmp.begin pendingQueue pendingQueue.begin last).map
    fun (next, _, pendingQueue) => (moved, next, pendingQueue)

/-- A round of the loop of `make_reversed`: the links, `__new_head` and `__list` after it. -/
def reverseRound (next : N → Option N) (newHead : Option N) (item : N) :
    (N → Option N) × Option N × Option N :=
  (Function.update next item newHead, some item, next item)

end Write

/-- The items of a queue from front to back. -/
structure Holds (next : N → Option N) (q : Queue N) (l : List N) : Prop where
  path : Path next q.head l none
  tail : q.tail = l.getLast?

variable {next next' : N → Option N} {q r : Queue N} {l m : List N} {x : N}

theorem clear_holds : Holds next (clear : Queue N) [] := ⟨rfl, rfl⟩

theorem Holds.nodup (h : Holds next q l) : l.Nodup := h.path.nodup

theorem Holds.congr (h : Holds next q l) (hframe : ∀ y ∈ l, next' y = next y) :
    Holds next' q l := ⟨h.path.congr hframe, h.tail⟩

theorem Holds.isEmpty_iff (h : Holds next q l) : q.isEmpty = true ↔ l = [] := by
  rw [Queue.isEmpty, Option.isNone_iff_eq_none, h.path.eq_nil_iff]

theorem Holds.tail_none (h : Holds next q l) : q.tail = none ↔ l = [] := by
  rw [h.tail, List.getLast?_eq_none_iff]

theorem Holds.clear_eq (h : Holds next q []) : q = clear := by
  cases q
  obtain ⟨hhead, htail⟩ := h
  cases hhead
  cases htail
  rfl

theorem Holds.popFront (h : Holds next q (x :: l)) :
    ∃ q', popFront next q = some (x, q') ∧ Holds next q' l := by
  obtain ⟨⟨hhead, hpath⟩, htail⟩ := h
  refine ⟨_, by rw [IntrusiveQueue.popFront, hhead]; rfl, hpath, ?_⟩
  cases l with
  | nil => simp [path_nil.mp hpath]
  | cons y l => simp [hpath.1, htail]

/-- Only a null head makes `pop_front` fail, and it takes the front item. -/
theorem Holds.popFront_some (h : Holds next q l) {x : N} {q' : Queue N}
    (hpop : IntrusiveQueue.popFront next q = some (x, q')) :
    ∃ m, l = x :: m ∧ Holds next q' m := by
  cases l with
  | nil =>
    obtain rfl := h.clear_eq
    cases hpop
  | cons y m =>
    obtain ⟨r, hr, hm⟩ := h.popFront
    rw [hr] at hpop
    cases hpop
    exact ⟨m, rfl, hm⟩

/-- An iteration goes along the path, and its iterator is between the items met and the others. -/
theorem walk_path {it : Iterator N} (h : Path next it.item l none) (n : Nat) :
    walk next n it =
      (l.take n, ⟨(l.take n).getLast?.or it.predecessor, (l.drop n).head?⟩) := by
  induction n generalizing it l with
  | zero =>
    obtain ⟨predecessor, item⟩ := it
    cases l with
    | nil =>
      cases path_nil.mp h
      rfl
    | cons y l =>
      obtain rfl := h.1
      rfl
  | succ n ih =>
    cases l with
    | nil =>
      obtain ⟨predecessor, item⟩ := it
      cases path_nil.mp h
      rfl
    | cons y l =>
      have hrest : Path next (it.advance next).item l none := by
        rw [Iterator.advance, h.1]
        exact h.2
      have hlast : (y :: l.take n).getLast? = some ((l.take n).getLast?.getD y) := by
        rw [List.getLast?_cons]
      rw [walk, h.1]
      simp only [ih hrest]
      rw [Iterator.advance, h.1, List.take_succ_cons, hlast]
      cases (l.take n).getLast? <;> rfl

section Write

variable [DecidableEq N]

theorem Holds.pushFront (h : Holds next q l) (hx : x ∉ l) :
    Holds (pushFront next q x).1 (pushFront next q x).2 (x :: l) := by
  refine ⟨h.path.push hx, ?_⟩
  cases l with
  | nil => simp [IntrusiveQueue.pushFront, h.tail]
  | cons y l => simp [IntrusiveQueue.pushFront, h.tail]

theorem pushFront_frame {y : N} (hy : y ≠ x) : (pushFront next q x).1 y = next y :=
  Function.update_of_ne hy _ _

theorem Holds.pushBack (h : Holds next q l) (hx : x ∉ l) :
    Holds (pushBack next q x).1 (pushBack next q x).2 (l ++ [x]) := by
  rcases List.eq_nil_or_concat l with rfl | ⟨m, y, rfl⟩
  · obtain rfl := h.clear_eq
    exact ⟨by simp [IntrusiveQueue.pushBack, clear], rfl⟩
  · rw [List.concat_eq_append] at h hx ⊢
    have htail : q.tail = some y := by simp [h.tail]
    have hy : y ∉ m := fun hy => (List.nodup_append.mp h.nodup).2.2 y hy y List.mem_cons_self rfl
    have hxy : x ≠ y := fun heq => hx (by simp [heq])
    constructor
    · simp only [IntrusiveQueue.pushBack, htail]
      refine path_append.mpr ⟨some x, (h.path.write_other hx none).redirect hy (some x), rfl, ?_⟩
      simp [hxy]
    · simp [IntrusiveQueue.pushBack, htail]

theorem Holds.pushBack_frame (h : Holds next q l) {y : N} (hy : y ∉ l ++ [x]) :
    (IntrusiveQueue.pushBack next q x).1 y = next y := by
  have hyx : y ≠ x := fun heq => hy (by simp [heq])
  rw [IntrusiveQueue.pushBack]
  cases htail : q.tail with
  | none => exact Function.update_of_ne hyx _ _
  | some t =>
    have hyt : y ≠ t := by
      rintro rfl
      exact hy (List.mem_append_left _ (List.mem_of_getLast? (h.tail ▸ htail)))
    simp [hyx, hyt]

/-- The last item of a path is linked to what comes after it. -/
theorem setNext_last {a b tail : Option N} (h : Path next a l b) (hnodup : l.Nodup)
    (htail : tail = l.getLast?) (hl : l ≠ []) (c : Option N) :
    ∃ next', setNext next tail c = some next' ∧ Path next' a l c ∧
      ∀ y ∉ l, next' y = next y := by
  rcases List.eq_nil_or_concat l with rfl | ⟨m, y, rfl⟩
  · exact absurd rfl hl
  · rw [List.concat_eq_append] at h hnodup htail ⊢
    have hlast : tail = some y := by simp [htail]
    have hy : y ∉ m := fun hy => (List.nodup_append.mp hnodup).2.2 y hy y List.mem_cons_self rfl
    refine ⟨_, by rw [setNext, hlast]; rfl, h.redirect hy c, fun z hz => ?_⟩
    refine Function.update_of_ne ?_ _ _
    rintro rfl
    exact hz (by simp)

theorem Holds.append (h : Holds next q l) (hr : Holds next r m) (hdisj : l.Disjoint m) :
    ∃ next' q', append next q r = some (next', q') ∧ Holds next' q' (l ++ m) ∧
      ∀ y ∉ l, next' y = next y := by
  by_cases hm : m = []
  · refine ⟨next, q, by rw [IntrusiveQueue.append, if_pos (hr.isEmpty_iff.mpr hm)], ?_,
      fun _ _ => rfl⟩
    rwa [hm, List.append_nil]
  · have hfull : ¬ r.isEmpty := fun hempty => hm (hr.isEmpty_iff.mp hempty)
    by_cases hl : l = []
    · refine ⟨next, r, ?_, ?_, fun _ _ => rfl⟩
      · rw [IntrusiveQueue.append, if_neg hfull, if_pos (h.isEmpty_iff.mpr hl)]
      · rwa [hl, List.nil_append]
    · obtain ⟨next', hnext, hpath, hframe⟩ := setNext_last h.path h.nodup h.tail hl r.head
      refine ⟨next', ⟨q.head, r.tail⟩, ?_, ⟨path_append.mpr ⟨_, hpath, ?_⟩, ?_⟩, hframe⟩
      · rw [IntrusiveQueue.append, if_neg hfull,
          if_neg fun hempty => hl (h.isEmpty_iff.mp hempty), hnext]
        rfl
      · exact hr.path.congr fun y hy => hframe y fun hyl => hdisj hyl hy
      · rw [List.getLast?_append_of_ne_nil _ hm]
        exact hr.tail

theorem Holds.prepend (h : Holds next q l) (hr : Holds next r m) (hdisj : l.Disjoint m) :
    ∃ next' q', prepend next q r = some (next', q') ∧ Holds next' q' (m ++ l) ∧
      ∀ y ∉ m, next' y = next y := by
  by_cases hm : m = []
  · refine ⟨next, q, by rw [IntrusiveQueue.prepend, if_pos (hr.isEmpty_iff.mpr hm)], ?_,
      fun _ _ => rfl⟩
    rwa [hm, List.nil_append]
  · obtain ⟨next', hnext, hpath, hframe⟩ := setNext_last hr.path hr.nodup hr.tail hm q.head
    refine ⟨next', ⟨r.head, if q.tail = none then r.tail else q.tail⟩, ?_,
      ⟨path_append.mpr ⟨_, hpath, ?_⟩, ?_⟩, hframe⟩
    · rw [IntrusiveQueue.prepend, if_neg fun hempty => hm (hr.isEmpty_iff.mp hempty), hnext]
      rfl
    · exact h.path.congr fun y hy => hframe y fun hym => hdisj hy hym
    · by_cases hl : l = []
      · simp [h.tail, hl, hr.tail]
      · rw [List.getLast?_append_of_ne_nil _ hl, if_neg fun htail => hl (h.tail_none.mp htail),
          h.tail]

/-- What the local queue has taken leaves the pending queue, and no link is read or written for
it: the tasks may long be running on other threads. -/
theorem Holds.movePendingToLocal (h : Holds next q l) (count : Nat) :
    ∃ q', movePendingToLocal next q count = some (l.take count, next, q') ∧
      Holds next q' (l.drop count) := by
  have hwalk : walk next count q.begin = _ := walk_path h.path count
  rw [IntrusiveQueue.movePendingToLocal, hwalk]
  cases htake : l.take count with
  | nil =>
    have hdrop : l.drop count = l := by
      have hsplit := List.take_append_drop count l
      rwa [htake] at hsplit
    have hhead : q.head = l.head? := by
      cases l with
      | nil => exact path_nil.mp h.path
      | cons y l => exact h.path.1
    refine ⟨q, ?_, by rwa [hdrop]⟩
    simp [splice, Queue.begin, hdrop, hhead]
  | cons y t =>
    obtain ⟨u, hu⟩ := Option.ne_none_iff_exists'.mp
      (fun hnone => List.cons_ne_nil y t (List.getLast?_eq_none_iff.mp hnone))
    refine ⟨⟨(l.drop count).head?, if (l.drop count).head? = none then none else q.tail⟩, ?_, ?_⟩
    · simp [splice, Queue.begin, Queue.isEmpty, clear, hu]
    · obtain ⟨b, -, hdrop⟩ := path_append.mp ((List.take_append_drop count l).symm ▸ h.path)
      cases hrest : l.drop count with
      | nil => exact ⟨rfl, rfl⟩
      | cons z m =>
        rw [hrest] at hdrop
        refine ⟨by simpa [hdrop.1] using hdrop, ?_⟩
        have hlast : l.getLast? = (z :: m).getLast? := by
          rw [← List.take_append_drop count l, hrest,
            List.getLast?_append_of_ne_nil _ (List.cons_ne_nil z m)]
        simp [h.tail, hlast]

end Write

end IntrusiveQueue
