import KeyLeak.Lib.Runs
import KeyLeak.ThreadSpecific

/-!
# The reference library that cleans up

`clean.cpp` creates one key in its constructor, keeps one block under it in every
thread that calls `do_something`, and deletes the key in its destructor. The key is a
static variable, so before the create, and after a failed one, it is slot 0. Nothing
in the library looks at the result of the create.
-/
namespace CleanLib

open SlotPool KeyTable ThreadSpecific Runs

variable {P : Platform} {τ : Type}

/-- The static storage of one load. What the create of this load obtained is recorded
beside it; the program does not keep that. -/
structure Image (P : Platform) where
  key : Key P
  once : Bool
  created : Option (Key P)
  deriving DecidableEq

inductive Call where
  | getspecific | setspecific | keyDelete
  deriving DecidableEq, Repr

/-- One call the library makes on its key: what its create had obtained by then, and
who held the slot. -/
structure Access (P : Platform) where
  call : Call
  key : Key P
  created : Option (Key P)
  holder : Option Party
  deriving DecidableEq

/-- The key is the one this load created, and it is still the library's. -/
def Access.own (a : Access P) : Prop := a.created = some a.key ∧ a.holder = some .plugin

structure State (P : Platform) (τ : Type) where
  world : World P τ
  image : Option (Image P)
  log : List (Access P)
  crashed : Bool

def State.note (s : State P τ) (call : Call) (im : Image P) : State P τ :=
  { s with log := s.log ++ [⟨call, im.key, im.created, s.world.holder im.key⟩] }

/-- The destructor `dtor`, which frees its argument. -/
def dtor : Dtor := some (.plugin, 0)

/-- `pthread_key_create(&key, dtor);` -/
def createKey (A : Policy (Key P) Dtor) (w : World P τ) (im : Image P) : World P τ × Image P :=
  match w.create A .plugin dtor with
  | (some k, w) => (w, { im with key := k, created := some k })
  | (none, w) => (w, im)

/-- `pthread_once(&once, create_key);` -/
def init (A : Policy (Key P) Dtor) (w : World P τ) (im : Image P) : World P τ × Image P :=
  if im.once then (w, im) else createKey A w { im with once := true }

/-- `pthread_key_delete(key);` -/
def fini (s : State P τ) (im : Image P) : State P τ :=
  { s.note .keyDelete im with world := s.world.delete im.key }

/-- `*data = 42` goes through a null pointer when `malloc` fails. -/
def doSomething [DecidableEq τ] (s : State P τ) (im : Image P) (t : τ) (memory : Bool) :
    State P τ :=
  match s.world.getspecific t im.key with
  | some _ => s.note .getspecific im
  | none =>
    if memory then
      { (s.note .getspecific im).note .setspecific im with
        world := s.world.malloc.2.setspecific t im.key s.world.malloc.1 }
    else { s.note .getspecific im with crashed := true }

variable [NeZero P.PTHREAD_KEYS_MAX]

/-- Static variables start out as zero, and `once` as `PTHREAD_ONCE_INIT`. -/
def zeroImage : Image P := ⟨0, false, none⟩

/-- `dlopen` maps a fresh image and runs the constructor. -/
def load (A : Policy (Key P) Dtor) (s : State P τ) : State P τ :=
  { s with world := (init A s.world zeroImage).1, image := some (init A s.world zeroImage).2 }

/-- `dlclose` runs the destructor and unmaps the image. -/
def unload (s : State P τ) (im : Image P) : State P τ := { fini s im with image := none }

inductive Event (P : Platform) (τ : Type) where
  | load
  | doSomething (t : τ) (memory : Bool)
  | unload
  | threadExit (t : τ)
  /-- Everybody else creates, deletes and sets keys of their own. -/
  | hostCreate (dtor : Dtor)
  | hostDelete (k : Key P)
  | hostSet (t : τ) (k : Key P) (n : Nat)

def act [DecidableEq τ] (A : Policy (Key P) Dtor) (s : State P τ) (e : Event P τ) :
    Option (State P τ) :=
  match e, s.image with
  | .load, none => some (load A s)
  | .doSomething t memory, some im =>
    if t ∉ s.world.exited then some (doSomething s im t memory) else none
  | .unload, some im => some (unload s im)
  | .threadExit t, _ =>
    if t ∉ s.world.exited then some { s with world := s.world.threadExit t } else none
  | .hostCreate d, _ => some { s with world := (s.world.create A .host d).2 }
  | .hostDelete k, _ =>
    if s.world.holder k = some .host then some { s with world := s.world.delete k } else none
  | .hostSet t k n, _ =>
    if s.world.holder k = some .host ∧ t ∉ s.world.exited then
      some { s with world := s.world.setspecific t k (.foreign n) }
    else none
  | _, _ => none

/-- Nothing happens any more once the process has been killed. -/
def step [DecidableEq τ] (A : Policy (Key P) Dtor) (s : State P τ) (e : Event P τ) :
    Option (State P τ) :=
  if s.crashed then none else act A s e

/-- Before the first load every allocated key is somebody else's, and so is every
value; the table may be full. -/
def start (keys : Table P) (values : τ → Key P → Option Nat) : State P τ where
  world :=
    { process := ⟨keys, 0⟩
      owner := fun _ => .host
      value := fun t k => (values t k).map .foreign
      mallocs := 0
      frees := []
      exited := [] }
  image := none
  log := []
  crashed := false

/-- The events in which the library calls a function on its key. -/
def Event.touches : Event P τ → Bool
  | .doSomething _ _ | .unload => true
  | _ => false

variable {A : Policy (Key P) Dtor}

theorem load_cases (A : Policy (Key P) Dtor) (s : State P τ) :
    (∃ k, s.world.process.keys k = none ∧
      load A s =
        { s with world := s.world.allocate k .plugin dtor, image := some ⟨k, true, some k⟩ }) ∨
    (free s.world.process.keys = 0 ∧
      load A s = { s with world := s.world.refuse, image := some ⟨0, true, none⟩ }) := by
  rcases s.world.create_cases A .plugin dtor with ⟨k, hk, h⟩ | ⟨hfull, h⟩
  · exact .inl ⟨k, hk, by simp [load, init, zeroImage, createKey, h]⟩
  · exact .inr ⟨hfull, by simp [load, init, zeroImage, createKey, h]⟩

variable [DecidableEq τ]

/-- All an event can do, case by case. -/
inductive Move (s : State P τ) : Event P τ → State P τ → Prop
  | loaded (himage : s.image = none) (k : Key P) (hk : s.world.process.keys k = none) :
    Move s .load
      { s with world := s.world.allocate k .plugin dtor, image := some ⟨k, true, some k⟩ }
  | loadedFull (himage : s.image = none) (hfull : free s.world.process.keys = 0) :
    Move s .load { s with world := s.world.refuse, image := some ⟨0, true, none⟩ }
  | found (im : Image P) (himage : s.image = some im) (t : τ) (ht : t ∉ s.world.exited)
    (memory : Bool) (p : Pointer) (hp : s.world.getspecific t im.key = some p) :
    Move s (.doSomething t memory) (s.note .getspecific im)
  | stored (im : Image P) (himage : s.image = some im) (t : τ) (ht : t ∉ s.world.exited)
    (hp : s.world.getspecific t im.key = none) :
    Move s (.doSomething t true)
      { (s.note .getspecific im).note .setspecific im with
        world := s.world.malloc.2.setspecific t im.key s.world.malloc.1 }
  | crashed (im : Image P) (himage : s.image = some im) (t : τ) (ht : t ∉ s.world.exited)
    (hp : s.world.getspecific t im.key = none) :
    Move s (.doSomething t false) { s.note .getspecific im with crashed := true }
  | unloaded (im : Image P) (himage : s.image = some im) : Move s .unload (unload s im)
  | exited (t : τ) (ht : t ∉ s.world.exited) :
    Move s (.threadExit t) { s with world := s.world.threadExit t }
  | hostCreated (d : Dtor) (k : Key P) (hk : s.world.process.keys k = none) :
    Move s (.hostCreate d) { s with world := s.world.allocate k .host d }
  | hostRefused (d : Dtor) (hfull : free s.world.process.keys = 0) :
    Move s (.hostCreate d) { s with world := s.world.refuse }
  | hostDeleted (k : Key P) (hk : s.world.holder k = some .host) :
    Move s (.hostDelete k) { s with world := s.world.delete k }
  | hostStored (t : τ) (ht : t ∉ s.world.exited) (k : Key P) (hk : s.world.holder k = some .host)
    (n : Nat) : Move s (.hostSet t k n) { s with world := s.world.setspecific t k (.foreign n) }

theorem doSomething_move (s : State P τ) {im : Image P} (himage : s.image = some im) {t : τ}
    (ht : t ∉ s.world.exited) (memory : Bool) :
    Move s (.doSomething t memory) (doSomething s im t memory) := by
  cases hp : s.world.getspecific t im.key with
  | some p =>
    simp only [doSomething, hp]
    exact .found im himage t ht memory p hp
  | none =>
    cases memory with
    | true =>
      simp only [doSomething, hp, if_true]
      exact .stored im himage t ht hp
    | false =>
      simp only [doSomething, hp, Bool.false_eq_true, if_false]
      exact .crashed im himage t ht hp

theorem act_move {s s' : State P τ} {e : Event P τ} (h : act A s e = some s') : Move s e s' := by
  cases e with
  | load =>
    cases himage : s.image with
    | some im => simp [act, himage] at h
    | none =>
      simp only [act, himage, Option.some.injEq] at h
      rcases load_cases A s with ⟨k, hk, hload⟩ | ⟨hfull, hload⟩
      · rw [← h, hload]
        exact .loaded himage k hk
      · rw [← h, hload]
        exact .loadedFull himage hfull
  | doSomething t memory =>
    cases himage : s.image with
    | none => simp [act, himage] at h
    | some im =>
      simp only [act, himage, Option.ite_none_right_eq_some, Option.some.injEq] at h
      rw [← h.2]
      exact doSomething_move s himage h.1 memory
  | unload =>
    cases himage : s.image with
    | none => simp [act, himage] at h
    | some im =>
      simp only [act, himage, Option.some.injEq] at h
      rw [← h]
      exact .unloaded im himage
  | threadExit t =>
    simp only [act, Option.ite_none_right_eq_some, Option.some.injEq] at h
    rw [← h.2]
    exact .exited t h.1
  | hostCreate d =>
    simp only [act, Option.some.injEq] at h
    rcases s.world.create_cases A .host d with ⟨k, hk, hcreate⟩ | ⟨hfull, hcreate⟩
    · rw [← h, hcreate]
      exact .hostCreated d k hk
    · rw [← h, hcreate]
      exact .hostRefused d hfull
  | hostDelete k =>
    simp only [act, Option.ite_none_right_eq_some, Option.some.injEq] at h
    rw [← h.2]
    exact .hostDeleted k h.1
  | hostSet t k n =>
    simp only [act, Option.ite_none_right_eq_some, Option.some.injEq] at h
    rw [← h.2]
    exact .hostStored t h.1.2 k h.1.1 n

theorem step_move {s s' : State P τ} {e : Event P τ} (h : step A s e = some s') : Move s e s' := by
  by_cases hc : s.crashed
  · simp [step, hc] at h
  · exact act_move (by simpa [step, hc] using h)

end CleanLib
