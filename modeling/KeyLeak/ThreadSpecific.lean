import KeyLeak.KeyTable

/-!
# Thread-specific values and the blocks behind them

Under every allocated key each thread keeps one pointer. The two reference libraries
store blocks of their own there, and both hand their keys a destructor that frees the
block it is given. Destructors run when a thread exits; deleting a key runs none.
Here `Party.plugin` stands for the reference library that is loaded.
-/
namespace ThreadSpecific

open SlotPool KeyTable

variable {P : Platform} {τ : Type}

/-- A block of the library's own `malloc`, or an address that is none of them. -/
inductive Pointer where
  | block (n : Nat)
  | foreign (n : Nat)
  deriving DecidableEq, Repr

/-- The block's number. -/
def Pointer.number : Pointer → Option Nat
  | .block n => some n
  | .foreign _ => none

/-- What outlives every load. The owner of a slot is stored nowhere in the program and
means something only while the slot is allocated. -/
structure World (P : Platform) (τ : Type) where
  process : Process P
  owner : Key P → Party
  value : τ → Key P → Option Pointer
  mallocs : Nat
  frees : List Nat
  exited : List τ

namespace World

def holder (w : World P τ) (k : Key P) : Option Party :=
  (w.process.keys k).map (fun _ => w.owner k)

/-- `pthread_getspecific`; a key that is not allocated has no values. -/
def getspecific (w : World P τ) (t : τ) (k : Key P) : Option Pointer :=
  if w.process.keys k = none then none else w.value t k

/-- A slot becomes a new key, with the value null in every thread. -/
def allocate (w : World P τ) (k : Key P) (who : Party) (dtor : Dtor) : World P τ :=
  { w with
    process := ⟨put w.process.keys k dtor, w.process.calls + 1⟩
    owner := fun j => if j = k then who else w.owner j
    value := fun t j => if j = k then none else w.value t j }

/-- A create that fails leaves no trace but that it was tried. -/
def refuse (w : World P τ) : World P τ :=
  { w with process := ⟨w.process.keys, w.process.calls + 1⟩ }

/-- `pthread_key_create`, called by one of the two parties. -/
def create (A : Policy (Key P) Dtor) (w : World P τ) (who : Party) (dtor : Dtor) :
    Option (Key P) × World P τ :=
  match (pthreadKeyCreate A w.process dtor).1 with
  | some k => (some k, w.allocate k who dtor)
  | none => (none, w.refuse)

/-- `pthread_key_delete` -/
def delete (w : World P τ) (k : Key P) : World P τ :=
  { w with process := pthreadKeyDelete w.process k }

/-- `malloc` that succeeds: a block that was never handed out before. -/
def malloc (w : World P τ) : Pointer × World P τ :=
  (.block w.mallocs, { w with mallocs := w.mallocs + 1 })

/-- The block that the destructor of one key frees when a thread exits. -/
def destroyed (w : World P τ) (t : τ) (k : Key P) : Option Nat :=
  match w.process.keys k, w.value t k with
  | some (some _), some (.block n) => some n
  | _, _ => none

variable [DecidableEq τ]

/-- `pthread_setspecific`; on a key that is not allocated it fails and does nothing. -/
def setspecific (w : World P τ) (t : τ) (k : Key P) (p : Pointer) : World P τ :=
  if w.process.keys k = none then w
  else { w with value := fun u j => if u = t ∧ j = k then some p else w.value u j }

/-- Every allocated key with a destructor and a value has its destructor run. -/
def threadExit (w : World P τ) (t : τ) : World P τ :=
  { w with
    frees := w.frees ++ (List.finRange P.PTHREAD_KEYS_MAX).filterMap (w.destroyed t)
    value := fun u j => if u = t then none else w.value u j
    exited := t :: w.exited }

omit [DecidableEq τ]

@[simp] theorem holder_allocate_same (w : World P τ) (k : Key P) (who : Party) (dtor : Dtor) :
    (w.allocate k who dtor).holder k = some who := by simp [allocate, holder]

theorem holder_allocate_other (w : World P τ) (k j : Key P) (who : Party) (dtor : Dtor)
    (h : j ≠ k) : (w.allocate k who dtor).holder j = w.holder j := by
  simp [allocate, holder, h]

@[simp] theorem holder_refuse (w : World P τ) (k : Key P) : w.refuse.holder k = w.holder k := rfl

theorem holder_delete_other (w : World P τ) (k j : Key P) (h : j ≠ k) :
    (w.delete k).holder j = w.holder j := by simp [delete, holder, h]

@[simp] theorem holder_malloc (w : World P τ) (k : Key P) : w.malloc.2.holder k = w.holder k := rfl

@[simp] theorem holder_setspecific [DecidableEq τ] (w : World P τ) (t : τ) (j k : Key P)
    (p : Pointer) : (w.setspecific t j p).holder k = w.holder k := by
  by_cases h : w.process.keys j = none <;> simp [setspecific, holder, h]

@[simp] theorem holder_threadExit [DecidableEq τ] (w : World P τ) (t : τ) (k : Key P) :
    (w.threadExit t).holder k = w.holder k := rfl

@[simp] theorem getspecific_allocate (w : World P τ) (k : Key P) (who : Party) (d : Dtor) (t : τ)
    (j : Key P) :
    (w.allocate k who d).getspecific t j = if j = k then none else w.getspecific t j := by
  by_cases h : j = k <;> simp [allocate, getspecific, h]

@[simp] theorem getspecific_refuse (w : World P τ) (t : τ) (j : Key P) :
    w.refuse.getspecific t j = w.getspecific t j := rfl

@[simp] theorem getspecific_delete (w : World P τ) (k : Key P) (t : τ) (j : Key P) :
    (w.delete k).getspecific t j = if j = k then none else w.getspecific t j := by
  by_cases h : j = k <;> simp [delete, getspecific, h]

@[simp] theorem getspecific_malloc (w : World P τ) (t : τ) (j : Key P) :
    w.malloc.2.getspecific t j = w.getspecific t j := rfl

theorem getspecific_setspecific [DecidableEq τ] (w : World P τ) (t u : τ) {k : Key P} (j : Key P)
    (p : Pointer) (hk : w.process.keys k ≠ none) :
    (w.setspecific t k p).getspecific u j =
      if u = t ∧ j = k then some p else w.getspecific u j := by
  by_cases h : u = t ∧ j = k
  · simp [setspecific, getspecific, hk, h]
  · simp [setspecific, getspecific, hk, h]

@[simp] theorem getspecific_threadExit [DecidableEq τ] (w : World P τ) (t u : τ) (j : Key P) :
    (w.threadExit t).getspecific u j = if u = t then none else w.getspecific u j := by
  by_cases h : u = t <;> simp [threadExit, getspecific, h]

@[simp] theorem process_setspecific [DecidableEq τ] (w : World P τ) (t : τ) (k : Key P)
    (p : Pointer) : (w.setspecific t k p).process = w.process := by
  by_cases h : w.process.keys k = none <;> simp [setspecific, h]

theorem setspecific_frame [DecidableEq τ] (w : World P τ) (t : τ) (k : Key P) (p : Pointer) :
    (w.setspecific t k p).owner = w.owner ∧ (w.setspecific t k p).mallocs = w.mallocs ∧
    (w.setspecific t k p).frees = w.frees ∧ (w.setspecific t k p).exited = w.exited := by
  by_cases h : w.process.keys k = none <;> simp [setspecific, h]

/-- A fresh block stored under an allocated key. -/
theorem getspecific_store [DecidableEq τ] (w : World P τ) (t u : τ) {k : Key P} (j : Key P)
    (hk : w.process.keys k ≠ none) :
    (w.malloc.2.setspecific t k w.malloc.1).getspecific u j =
      if u = t ∧ j = k then some (.block w.mallocs) else w.getspecific u j :=
  getspecific_setspecific w.malloc.2 t u j w.malloc.1 hk

/-- A destructor is only called on what its key still holds. -/
theorem getspecific_of_destroyed {w : World P τ} {t : τ} {k : Key P} {n : Nat}
    (h : w.destroyed t k = some n) : w.getspecific t k = some (.block n) := by
  unfold destroyed at h
  split at h
  · cases h
    simp_all [getspecific]
  · cases h

/-- On a key with a destructor every block is freed. -/
theorem destroyed_eq {w : World P τ} {k : Key P} {d : Party × Nat}
    (hk : w.process.keys k = some (some d)) (t : τ) :
    w.destroyed t k = (w.getspecific t k).bind Pointer.number := by
  cases hv : w.value t k with
  | none => simp [destroyed, getspecific, hk, hv]
  | some p => cases p <;> simp [destroyed, getspecific, hk, hv, Pointer.number]

/-- All a create can do: allocate a vacant slot, or be refused by a full table. -/
theorem create_cases (A : Policy (Key P) Dtor) (w : World P τ) (who : Party) (dtor : Dtor) :
    (∃ k, w.process.keys k = none ∧ create A w who dtor = (some k, w.allocate k who dtor)) ∨
    (free w.process.keys = 0 ∧ create A w who dtor = (none, w.refuse)) := by
  rcases pthreadKeyCreate_cases A w.process dtor with ⟨k, hk, h⟩ | ⟨hfull, h⟩
  · exact .inl ⟨k, hk, by simp [create, h]⟩
  · exact .inr ⟨hfull, by simp [create, h]⟩

end World

end ThreadSpecific
