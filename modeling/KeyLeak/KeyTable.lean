import Mathlib.Algebra.GroupWithZero.Nat
import KeyLeak.Lib.CInt
import KeyLeak.Lib.SlotPool

/-!
# The process-wide table of pthread keys

A key is a slot number below `PTHREAD_KEYS_MAX`; an allocated slot remembers the
destructor it was created with. The table is one per process: the executable and
every loaded library take from it and give back to it through the same two calls.
-/
namespace KeyTable

open SlotPool

/-- The platform's constant, a macro of type `int` (1024 in glibc, 128 in musl). -/
structure Platform where
  PTHREAD_KEYS_MAX : Nat
  fits : PTHREAD_KEYS_MAX < 2147483647

def glibc : Platform := ⟨1024, by decide⟩

theorem glibc_keys_ne_zero : glibc.PTHREAD_KEYS_MAX ≠ 0 := by decide

instance : NeZero glibc.PTHREAD_KEYS_MAX := ⟨glibc_keys_ne_zero⟩

variable {P : Platform}

/-- `pthread_key_t` -/
abbrev Key (P : Platform) := Fin P.PTHREAD_KEYS_MAX

/-- The two objects whose code runs in the process: everything outside the plugin
library, and the plugin library with its statically embedded C++ runtime. -/
inductive Party where
  | host | plugin
  deriving DecidableEq, Repr

/-- A destructor pointer: null, or a function of one of the two objects. -/
abbrev Dtor := Option (Party × Nat)

abbrev Table (P : Platform) := Pool (Key P) Dtor

/-- The table, and how many creates the executable has issued so far. The count is
not stored anywhere in the program: it lets the allocator's choice of a slot differ
from call to call. -/
structure Process (P : Platform) where
  keys : Table P
  calls : Nat

/-- Success stores a vacant slot and returns 0; `none` is a nonzero result. -/
def pthreadKeyCreate (A : Policy (Key P) Dtor) (p : Process P) (dtor : Dtor) :
    Option (Key P) × Process P :=
  match A.pick p.calls p.keys with
  | some k => (some k, ⟨put p.keys k dtor, p.calls + 1⟩)
  | none => (none, ⟨p.keys, p.calls + 1⟩)

/-- Frees the slot whoever allocated it. An unallocated slot gives an error, which
no caller reads, and changes nothing. -/
def pthreadKeyDelete (p : Process P) (k : Key P) : Process P := { p with keys := drop p.keys k }

@[simp] theorem pthreadKeyDelete_keys (p : Process P) (k : Key P) :
    (pthreadKeyDelete p k).keys = drop p.keys k := rfl
@[simp] theorem pthreadKeyDelete_calls (p : Process P) (k : Key P) :
    (pthreadKeyDelete p k).calls = p.calls := rfl

/-- All a create can do: take a vacant slot, or fail on a full table. -/
theorem pthreadKeyCreate_cases (A : Policy (Key P) Dtor) (p : Process P) (dtor : Dtor) :
    (∃ k, p.keys k = none ∧
      pthreadKeyCreate A p dtor = (some k, ⟨put p.keys k dtor, p.calls + 1⟩)) ∨
    (free p.keys = 0 ∧ pthreadKeyCreate A p dtor = (none, ⟨p.keys, p.calls + 1⟩)) := by
  unfold pthreadKeyCreate
  cases hk : A.pick p.calls p.keys with
  | some k => exact .inl ⟨k, A.sound _ _ _ hk, rfl⟩
  | none => exact .inr ⟨(A.pick_eq_none_iff _ _).mp hk, rfl⟩

theorem used_le_max (t : Table P) : used t ≤ P.PTHREAD_KEYS_MAX := by
  simpa using used_le t

theorem used_add_free_eq_max (t : Table P) : used t + free t = P.PTHREAD_KEYS_MAX := by
  simpa using used_add_free t

end KeyTable
