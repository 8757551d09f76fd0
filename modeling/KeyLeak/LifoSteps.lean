import KeyLeak.Lib.Runs
import KeyLeak.Lib.Workers
import KeyLeak.LifoBlock

/-!
# The work-stealing queue, one access at a time

In `LifoQueue` an operation is one step. Here every access to an atomic that the owner and the
thieves share is a step, and the steps of the owner and of any number of thieves come in any order,
the atomics being sequentially consistent. `owner_block_` and `head_` are used by the owner alone:
what it does with them goes with its next access, and so does its writing of slots, which are
read only after they have been claimed. The assertion in `advance_put_index` is left out.
-/
namespace LifoSteps

open Runs
open LifoQueue (Block)

variable {ι α : Type} {k : Nat}

/-- `bit_ceil` makes `blocks_.size()` a power of two, and it is at least 2. -/
def size (k : Nat) : Nat := 2 ^ (k + 1)

/-- `mask_` -/
def mask (k : Nat) : UInt64 := UInt64.ofNat (size k) - 1

theorem size_toNat (hk : k < 63) : (UInt64.ofNat (size k)).toNat = size k := by
  have hle : 2 ^ (k + 1) ≤ 2 ^ 63 := Nat.pow_le_pow_right (by omega) (by omega)
  exact UInt64.toNat_ofNat_of_lt' (by simp only [size, UInt64.size]; omega)

theorem mask_toNat (hk : k < 63) : (mask k).toNat = size k - 1 := by
  have hone : 1 ≤ UInt64.ofNat (size k) := by
    rw [UInt64.le_iff_toNat_le, size_toNat hk]
    exact Nat.one_le_two_pow
  rw [mask, UInt64.toNat_sub_of_le _ _ hone, size_toNat hk]
  rfl

theorem mask_lt (k : Nat) : (mask k).toNat < size k := by
  by_cases hk : k < 63
  · rw [mask_toNat hk]
    exact Nat.sub_lt (Nat.two_pow_pos _) Nat.one_pos
  · have hle : 2 ^ 64 ≤ size k := Nat.pow_le_pow_right (by omega) (by omega)
    exact Nat.lt_of_lt_of_le (mask k).toNat_lt hle

/-- `counter & mask_` -/
def index (k : Nat) (counter : UInt64) : Fin (size k) :=
  ⟨(counter &&& mask k).toNat, by
    rw [UInt64.toNat_and]
    exact Nat.lt_of_le_of_lt Nat.and_le_right (mask_lt k)⟩

/-- Where the owner is. `push_back` of one value is that of a range of one. -/
inductive Owner (α : Type) where
  | idle
  /-- In `pop_back`, before `get` stores `tail_`. -/
  | getting
  /-- Before the exchange of `takeover`. -/
  | takingOver
  /-- The block before has been taken over; before `thief_block_` is loaded. -/
  | adopting
  /-- Before `thief_block_` is stored. -/
  | shifting (thiefCounter : UInt64)
  /-- In `push_back`, before `tail_` is stored. -/
  | putting (values : List α)
  /-- In `advance_put_index`, before `thief_block_` is loaded. -/
  | advancing (values : List α)
  /-- Before `is_writable`. -/
  | checking (values : List α)
  /-- Before `grant` stores `steal_tail_`. -/
  | granting (values : List α)
  /-- In `reclaim`, before `steal_head_` is loaded. -/
  | reclaiming (values : List α)
  | clearingTail (values : List α)
  | clearingStealTail (values : List α)
  | clearingStealHead (values : List α)
  deriving DecidableEq, Repr

/-- Where a thief is in `steal_front`. -/
inductive Thief (α : Type) where
  | idle
  /-- Before `thief_block_` is loaded. -/
  | loading
  /-- In `steal`, before `steal_tail_` is loaded. -/
  | stealing (thief : UInt64)
  /-- Before `tail_` is loaded. -/
  | checking (thief : UInt64) (spos : Nat)
  /-- Before the exchange of `steal_tail_`. -/
  | claiming (thief : UInt64) (spos : Nat)
  /-- Before the slot is read. -/
  | reading (thief : UInt64) (spos : Nat)
  /-- Before `steal_head_.fetch_add(1)`. -/
  | counting (thief : UInt64) (value : Option α)
  /-- In `advance_steal_index`, before `is_stealable`. -/
  | looking (thief : UInt64)
  /-- Before the exchange of `thief_block_`. -/
  | moving (thief : UInt64)
  /-- Before `thief_block_` is loaded once more. -/
  | reloading (thief : UInt64)
  deriving DecidableEq, Repr

/-- `taken` records what `pop_back` and `steal_front` have found, and `refused` what `push_back`
has returned. -/
structure State (ι α : Type) (k : Nat) where
  ownerBlock : UInt64
  thiefBlock : UInt64
  blocks : Fin (size k) → Block α
  owner : Owner α
  thief : ι → Thief α
  taken : List (Option α)
  refused : List α

inductive Event (ι α : Type) where
  | popBack
  | pushBack (values : List α)
  /-- A step of the owner in one of them. -/
  | owner
  | stealFront (t : ι)
  | thief (t : ι)
  deriving DecidableEq

/-- What an event hands in. -/
def Event.values : Event ι α → List α
  | .pushBack values => values
  | _ => []

/-- The `reclaim` of the constructor changes nothing. -/
def start (ι α : Type) (k blockSize : Nat) : State ι α k where
  ownerBlock := 1
  thiefBlock := 0
  blocks := fun _ => .new blockSize
  owner := .idle
  thief := fun _ => .idle
  taken := []
  refused := []

namespace State

variable (s : State ι α k)

def block (counter : UInt64) : Block α := s.blocks (index k counter)

def setBlock (counter : UInt64) (b : Block α) : State ι α k :=
  { s with blocks := Function.update s.blocks (index k counter) b }

end State

def ownerStep (s : State ι α k) : Option (State ι α k) :=
  match s.owner with
  | .idle => none
  | .getting =>
    let (result, b) := (s.block s.ownerBlock).get
    let s := s.setBlock s.ownerBlock b
    match result.status with
    | .success => some { s with owner := .idle, taken := s.taken ++ [result.value] }
    | .done => some { s with owner := .idle }
    | _ => some { s with owner := .takingOver }
  | .takingOver =>
    let (result, b) := (s.block (s.ownerBlock - 1)).takeover
    let s := s.setBlock (s.ownerBlock - 1) b
    some { s with owner := if result.front ≠ result.back then .adopting else .idle }
  | .adopting =>
    let predecessor := s.ownerBlock - 1
    if s.thiefBlock = predecessor then
      some { s with owner := .shifting (s.thiefBlock + (UInt64.ofNat (size k) - 1)) }
    else
      some { s with owner := .getting, ownerBlock := predecessor }
  | .shifting thiefCounter =>
    some { s with
      owner := .getting
      ownerBlock := s.ownerBlock - 1 + UInt64.ofNat (size k)
      thiefBlock := thiefCounter }
  | .putting values =>
    let (rest, b) := (s.block s.ownerBlock).bulkPut values
    some { s.setBlock s.ownerBlock b with
      owner := if rest.isEmpty then .idle else .advancing rest }
  | .advancing values =>
    if UInt64.ofNat (size k) ≤ s.ownerBlock + 1 - s.thiefBlock then
      some { s with owner := .idle, refused := s.refused ++ values }
    else
      some { s with owner := .checking values }
  | .checking values =>
    if (s.block (s.ownerBlock + 1)).isWritable then
      some { s with owner := .granting values }
    else
      some { s with owner := .idle, refused := s.refused ++ values }
  | .granting values =>
    let b := (s.block s.ownerBlock).grant
    some { s.setBlock s.ownerBlock b with
      owner := .reclaiming values, ownerBlock := s.ownerBlock + 1 }
  | .reclaiming values =>
    let b := s.block s.ownerBlock
    if b.stealHead = b.tail then some { s with owner := .clearingTail values } else none
  | .clearingTail values =>
    let b := { s.block s.ownerBlock with head := 0, tail := 0 }
    some { s.setBlock s.ownerBlock b with owner := .clearingStealTail values }
  | .clearingStealTail values =>
    let b := s.block s.ownerBlock
    some { s.setBlock s.ownerBlock { b with stealTail := b.blockSize } with
      owner := .clearingStealHead values }
  | .clearingStealHead values =>
    let b := { s.block s.ownerBlock with stealHead := 0 }
    some { s.setBlock s.ownerBlock b with owner := .putting values }

section Step

variable [DecidableEq ι] (s : State ι α k)

def State.goto (t : ι) (phase : Thief α) : State ι α k :=
  { s with thief := Function.update s.thief t phase }

def thiefStep (t : ι) : Option (State ι α k) :=
  match s.thief t with
  | .idle => none
  | .loading => some (s.goto t (.stealing s.thiefBlock))
  | .stealing thief =>
    let b := s.block thief
    some (s.goto t (if b.stealTail = b.blockSize then .looking thief
      else .checking thief b.stealTail))
  | .checking thief spos =>
    some (s.goto t (if spos = (s.block thief).tail then .idle else .claiming thief spos))
  | .claiming thief spos =>
    let b := s.block thief
    if b.stealTail = spos then some ((s.setBlock thief b.claimFront).goto t (.reading thief spos))
    else some (s.goto t (.stealing thief))
  | .reading thief spos =>
    some (s.goto t (.counting thief ((s.block thief).ringBuffer spos)))
  | .counting thief value =>
    let b := { s.block thief with stealHead := (s.block thief).stealHead + 1 }
    some ({ s.setBlock thief b with taken := s.taken ++ [value] }.goto t .idle)
  | .looking thief =>
    some (s.goto t (if (s.block (thief + 1)).isStealable then .moving thief
      else .reloading thief))
  | .moving thief =>
    some ({ s with thiefBlock := if s.thiefBlock = thief then thief + 1 else s.thiefBlock }.goto t
      .loading)
  | .reloading thief =>
    some (s.goto t (if s.thiefBlock ≠ thief then .loading else .idle))

def step : Event ι α → Option (State ι α k)
  | .popBack =>
    match s.owner with
    | .idle => some { s with owner := .getting }
    | _ => none
  | .pushBack values =>
    match s.owner with
    | .idle => some { s with owner := .putting values }
    | _ => none
  | .owner => ownerStep s
  | .stealFront t =>
    match s.thief t with
    | .idle => some (s.goto t .loading)
    | _ => none
  | .thief t => thiefStep s t

end Step

end LifoSteps
