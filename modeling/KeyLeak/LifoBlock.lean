import Mathlib.Data.List.Intervals
import Mathlib.Logic.Function.Basic

/-!
# The blocks of a work-stealing queue

A block is a row of slots that is filled once from the front. While the owner has it, it puts
and gets at the back; when it is granted, thieves claim slots at the front and read them
afterwards; when everything claimed has been read, it can be reclaimed. Each operation on a
block is one atomic step, except that a steal is a claim and a read: `steal_tail_` and `tail_` do
not change between the loads of a claim and its `compare_exchange`.
-/
namespace LifoQueue

variable {α : Type}

/-- `lifo_queue_error_code`; in a claim that is one step the `compare_exchange` does not fail, so
there is no conflict. -/
inductive ErrorCode where
  | success | done | empty | full
  deriving DecidableEq, Repr

structure FetchResult (α : Type) where
  status : ErrorCode
  value : Option α

structure TakeoverResult where
  front : Nat
  back : Nat
  deriving DecidableEq, Repr

/-- `block_type`; `none` in the ring is the null pointer. -/
structure Block (α : Type) where
  head : Nat
  tail : Nat
  stealHead : Nat
  stealTail : Nat
  blockSize : Nat
  ringBuffer : Nat → Option α

namespace Block

def new (blockSize : Nat) : Block α := ⟨0, 0, 0, blockSize, blockSize, fun _ => none⟩

def put (b : Block α) (value : α) : ErrorCode × Block α :=
  if b.tail < b.blockSize then
    (.success, { b with
      ringBuffer := Function.update b.ringBuffer b.tail (some value), tail := b.tail + 1 })
  else
    (.full, b)

/-- What is not put is returned. -/
def bulkPut (b : Block α) : List α → List α × Block α
  | [] => ([], b)
  | value :: rest =>
    if b.tail < b.blockSize then
      bulkPut { b with
        ringBuffer := Function.update b.ringBuffer b.tail (some value), tail := b.tail + 1 } rest
    else
      (value :: rest, b)

def get (b : Block α) : FetchResult α × Block α :=
  if b.head = b.blockSize then
    (⟨.done, none⟩, b)
  else if b.head = b.tail then
    (⟨.empty, none⟩, b)
  else
    (⟨.success, b.ringBuffer (b.tail - 1)⟩, { b with tail := b.tail - 1 })

/-- The first half of `steal`, up to the exchange of `steal_tail_`: the slot claimed. -/
def claim (b : Block α) : ErrorCode × Nat × Block α :=
  if b.stealTail = b.blockSize then
    (.done, b.stealTail, b)
  else if b.stealTail = b.tail then
    (.empty, b.stealTail, b)
  else
    (.success, b.stealTail, { b with stealTail := b.stealTail + 1 })

/-- The second half: the slot is read and the read counted. -/
def read (b : Block α) (spos : Nat) : Option α × Block α :=
  (b.ringBuffer spos, { b with stealHead := b.stealHead + 1 })

def takeover (b : Block α) : TakeoverResult × Block α :=
  if b.stealTail = b.blockSize then
    (⟨b.head, b.tail⟩, b)
  else
    (⟨b.stealTail, b.tail⟩, { b with head := b.stealTail, stealTail := b.blockSize })

def isWritable (b : Block α) : Bool := b.stealTail = b.blockSize

def isStealable (b : Block α) : Bool := b.stealTail ≠ b.blockSize

def grant (b : Block α) : Block α := { b with head := b.blockSize, stealTail := b.head }

/-- `none` while it waits for thieves that have claimed a slot and not read it. -/
def reclaim (b : Block α) : Option (Block α) :=
  if b.stealHead = b.tail then
    some { b with head := 0, tail := 0, stealTail := b.blockSize, stealHead := 0 }
  else
    none

/-- What is in the slots from `first` up to `last`. -/
def slice (b : Block α) (first last : Nat) : List (Option α) :=
  (List.Ico first last).map b.ringBuffer

/-- What the owner can get. -/
def own (b : Block α) : List (Option α) := b.slice b.head b.tail

/-- What thieves can claim. -/
def unclaimed (b : Block α) : List (Option α) := b.slice b.stealTail b.tail

/-- How many slots thieves have claimed since the block was reclaimed. -/
def claimed (b : Block α) : Nat := if b.stealTail < b.blockSize then b.stealTail else b.head

/-- The block the owner puts to and gets from. -/
structure Owned (b : Block α) : Prop where
  closed : b.stealTail = b.blockSize
  le : b.head ≤ b.tail
  fits : b.tail ≤ b.blockSize
  room : b.head < b.blockSize

/-- A block that thieves have not emptied. -/
structure Granted (b : Block α) : Prop where
  head : b.head = b.blockSize
  tail : b.tail = b.blockSize
  left : b.stealTail < b.blockSize

/-- A block that is empty and that nobody uses. -/
structure Idle (b : Block α) : Prop where
  closed : b.stealTail = b.blockSize
  empty : b.head = b.tail
  fits : b.tail ≤ b.blockSize

/-- What the owner does to a block: either no claimed slot changes and no read is
forgotten, or every claimed slot has been read and the block starts again. -/
inductive Kept (b b' : Block α) : Prop where
  | same (claimed : b'.claimed = b.claimed) (reads : b'.stealHead = b.stealHead)
      (ring : ∀ p, p < b.claimed → b'.ringBuffer p = b.ringBuffer p)
  | reset (done : b.stealHead = b.claimed) (claimed : b'.claimed = 0) (reads : b'.stealHead = 0)

theorem Kept.refl (b : Block α) : Kept b b := .same rfl rfl fun _ _ => rfl

theorem Kept.trans {a b c : Block α} (hab : Kept a b) (hbc : Kept b c) : Kept a c := by
  cases hab with
  | same hclaimed hreads hring =>
    cases hbc with
    | same hclaimed' hreads' hring' =>
      refine .same (hclaimed'.trans hclaimed) (hreads'.trans hreads) fun p hp => ?_
      rw [hring' p (by omega), hring p hp]
    | reset hdone hclaimed' hreads' => exact .reset (by omega) hclaimed' hreads'
  | reset hdone hclaimed hreads =>
    cases hbc with
    | same hclaimed' hreads' _ => exact .reset hdone (by omega) (by omega)
    | reset _ hclaimed' hreads' => exact .reset hdone hclaimed' hreads'

theorem slice_snoc (b : Block α) {first last : Nat} (h : first ≤ last) :
    b.slice first (last + 1) = b.slice first last ++ [b.ringBuffer last] := by
  rw [slice, List.Ico.succ_top h, List.map_append]
  rfl

theorem slice_cons (b : Block α) {first last : Nat} (h : first < last) :
    b.slice first last = b.ringBuffer first :: b.slice (first + 1) last := by
  rw [slice, List.Ico.eq_cons h]
  rfl

theorem slice_congr {b b' : Block α} {first last : Nat}
    (h : ∀ p, first ≤ p → p < last → b'.ringBuffer p = b.ringBuffer p) :
    b'.slice first last = b.slice first last := by
  refine List.map_congr_left fun p hp => ?_
  obtain ⟨hfirst, hlast⟩ := List.Ico.mem.mp hp
  exact h p hfirst hlast

theorem own_nil {b : Block α} (h : b.head = b.tail) : b.own = [] := by
  rw [own, slice, h, List.Ico.self_empty]
  rfl

theorem own_ne_nil {b : Block α} (h : b.head < b.tail) : b.own ≠ [] := by
  rw [own, slice_cons b h]
  exact List.cons_ne_nil _ _

theorem Owned.claimed {b : Block α} (h : b.Owned) : b.claimed = b.head := by
  rw [Block.claimed, if_neg (by rw [h.closed]; exact Nat.lt_irrefl _)]

theorem Granted.claimed {b : Block α} (h : b.Granted) : b.claimed = b.stealTail := if_pos h.left

theorem Idle.claimed {b : Block α} (h : b.Idle) : b.claimed = b.tail := by
  rw [Block.claimed, if_neg (by rw [h.closed]; exact Nat.lt_irrefl _), h.empty]

theorem Idle.unclaimed {b : Block α} (h : b.Idle) : b.unclaimed = [] := by
  rw [Block.unclaimed, slice, List.Ico.eq_nil_of_le (h.closed ▸ h.fits)]
  rfl

/-- The ring with one more value at the back. -/
def putAt (b : Block α) (value : α) : Block α :=
  { b with ringBuffer := Function.update b.ringBuffer b.tail (some value), tail := b.tail + 1 }

theorem Owned.putAt {b : Block α} (h : b.Owned) (ht : b.tail < b.blockSize) (value : α) :
    (b.putAt value).Owned ∧ Kept b (b.putAt value) ∧
    (b.putAt value).own = b.own ++ [some value] := by
  have hring : ∀ p, p < b.tail → (b.putAt value).ringBuffer p = b.ringBuffer p := by
    intro p hp
    exact Function.update_of_ne (Nat.ne_of_lt hp) _ _
  have howned : (b.putAt value).Owned := ⟨h.closed, Nat.le_succ_of_le h.le, ht, h.room⟩
  refine ⟨howned, .same ?_ rfl fun p hp => ?_, ?_⟩
  · rw [howned.claimed, h.claimed]
    rfl
  · rw [h.claimed] at hp
    exact hring p (Nat.lt_of_lt_of_le hp h.le)
  · have hslice : (b.putAt value).slice b.head b.tail = b.slice b.head b.tail :=
      slice_congr fun p _ hp => hring p hp
    have hlast : (b.putAt value).ringBuffer b.tail = some value := Function.update_self _ _ _
    change (b.putAt value).slice b.head (b.tail + 1) = _
    rw [slice_snoc _ h.le, hslice, hlast]
    rfl

theorem Owned.bulkPut {b : Block α} (h : b.Owned) (values : List α) :
    (b.bulkPut values).2.Owned ∧ Kept b (b.bulkPut values).2 ∧
    ∃ taken, values = taken ++ (b.bulkPut values).1 ∧
      (b.bulkPut values).2.own = b.own ++ taken.map some ∧
      ((b.bulkPut values).1 ≠ [] → (b.bulkPut values).2.tail = (b.bulkPut values).2.blockSize) := by
  induction values generalizing b with
  | nil => exact ⟨h, .refl b, [], rfl, by simp [Block.bulkPut], by simp [Block.bulkPut]⟩
  | cons value rest ih =>
    by_cases ht : b.tail < b.blockSize
    · have heq : b.bulkPut (value :: rest) = (b.putAt value).bulkPut rest := if_pos ht
      obtain ⟨howned, hkept, hown⟩ := h.putAt ht value
      obtain ⟨howned', hkept', taken, hrest, hown', hfull⟩ := ih howned
      rw [heq]
      refine ⟨howned', hkept.trans hkept', value :: taken, ?_, ?_, hfull⟩
      · rw [List.cons_append, ← hrest]
      · rw [hown', hown]
        simp
    · have heq : b.bulkPut (value :: rest) = (value :: rest, b) := if_neg ht
      rw [heq]
      exact ⟨h, .refl b, [], rfl, by simp, fun _ => Nat.le_antisymm h.fits (Nat.not_lt.mp ht)⟩

theorem Owned.get_empty {b : Block α} (h : b.Owned) (hempty : b.head = b.tail) :
    b.get = (⟨.empty, none⟩, b) := by
  rw [Block.get, if_neg (Nat.ne_of_lt h.room), if_pos hempty]

theorem Owned.get {b : Block α} (h : b.Owned) (hne : b.head ≠ b.tail) :
    b.get = (⟨.success, b.ringBuffer (b.tail - 1)⟩, { b with tail := b.tail - 1 }) ∧
    ({ b with tail := b.tail - 1 } : Block α).Owned ∧ Kept b { b with tail := b.tail - 1 } ∧
    b.own = ({ b with tail := b.tail - 1 } : Block α).own ++ [b.ringBuffer (b.tail - 1)] := by
  have hle := h.le
  have hfits := h.fits
  have hpred : b.tail - 1 + 1 = b.tail := by omega
  have howned : ({ b with tail := b.tail - 1 } : Block α).Owned :=
    ⟨h.closed, by simp only; omega, by simp only; omega, h.room⟩
  refine ⟨?_, howned, .same ?_ rfl fun _ _ => rfl, ?_⟩
  · rw [Block.get, if_neg (Nat.ne_of_lt h.room), if_neg hne]
  · rw [howned.claimed, h.claimed]
  · have hsnoc : b.slice b.head (b.tail - 1 + 1) =
        b.slice b.head (b.tail - 1) ++ [b.ringBuffer (b.tail - 1)] :=
      slice_snoc b (by omega)
    rw [hpred] at hsnoc
    exact hsnoc

theorem Granted.takeover {b : Block α} (h : b.Granted) :
    b.takeover = (⟨b.stealTail, b.tail⟩,
      { b with head := b.stealTail, stealTail := b.blockSize }) ∧
    ({ b with head := b.stealTail, stealTail := b.blockSize } : Block α).Owned ∧
    Kept b { b with head := b.stealTail, stealTail := b.blockSize } := by
  have hleft := h.left
  have howned : ({ b with head := b.stealTail, stealTail := b.blockSize } : Block α).Owned :=
    ⟨rfl, by rw [h.tail]; exact hleft.le, h.tail.le, hleft⟩
  refine ⟨?_, howned, .same ?_ rfl fun _ _ => rfl⟩
  · rw [Block.takeover, if_neg (Nat.ne_of_lt hleft)]
  · rw [howned.claimed, h.claimed]

theorem Idle.takeover {b : Block α} (h : b.Idle) : b.takeover = (⟨b.tail, b.tail⟩, b) := by
  rw [Block.takeover, if_pos h.closed, h.empty]

theorem Owned.grant {b : Block α} (h : b.Owned) (hfull : b.tail = b.blockSize) :
    b.grant.Granted ∧ Kept b b.grant ∧ b.grant.unclaimed = b.own := by
  have hgranted : b.grant.Granted := ⟨rfl, hfull, h.room⟩
  refine ⟨hgranted, .same ?_ rfl fun _ _ => rfl, rfl⟩
  rw [hgranted.claimed, h.claimed]
  rfl

theorem Owned.idle {b : Block α} (h : b.Owned) (hempty : b.head = b.tail) : b.Idle :=
  ⟨h.closed, hempty, h.fits⟩

theorem Idle.reclaim {b b' : Block α} (h : b.Idle) (hpos : 0 < b.blockSize)
    (hr : b.reclaim = some b') : b'.Owned ∧ b'.head = b'.tail ∧ b'.tail < b'.blockSize ∧ Kept b b' := by
  rw [Block.reclaim] at hr
  split at hr
  next hdone =>
    cases hr
    have howned : ({ b with head := 0, tail := 0, stealTail := b.blockSize, stealHead := 0 } :
        Block α).Owned := ⟨rfl, Nat.le_refl _, Nat.zero_le _, hpos⟩
    exact ⟨howned, rfl, hpos, .reset (by rw [h.claimed, hdone]) howned.claimed rfl⟩
  next => cases hr

theorem Idle.reclaim_none {b : Block α} (h : b.Idle) (hr : b.reclaim = none) :
    b.stealHead ≠ b.claimed := by
  rw [h.claimed]
  intro hdone
  rw [Block.reclaim, if_pos hdone] at hr
  cases hr

theorem Idle.claim {b : Block α} (h : b.Idle) : b.claim = (.done, b.stealTail, b) :=
  if_pos h.closed

/-- The block with one more slot claimed. -/
def claimFront (b : Block α) : Block α := { b with stealTail := b.stealTail + 1 }

/-- A claim takes the front of what is unclaimed. -/
theorem Granted.claim {b : Block α} (h : b.Granted) :
    b.claim = (.success, b.claimed, b.claimFront) ∧ (b.claimFront.Granted ∨ b.claimFront.Idle) ∧
    b.claimFront.claimed = b.claimed + 1 ∧
    b.unclaimed = b.ringBuffer b.claimed :: b.claimFront.unclaimed := by
  have hleft := h.left
  have htail := h.tail
  rw [h.claimed]
  refine ⟨?_, ?_, ?_, slice_cons b (by omega)⟩
  · rw [Block.claim, if_neg (Nat.ne_of_lt hleft), if_neg (by omega)]
    rfl
  · rcases Nat.lt_or_eq_of_le hleft with hlt | heq
    · exact .inl ⟨h.head, h.tail, hlt⟩
    · exact .inr ⟨heq, h.head.trans h.tail.symm, h.tail.le⟩
  · simp only [Block.claimed, claimFront, h.head]
    split <;> omega

end Block

end LifoQueue
