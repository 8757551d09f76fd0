import Mathlib.Data.Int.ModEq
import KeyLeak.LifoBlock

/-!
# The work-stealing queue of a pool thread

The queue is a ring of blocks. The owner works at the back of one block; when that block is
full it is granted to the thieves and the next one reclaimed, and when it is empty the one
before is taken over. Thieves work at the front of the oldest block that has been granted. The
counters are not wrapped: they would have to pass 2^64.

Each operation of the owner, and each `steal_front` up to its claim, is one atomic step on the whole
ring. What the queue does when a thief is held up between its load of `thief_block_` and its claim,
or an owner in the middle of an operation, is left out here; `LifoSteps` has it.
-/
namespace LifoQueue

variable {α : Type}

structure Queue (α : Type) where
  ownerBlock : Nat
  thiefBlock : Nat
  blocks : Nat → Block α
  mask : Nat

namespace Queue

/-- `blocks_.size()` -/
def size (q : Queue α) : Nat := q.mask + 1

def index (q : Queue α) (counter : Nat) : Nat := counter &&& q.mask

/-- The block that a counter stands for. -/
def block (q : Queue α) (counter : Nat) : Block α := q.blocks (q.index counter)

def setBlock (q : Queue α) (counter : Nat) (b : Block α) : Queue α :=
  { q with blocks := Function.update q.blocks (q.index counter) b }

def new (numBlocks blockSize : Nat) : Queue α :=
  { ownerBlock := 1
    thiefBlock := 0
    blocks := fun _ => .new blockSize
    mask := max 2 numBlocks.nextPowerOfTwo - 1 }

def advanceGetIndex (q : Queue α) : Bool × Queue α :=
  let predecessor := q.ownerBlock - 1
  let (result, b) := (q.block predecessor).takeover
  let q := q.setBlock predecessor b
  if result.front ≠ result.back then
    if q.thiefBlock = predecessor then
      (true, { q with
        ownerBlock := predecessor + q.size, thiefBlock := q.thiefBlock + (q.size - 1) })
    else
      (true, { q with ownerBlock := predecessor })
  else
    (false, q)

/-- `none` while the next block cannot be reclaimed. -/
def advancePutIndex (q : Queue α) : Option (Bool × Queue α) :=
  let nextCounter := q.ownerBlock + 1
  if q.size ≤ nextCounter - q.thiefBlock then
    some (false, q)
  else if !(q.block nextCounter).isWritable then
    some (false, q)
  else
    let q := q.setBlock q.ownerBlock (q.block q.ownerBlock).grant
    let q := { q with ownerBlock := nextCounter }
    (q.block nextCounter).reclaim.map fun b => (true, q.setBlock nextCounter b)

def advanceStealIndex (q : Queue α) (expectedThiefCounter : Nat) : Bool × Queue α :=
  if (q.block (expectedThiefCounter + 1)).isStealable then
    (true, { q with thiefBlock := expectedThiefCounter + 1 })
  else
    (false, q)

/-- The `do … while` loops are given a number of rounds, and end in `none` when it is used up. A
loop is one step: no thief comes between the takeover of a block and the rest. -/
def popBackLoop : Nat → Queue α → Option (Option α × Queue α)
  | 0, _ => none
  | rounds + 1, q =>
    let (result, b) := (q.block q.ownerBlock).get
    let q := q.setBlock q.ownerBlock b
    match result.status with
    | .success => some (result.value, q)
    | .done => some (none, q)
    | _ =>
      let (more, q) := q.advanceGetIndex
      if more then popBackLoop rounds q else some (none, q)

/-- `none` also while it waits in `reclaim`. -/
def pushBackLoop : Nat → Queue α → α → Option (Bool × Queue α)
  | 0, _, _ => none
  | rounds + 1, q, value =>
    let (ec, b) := (q.block q.ownerBlock).put value
    let q := q.setBlock q.ownerBlock b
    match ec with
    | .success => some (true, q)
    | _ => q.advancePutIndex.bind fun (more, q) =>
      if more then pushBackLoop rounds q value else some (false, q)

/-- `push_back` of a range returns what does not fit; all blocks it fills are one step. -/
def pushAllLoop : Nat → Queue α → List α → Option (List α × Queue α)
  | 0, _, _ => none
  | rounds + 1, q, values =>
    let (rest, b) := (q.block q.ownerBlock).bulkPut values
    let q := q.setBlock q.ownerBlock b
    if rest.isEmpty then
      some ([], q)
    else
      q.advancePutIndex.bind fun (more, q) =>
        if more then pushAllLoop rounds q rest else some (rest, q)

/-- `steal_front` up to the claim: the index of the block and the slot. As all of it is one step,
`thief_block_` is as it was loaded and there is no conflict to try again after. -/
def stealFrontLoop : Nat → Queue α → Option (Option (Nat × Nat) × Queue α)
  | 0, _ => none
  | rounds + 1, q =>
    let thief := q.thiefBlock
    let (ec, spos, b) := (q.block thief).claim
    let q := q.setBlock thief b
    match ec with
    | .success => some (some (q.index thief, spos), q)
    | .empty => some (none, q)
    | _ =>
      let (more, q) := q.advanceStealIndex thief
      if more then stealFrontLoop rounds q else some (none, q)

def popBack (q : Queue α) : Option (Option α × Queue α) := popBackLoop 2 q
def pushBack (q : Queue α) (value : α) : Option (Bool × Queue α) := pushBackLoop 2 q value
def pushAll (q : Queue α) (values : List α) : Option (List α × Queue α) :=
  pushAllLoop (q.size + 1) q values
def stealFront (q : Queue α) : Option (Option (Nat × Nat) × Queue α) := stealFrontLoop 2 q

/-- The end of `steal_front`: the claimed slot is read. -/
def readSlot (q : Queue α) (slot : Nat × Nat) : Option α × Queue α :=
  let (value, b) := (q.blocks slot.1).read slot.2
  (value, { q with blocks := Function.update q.blocks slot.1 b })

/-- The ring seen from the owner: the thieves' blocks from `thief_block_` on, the owner's
block, and free blocks up to where the ring closes. -/
structure Wf (q : Queue α) : Prop where
  power : q.size.isPowerOfTwo
  pos : ∀ i, 0 < (q.blocks i).blockSize
  ordered : q.thiefBlock < q.ownerBlock
  window : q.ownerBlock < q.thiefBlock + q.size
  owned : (q.block q.ownerBlock).Owned
  first : (q.block q.thiefBlock).Granted ∨ (q.block q.thiefBlock).Idle
  granted : ∀ c, q.thiefBlock < c → c < q.ownerBlock → (q.block c).Granted
  idle : ∀ c, q.ownerBlock < c → c < q.thiefBlock + q.size → (q.block c).Idle

/-- The block that the constructor reclaims is as it was made. -/
theorem reclaim_new (blockSize : Nat) :
    (Block.new blockSize : Block α).reclaim = some (.new blockSize) := rfl

theorem new_wf (numBlocks : Nat) {blockSize : Nat} (h : 0 < blockSize) :
    (new numBlocks blockSize : Queue α).Wf := by
  have hsize : (new numBlocks blockSize : Queue α).size = max 2 numBlocks.nextPowerOfTwo :=
    Nat.sub_add_cancel (by omega)
  refine ⟨?_, fun _ => h, Nat.zero_lt_one, ?_, ⟨rfl, Nat.le_refl _, Nat.zero_le _, h⟩,
    .inr ⟨rfl, rfl, Nat.zero_le _⟩, fun c hlo hhi => ?_, fun _ _ _ => ⟨rfl, rfl, Nat.zero_le _⟩⟩
  · rw [hsize]
    rcases Nat.le_total 2 numBlocks.nextPowerOfTwo with hle | hle
    · rw [Nat.max_eq_right hle]
      exact Nat.isPowerOfTwo_nextPowerOfTwo numBlocks
    · rw [Nat.max_eq_left hle]
      exact ⟨1, rfl⟩
  · rw [hsize]
    change 1 < 0 + _
    omega
  · change 0 < c at hlo
    change c < 1 at hhi
    omega

/-- What thieves can claim, oldest first. -/
def shared (q : Queue α) : List (Option α) :=
  ((List.Ico q.thiefBlock q.ownerBlock).map fun c => (q.block c).unclaimed).flatten

/-- What the queue holds, oldest first. -/
def contents (q : Queue α) : List (Option α) := q.shared ++ (q.block q.ownerBlock).own

/-- What the owner does to all blocks. -/
def Kept (q q' : Queue α) : Prop := ∀ i, Block.Kept (q.blocks i) (q'.blocks i)

theorem Kept.refl (q : Queue α) : Kept q q := fun _ => .refl _
theorem Kept.trans {q q' q'' : Queue α} (h : Kept q q') (h' : Kept q' q'') : Kept q q'' :=
  fun i => (h i).trans (h' i)

theorem index_eq {q : Queue α} (h : q.size.isPowerOfTwo) (c : Nat) : q.index c = c % q.size := by
  obtain ⟨k, hk⟩ := h
  have hmask : q.mask = 2 ^ k - 1 := by
    rw [← hk]
    rfl
  rw [index, hmask, Nat.and_two_pow_sub_one_eq_mod, hk]

/-- Counters less than one turn apart stand for different blocks. -/
theorem index_ne {q : Queue α} (h : q.size.isPowerOfTwo) {c d : Nat} (hne : c ≠ d)
    (hc : c < d + q.size) (hd : d < c + q.size) : q.index c ≠ q.index d := by
  rw [index_eq h, index_eq h]
  intro heq
  exact hne (Nat.ModEq.eq_of_abs_lt heq (by rw [abs_lt]; omega))

@[simp] theorem setBlock_size (q : Queue α) (c : Nat) (b : Block α) : (q.setBlock c b).size = q.size :=
  rfl
@[simp] theorem setBlock_index (q : Queue α) (c d : Nat) (b : Block α) :
    (q.setBlock c b).index d = q.index d := rfl
@[simp] theorem setBlock_ownerBlock (q : Queue α) (c : Nat) (b : Block α) :
    (q.setBlock c b).ownerBlock = q.ownerBlock := rfl
@[simp] theorem setBlock_thiefBlock (q : Queue α) (c : Nat) (b : Block α) :
    (q.setBlock c b).thiefBlock = q.thiefBlock := rfl
@[simp] theorem setBlock_block (q : Queue α) (c : Nat) (b : Block α) :
    (q.setBlock c b).block c = b := Function.update_self _ _ _

theorem setBlock_other {q : Queue α} (h : q.size.isPowerOfTwo) {c d : Nat} (b : Block α)
    (hne : d ≠ c) (hd : d < c + q.size) (hc : c < d + q.size) :
    (q.setBlock c b).block d = q.block d :=
  Function.update_of_ne (index_ne h hne hd hc) _ _

theorem setBlock_kept {q : Queue α} {c : Nat} {b : Block α} (h : Block.Kept (q.block c) b) :
    Kept q (q.setBlock c b) := by
  intro i
  by_cases hi : i = q.index c
  · subst hi
    simpa [setBlock, block] using h
  · simpa [setBlock, hi] using Block.Kept.refl _

theorem setBlock_pos {q : Queue α} {c : Nat} {b : Block α} (h : ∀ i, 0 < (q.blocks i).blockSize)
    (hb : 0 < b.blockSize) (i : Nat) : 0 < ((q.setBlock c b).blocks i).blockSize := by
  by_cases hi : i = q.index c
  · subst hi
    simpa [setBlock] using hb
  · simpa [setBlock, hi] using h i

/-- Putting another block in the owner's place. -/
theorem Wf.setOwned {q : Queue α} (h : q.Wf) {b : Block α} (hb : b.Owned)
    (hpos : 0 < b.blockSize) : (q.setBlock q.ownerBlock b).Wf ∧
    (q.setBlock q.ownerBlock b).shared = q.shared := by
  have hother : ∀ c, c ≠ q.ownerBlock → q.thiefBlock ≤ c → c < q.thiefBlock + q.size →
      (q.setBlock q.ownerBlock b).block c = q.block c := by
    intro c hne hlo hhi
    have := h.ordered
    have := h.window
    exact setBlock_other h.power b hne (by omega) (by omega)
  have hwindow := h.window
  have hordered := h.ordered
  refine ⟨⟨h.power, ?_, h.ordered, h.window, ?_, ?_, ?_, ?_⟩, ?_⟩
  · exact setBlock_pos h.pos hpos
  · simpa using hb
  · rw [setBlock_thiefBlock, hother _ (by omega) (Nat.le_refl _) (by omega)]
    exact h.first
  · intro c hlo hhi
    simp only [setBlock_thiefBlock, setBlock_ownerBlock] at hlo hhi
    rw [hother c (by omega) (by omega) (by omega)]
    exact h.granted c hlo hhi
  · intro c hlo hhi
    simp only [setBlock_thiefBlock, setBlock_ownerBlock, setBlock_size] at hlo hhi
    rw [hother c (by omega) (by omega) (by omega)]
    exact h.idle c hlo hhi
  · unfold shared
    congr 1
    refine List.map_congr_left fun c hc => ?_
    obtain ⟨hlo, hhi⟩ := List.Ico.mem.mp hc
    simp only [setBlock_thiefBlock, setBlock_ownerBlock] at hlo hhi
    rw [hother c (by omega) hlo (by omega)]

theorem setBlock_self (q : Queue α) (c : Nat) : q.setBlock c (q.block c) = q := by
  simp [setBlock, block]

/-- Some thief has claimed a slot of a block and not read it yet. -/
def Unread (q : Queue α) : Prop := ∃ i, (q.blocks i).stealHead ≠ (q.blocks i).claimed

/-- What comes of `advance_put_index`. -/
inductive PutAdvance (q : Queue α) : Option (Bool × Queue α) → Prop where
  | advanced {q' : Queue α} (wf : q'.Wf) (kept : Kept q q') (contents : q'.contents = q.contents)
      (room : (q'.block q'.ownerBlock).tail < (q'.block q'.ownerBlock).blockSize)
      (owner : q'.ownerBlock = q.ownerBlock + 1) (thief : q'.thiefBlock = q.thiefBlock)
      (size : q'.size = q.size) : PutAdvance q (some (true, q'))
  | closed (full : q.ownerBlock + 1 = q.thiefBlock + q.size) : PutAdvance q (some (false, q))
  | waiting (unread : q.Unread) : PutAdvance q none

theorem block_congr {q q' : Queue α} (hmask : q'.mask = q.mask) (hblocks : q'.blocks = q.blocks)
    (c : Nat) : q'.block c = q.block c := by
  rw [block, block, index, index, hmask, hblocks]

/-- The owner's block granted as `g`, and the next one reclaimed as `b`. -/
theorem Wf.granted_advance {q q' : Queue α} (h : q.Wf) {g b : Block α} (hg : g.Granted)
    (hgkept : Block.Kept (q.block q.ownerBlock) g)
    (hunclaimed : g.unclaimed = (q.block q.ownerBlock).own) (hb : b.Owned)
    (hempty : b.head = b.tail) (hroom : b.tail < b.blockSize)
    (hbkept : Block.Kept (q.block (q.ownerBlock + 1)) b)
    (hring : q.ownerBlock + 1 < q.thiefBlock + q.size)
    (howner : q'.ownerBlock = q.ownerBlock + 1) (hthief : q'.thiefBlock = q.thiefBlock)
    (hmask : q'.mask = q.mask)
    (hblocks : q'.blocks = ((q.setBlock q.ownerBlock g).setBlock (q.ownerBlock + 1) b).blocks) :
    PutAdvance q (some (true, q')) := by
  have hordered := h.ordered
  have hsize : q'.size = q.size := congrArg (· + 1) hmask
  have hblock : ∀ c, q'.block c = ((q.setBlock q.ownerBlock g).setBlock (q.ownerBlock + 1) b).block c :=
    block_congr hmask hblocks
  have hnew : q'.block (q.ownerBlock + 1) = b := by rw [hblock, setBlock_block]
  have hgrant : q'.block q.ownerBlock = g := by
    rw [hblock, setBlock_other (q := q.setBlock q.ownerBlock g) h.power b (by omega)
      (by simp; omega) (by simp; omega), setBlock_block]
  have hold : ∀ c, c ≠ q.ownerBlock + 1 → c ≠ q.ownerBlock → q.thiefBlock ≤ c →
      c < q.thiefBlock + q.size → q'.block c = q.block c := by
    intro c hne hne' hlo hhi
    rw [hblock, setBlock_other (q := q.setBlock q.ownerBlock g) h.power b hne (by simp; omega)
      (by simp; omega), setBlock_other h.power g hne' (by omega) (by omega)]
  have hshared : q'.shared = q.shared ++ (q.block q.ownerBlock).own := by
    rw [shared, hthief, howner, List.Ico.succ_top hordered.le, List.map_append, List.flatten_append,
      shared]
    congr 1
    · congr 1
      refine List.map_congr_left fun c hc => ?_
      obtain ⟨hlo, hhi⟩ := List.Ico.mem.mp hc
      rw [hold c (by omega) (by omega) hlo (by omega)]
    · simp [hgrant, hunclaimed]
  have hkept : Kept q q' := by
    intro i
    rw [hblocks]
    refine (setBlock_kept hgkept).trans (setBlock_kept ?_) i
    rwa [setBlock_other h.power g (by omega) (by omega) (by omega)]
  refine .advanced ⟨?_, ?_, ?_, ?_, ?_, ?_, ?_, ?_⟩ hkept ?_ ?_ howner hthief hsize
  · rw [hsize]
    exact h.power
  · rw [hblocks]
    exact setBlock_pos (setBlock_pos h.pos (Nat.zero_lt_of_lt hg.left)) (Nat.zero_lt_of_lt hroom)
  · omega
  · omega
  · rwa [howner, hnew]
  · rw [hthief]
    by_cases ht : q.thiefBlock = q.ownerBlock
    · omega
    · rw [hold _ (by omega) ht (Nat.le_refl _) (by omega)]
      exact h.first
  · intro c hlo hhi
    rw [hthief] at hlo
    rw [howner] at hhi
    by_cases hc : c = q.ownerBlock
    · rwa [hc, hgrant]
    · rw [hold c (by omega) hc (by omega) (by omega)]
      exact h.granted c hlo (by omega)
  · intro c hlo hhi
    rw [howner] at hlo
    rw [hthief, hsize] at hhi
    rw [hold c (by omega) (by omega) (by omega) hhi]
    exact h.idle c (by omega) hhi
  · rw [contents, contents, hshared, howner, hnew, Block.own_nil hempty, List.append_nil]
  · rw [howner, hnew]
    exact hroom

/-- Going on to the next block: it was idle, and the full one is granted. -/
theorem Wf.advancePutIndex {q : Queue α} (h : q.Wf)
    (hfull : (q.block q.ownerBlock).tail = (q.block q.ownerBlock).blockSize) :
    PutAdvance q q.advancePutIndex := by
  have hordered := h.ordered
  have hwindow := h.window
  unfold Queue.advancePutIndex
  simp only
  split
  next hring => exact .closed (by omega)
  next hring =>
    have hidle := h.idle (q.ownerBlock + 1) (by omega) (by omega)
    have hwritable : (q.block (q.ownerBlock + 1)).isWritable = true := by
      simpa [Block.isWritable] using hidle.closed
    obtain ⟨hgranted, hkept, hunclaimed⟩ := h.owned.grant hfull
    have hnext : (q.setBlock q.ownerBlock (q.block q.ownerBlock).grant).block (q.ownerBlock + 1) =
        q.block (q.ownerBlock + 1) := setBlock_other h.power _ (by omega) (by omega) (by omega)
    rw [if_neg (by simp [hwritable])]
    change PutAdvance q (Option.map _
      ((q.setBlock q.ownerBlock (q.block q.ownerBlock).grant).block (q.ownerBlock + 1)).reclaim)
    rw [hnext]
    cases hr : (q.block (q.ownerBlock + 1)).reclaim with
    | none => exact .waiting ⟨q.index (q.ownerBlock + 1), hidle.reclaim_none hr⟩
    | some b =>
      have hpos := h.pos (q.index (q.ownerBlock + 1))
      obtain ⟨hb, hempty, hroom, hbkept⟩ := hidle.reclaim hpos hr
      exact h.granted_advance hgranted hkept hunclaimed hb hempty hroom hbkept (by omega) rfl rfl
        rfl rfl

/-- What comes of `advance_get_index`. -/
inductive GetAdvance (q : Queue α) : Bool × Queue α → Prop where
  | advanced {q' : Queue α} (wf : q'.Wf) (kept : Kept q q') (contents : q'.contents = q.contents)
      (left : (q'.block q'.ownerBlock).head ≠ (q'.block q'.ownerBlock).tail) : GetAdvance q (true, q')
  | empty (contents : q.contents = []) : GetAdvance q (false, q)

theorem index_add_size {q : Queue α} (h : q.size.isPowerOfTwo) (c : Nat) :
    q.index (c + q.size) = q.index c := by
  rw [index_eq h, index_eq h, Nat.add_mod_right]

/-- The owner turns back to a block before its own, now `b`; the counters stay one turn
ahead of the thieves. -/
theorem Wf.taken_advance {q q' : Queue α} (h : q.Wf)
    (hempty : (q.block q.ownerBlock).head = (q.block q.ownerBlock).tail) {b : Block α} (hb : b.Owned)
    (hleft : b.head ≠ b.tail) (hbkept : Block.Kept (q.block (q.ownerBlock - 1)) b)
    (hown : b.own = (q.block (q.ownerBlock - 1)).unclaimed) (hmask : q'.mask = q.mask)
    (hblocks : q'.blocks = (q.setBlock (q.ownerBlock - 1) b).blocks)
    (hcounters : (q.thiefBlock + 1 < q.ownerBlock ∧ q'.ownerBlock = q.ownerBlock - 1 ∧
        q'.thiefBlock = q.thiefBlock) ∨
      (q.thiefBlock + 1 = q.ownerBlock ∧ q'.ownerBlock = q.ownerBlock - 1 + q.size ∧
        q'.thiefBlock = q.thiefBlock + (q.size - 1))) :
    GetAdvance q (true, q') := by
  have hordered := h.ordered
  have hwindow := h.window
  have hsize : q'.size = q.size := congrArg (· + 1) hmask
  have hblock : ∀ c, q'.block c = (q.setBlock (q.ownerBlock - 1) b).block c := block_congr hmask hblocks
  have htaken : q'.block (q.ownerBlock - 1) = b := by rw [hblock, setBlock_block]
  have hold : ∀ c, c ≠ q.ownerBlock - 1 → q.thiefBlock ≤ c → c < q.thiefBlock + q.size →
      q'.block c = q.block c := by
    intro c hne hlo hhi
    rw [hblock, setBlock_other h.power b hne (by omega) (by omega)]
  have hidle : ∀ c, q.ownerBlock - 1 < c → c < q.thiefBlock + q.size → (q'.block c).Idle := by
    intro c hlo hhi
    rw [hold c (by omega) (by omega) hhi]
    by_cases hc : c = q.ownerBlock
    · rw [hc]
      exact h.owned.idle hempty
    · exact h.idle c (by omega) hhi
  have hturn : ∀ c, q'.block (c + q.size) = q'.block c := by
    intro c
    rw [← hsize, block, index_add_size (hsize ▸ h.power)]
    rfl
  have hkept : Kept q q' := by
    intro i
    rw [hblocks]
    exact setBlock_kept hbkept i
  have hpos : ∀ i, 0 < (q'.blocks i).blockSize := by
    rw [hblocks]
    exact setBlock_pos h.pos (Nat.zero_lt_of_lt hb.room)
  have hcontents : q.contents = ((List.Ico q.thiefBlock (q.ownerBlock - 1)).map
      fun c => (q.block c).unclaimed).flatten ++ b.own := by
    have hpred : q.ownerBlock - 1 + 1 = q.ownerBlock := by omega
    have hsnoc := List.Ico.succ_top (n := q.thiefBlock) (m := q.ownerBlock - 1) (by omega)
    rw [hpred] at hsnoc
    rw [contents, shared, hsnoc, Block.own_nil hempty, hown]
    simp
  rcases hcounters with ⟨hmore, howner, hthief⟩ | ⟨hlast, howner, hthief⟩
  · refine .advanced ⟨hsize ▸ h.power, hpos, by omega, by omega, ?_, ?_, ?_, ?_⟩ hkept ?_ ?_
    · rwa [howner, htaken]
    · rw [hthief, hold _ (by omega) (Nat.le_refl _) (by omega)]
      exact h.first
    · intro c hlo hhi
      rw [hold c (by omega) (by omega) (by omega)]
      exact h.granted c (by omega) (by omega)
    · exact fun c hlo hhi => hidle c (by omega) (by omega)
    · rw [hcontents, contents, shared, hthief, howner, htaken]
      congr 2
      refine List.map_congr_left fun c hc => ?_
      obtain ⟨hlo, hhi⟩ := List.Ico.mem.mp hc
      rw [hold c (by omega) hlo (by omega)]
    · rwa [howner, htaken]
  · have hbefore : (q'.block q'.thiefBlock).Idle := by
      rw [hthief]
      exact hidle _ (by omega) (by omega)
    have hnew : q'.block q'.ownerBlock = b := by rw [howner, hturn, htaken]
    refine .advanced ⟨hsize ▸ h.power, hpos, by omega, by omega, ?_, .inr hbefore, ?_, ?_⟩ hkept ?_ ?_
    · rwa [hnew]
    · intro c hlo hhi
      omega
    · intro c hlo hhi
      have hc : c = c - q.size + q.size := by omega
      rw [hc, hturn]
      exact hidle _ (by omega) (by omega)
    · have hone : List.Ico q'.thiefBlock q'.ownerBlock = [q'.thiefBlock] := by
        have hsucc : q'.ownerBlock = q'.thiefBlock + 1 := by omega
        rw [hsucc, List.Ico.succ_singleton]
      have hnone : List.Ico q.thiefBlock (q.ownerBlock - 1) = [] :=
        List.Ico.eq_nil_of_le (by omega)
      rw [hcontents, contents, shared, hone, hnew, hnone]
      simp [hbefore.unclaimed]
    · rwa [hnew]

/-- Turning back to the block before: it is taken over if thieves have left something in it. -/
theorem Wf.advanceGetIndex {q : Queue α} (h : q.Wf)
    (hempty : (q.block q.ownerBlock).head = (q.block q.ownerBlock).tail) :
    GetAdvance q q.advanceGetIndex := by
  have hordered := h.ordered
  have hbefore : (q.block (q.ownerBlock - 1)).Granted ∨
      q.thiefBlock + 1 = q.ownerBlock ∧ (q.block (q.ownerBlock - 1)).Idle := by
    by_cases hmore : q.thiefBlock + 1 < q.ownerBlock
    · exact .inl (h.granted _ (by omega) (by omega))
    · have hlast : q.ownerBlock - 1 = q.thiefBlock := by omega
      rw [hlast]
      exact h.first.imp_right (fun hidle => ⟨by omega, hidle⟩)
  rcases hbefore with hgranted | ⟨hlast, hidle⟩
  · obtain ⟨htake, howned, hkept⟩ := hgranted.takeover
    have hne : (q.block (q.ownerBlock - 1)).stealTail ≠ (q.block (q.ownerBlock - 1)).tail := by
      have := hgranted.left
      rw [hgranted.tail]
      omega
    simp only [Queue.advanceGetIndex, htake, if_pos hne, setBlock_thiefBlock]
    split
    · exact h.taken_advance hempty howned hne hkept rfl rfl rfl (.inr ⟨by omega, rfl, rfl⟩)
    · exact h.taken_advance hempty howned hne hkept rfl rfl rfl (.inl ⟨by omega, rfl, rfl⟩)
  · have htake := hidle.takeover
    have hthief : q.ownerBlock - 1 = q.thiefBlock := by omega
    have hnone : q.contents = [] := by
      rw [hthief] at hidle
      rw [contents, shared, ← hlast, List.Ico.succ_singleton, Block.own_nil (hlast ▸ hempty)]
      simp [hidle.unclaimed]
    simp only [Queue.advanceGetIndex, htake, setBlock_self, ne_eq, not_true_eq_false, if_false]
    exact .empty hnone

theorem Wf.get {q : Queue α} (h : q.Wf)
    (hne : (q.block q.ownerBlock).head ≠ (q.block q.ownerBlock).tail) (rounds : Nat) :
    ∃ r q', popBackLoop (rounds + 1) q = some (r, q') ∧ q'.Wf ∧ Kept q q' ∧
      q.contents = q'.contents ++ [r] := by
  obtain ⟨hget, howned, hkept, hown⟩ := h.owned.get hne
  obtain ⟨hwf, hshared⟩ := h.setOwned howned (h.pos _)
  refine ⟨(q.block q.ownerBlock).ringBuffer ((q.block q.ownerBlock).tail - 1), _, ?_, hwf,
    setBlock_kept hkept, ?_⟩
  · simp only [popBackLoop, hget]
  · rw [contents, contents, hshared, setBlock_ownerBlock, setBlock_block, hown, List.append_assoc]

/-- `pop_back` takes the newest element, and nothing only from an empty queue. -/
theorem Wf.popBack {q : Queue α} (h : q.Wf) :
    ∃ r q', q.popBack = some (r, q') ∧ q'.Wf ∧ Kept q q' ∧
      (q.contents = q'.contents ++ [r] ∨ q' = q ∧ q.contents = [] ∧ r = none) := by
  by_cases hempty : (q.block q.ownerBlock).head = (q.block q.ownerBlock).tail
  · have hget := h.owned.get_empty hempty
    have hloop : q.popBack = if q.advanceGetIndex.1 then popBackLoop 1 q.advanceGetIndex.2
        else some (none, q.advanceGetIndex.2) := by
      simp only [Queue.popBack, popBackLoop, hget, setBlock_self]
    cases hadv : q.advanceGetIndex with
    | mk more q' =>
      have hspec := h.advanceGetIndex hempty
      rw [hadv] at hloop hspec
      cases hspec with
      | advanced hwf hkept hcontents hleft =>
        obtain ⟨r, q'', hr, hwf', hkept', hcontents'⟩ := hwf.get hleft 0
        refine ⟨r, q'', ?_, hwf', hkept.trans hkept', .inl ?_⟩
        · rw [hloop, if_pos rfl, hr]
        · rw [← hcontents, hcontents']
      | empty hcontents =>
        exact ⟨none, q, hloop, h, .refl q, .inr ⟨rfl, hcontents, rfl⟩⟩
  · obtain ⟨r, q', hr, hwf, hkept, hcontents⟩ := h.get hempty 1
    exact ⟨r, q', hr, hwf, hkept, .inl hcontents⟩

/-- Without a free block the owner's block and all slots up to the thieves' block are in use. -/
def Full (q : Queue α) : Prop :=
  (q.block q.ownerBlock).tail = (q.block q.ownerBlock).blockSize ∧
    q.ownerBlock + 1 = q.thiefBlock + q.size

theorem Wf.put {q : Queue α} (h : q.Wf)
    (ht : (q.block q.ownerBlock).tail < (q.block q.ownerBlock).blockSize) (rounds : Nat) (value : α) :
    ∃ q', pushBackLoop (rounds + 1) q value = some (true, q') ∧ q'.Wf ∧ Kept q q' ∧
      q'.contents = q.contents ++ [some value] := by
  obtain ⟨howned, hkept, hown⟩ := h.owned.putAt ht value
  obtain ⟨hwf, hshared⟩ := h.setOwned howned (h.pos _)
  have hput : (q.block q.ownerBlock).put value =
      (.success, (q.block q.ownerBlock).putAt value) := if_pos ht
  refine ⟨q.setBlock q.ownerBlock ((q.block q.ownerBlock).putAt value), ?_, hwf,
    setBlock_kept hkept, ?_⟩
  · simp only [pushBackLoop, hput]
  · rw [contents, contents, hshared, setBlock_ownerBlock, setBlock_block, hown, List.append_assoc]

/-- What comes of `push_back`. -/
inductive Pushed (q : Queue α) (value : α) : Option (Bool × Queue α) → Prop where
  | pushed {q' : Queue α} (wf : q'.Wf) (kept : Kept q q')
      (contents : q'.contents = q.contents ++ [some value]) : Pushed q value (some (true, q'))
  | full (full : q.Full) : Pushed q value (some (false, q))
  | waiting (unread : q.Unread) : Pushed q value none

theorem Wf.pushBack {q : Queue α} (h : q.Wf) (value : α) : Pushed q value (q.pushBack value) := by
  by_cases ht : (q.block q.ownerBlock).tail < (q.block q.ownerBlock).blockSize
  · obtain ⟨q', hq', hwf, hkept, hcontents⟩ := h.put ht 1 value
    rw [Queue.pushBack, hq']
    exact .pushed hwf hkept hcontents
  · have htail := Nat.le_antisymm h.owned.fits (Nat.not_lt.mp ht)
    have hput : (q.block q.ownerBlock).put value = (.full, q.block q.ownerBlock) := if_neg ht
    have hloop : q.pushBack value = q.advancePutIndex.bind fun (more, q) =>
        if more then pushBackLoop 1 q value else some (false, q) := by
      simp only [Queue.pushBack, pushBackLoop, hput, setBlock_self]
    rw [hloop]
    have hadv := h.advancePutIndex htail
    generalize q.advancePutIndex = r at hadv
    cases hadv with
    | advanced hwf hkept hcontents hroom =>
      obtain ⟨q'', hq'', hwf', hkept', hcontents'⟩ := hwf.put hroom 0 value
      simp only [Option.bind_some, if_true, hq'']
      exact .pushed hwf' (hkept.trans hkept') (hcontents ▸ hcontents')
    | closed hfull => exact .full ⟨htail, hfull⟩
    | waiting hunread => exact .waiting hunread

/-- The owner can get from its block. -/
def Ready (q : Queue α) : Prop := (q.block q.ownerBlock).own ≠ []

/-- What comes of `push_back` of a range. -/
inductive PushedAll (q : Queue α) (values : List α) : Option (List α × Queue α) → Prop where
  | pushed {rest : List α} {q' : Queue α} (taken : List α) (split : values = taken ++ rest)
      (wf : q'.Wf) (kept : Kept q q') (contents : q'.contents = q.contents ++ taken.map some)
      (full : rest ≠ [] → q'.Full) (ready : values ≠ [] → q'.Ready) :
      PushedAll q values (some (rest, q'))
  | waiting (unread : q.Unread) : PushedAll q values none

theorem Kept.unread {q q' : Queue α} (h : Kept q q') (hu : q'.Unread) : q.Unread := by
  obtain ⟨i, hi⟩ := hu
  refine ⟨i, ?_⟩
  cases h i with
  | same hclaimed hreads _ => rwa [← hclaimed, ← hreads]
  | reset _ hclaimed hreads => exact absurd (hreads.trans hclaimed.symm) hi

theorem Wf.pushAllLoop {q : Queue α} (h : q.Wf) {rounds : Nat} (values : List α)
    (hr : q.thiefBlock + q.size ≤ q.ownerBlock + rounds) :
    PushedAll q values (pushAllLoop rounds q values) := by
  induction rounds generalizing q values with
  | zero =>
    have := h.window
    omega
  | succ rounds ih =>
    obtain ⟨howned, hkept, taken, hsplit, hown, hfull⟩ := h.owned.bulkPut values
    have hsize : 0 < ((q.block q.ownerBlock).bulkPut values).2.blockSize := Nat.zero_lt_of_lt howned.room
    obtain ⟨hwf, hshared⟩ := h.setOwned howned hsize
    generalize hb : (q.block q.ownerBlock).bulkPut values = r at *
    obtain ⟨rest, b⟩ := r
    simp only at howned hkept hsplit hown hfull hwf hshared
    have hqkept : Kept q (q.setBlock q.ownerBlock b) := setBlock_kept hkept
    have hcontents : (q.setBlock q.ownerBlock b).contents = q.contents ++ taken.map some := by
      rw [contents, contents, hshared, setBlock_ownerBlock, setBlock_block, hown, List.append_assoc]
    simp only [Queue.pushAllLoop, hb]
    by_cases hrest : rest = []
    · subst hrest
      refine .pushed taken hsplit hwf hqkept hcontents (by simp) fun hne => ?_
      rw [List.append_nil] at hsplit
      subst hsplit
      simp only [Ready, setBlock_ownerBlock, setBlock_block, hown]
      simpa using fun _ => hne
    · have htail : ((q.setBlock q.ownerBlock b).block q.ownerBlock).tail =
          ((q.setBlock q.ownerBlock b).block q.ownerBlock).blockSize := by
        rw [setBlock_block]
        exact hfull hrest
      simp only [List.isEmpty_iff, hrest, if_false]
      have hadv := hwf.advancePutIndex htail
      generalize (q.setBlock q.ownerBlock b).advancePutIndex = r at hadv
      cases hadv with
      | advanced hwf' hkept' hcontents' hroom howner hthief hsize' =>
        simp only [Option.bind_some, if_true]
        have hloop := ih hwf' rest (by rw [hthief, hsize', howner]; simp; omega)
        generalize Queue.pushAllLoop rounds _ rest = r at hloop
        cases hloop with
        | pushed taken' hsplit' hwf'' hkept'' hcontents'' hfull' hready' =>
          refine .pushed (taken ++ taken') ?_ hwf'' ((hqkept.trans hkept').trans hkept'') ?_ hfull'
            fun _ => hready' hrest
          · rw [hsplit, hsplit', List.append_assoc]
          · rw [hcontents'', hcontents', hcontents, List.map_append, List.append_assoc]
        | waiting hunread => exact .waiting ((hqkept.trans hkept').unread hunread)
      | closed hclosed =>
        simp only [Option.bind_some]
        refine .pushed taken hsplit hwf hqkept hcontents (fun _ => ⟨htail, hclosed⟩) fun _ => ?_
        refine Block.own_ne_nil ?_
        rw [setBlock_ownerBlock, htail, setBlock_block]
        exact howned.room
      | waiting hunread => exact .waiting (hqkept.unread hunread)

theorem Wf.pushAll {q : Queue α} (h : q.Wf) (values : List α) :
    PushedAll q values (q.pushAll values) := by
  have := h.ordered
  exact h.pushAllLoop values (by omega)

/-- A thief has claimed a slot of block `i`: the oldest element, which stays where it is
until it has been read. -/
structure Claimed (q : Queue α) (i : Nat) (q' : Queue α) : Prop where
  wf : q'.Wf
  front : q.contents = (q.blocks i).ringBuffer (q.blocks i).claimed :: q'.contents
  others : ∀ j, j ≠ i → q'.blocks j = q.blocks j
  slot : (q'.blocks i).claimed = (q.blocks i).claimed + 1
  reads : (q'.blocks i).stealHead = (q.blocks i).stealHead
  ring : (q'.blocks i).ringBuffer = (q.blocks i).ringBuffer
  owner : q'.block q'.ownerBlock = q.block q.ownerBlock

/-- What comes of `steal_front`; there is nothing when all elements are in the owner's block. -/
inductive Stolen (q : Queue α) : Option (Nat × Nat) × Queue α → Prop where
  | claimed {i : Nat} {q' : Queue α} (claim : Claimed q i q') :
      Stolen q (some (i, (q.blocks i).claimed), q')
  | nothing (shared : q.shared = []) : Stolen q (none, q)

/-- Putting another block in the place of the one the thieves are at. -/
theorem Wf.setFirst {q : Queue α} (h : q.Wf) {b : Block α} (hb : b.Granted ∨ b.Idle)
    (hpos : 0 < b.blockSize) : (q.setBlock q.thiefBlock b).Wf ∧
    (q.setBlock q.thiefBlock b).contents = b.unclaimed ++
      ((List.Ico (q.thiefBlock + 1) q.ownerBlock).map fun c => (q.block c).unclaimed).flatten ++
      (q.block q.ownerBlock).own := by
  have hordered := h.ordered
  have hwindow := h.window
  have hother : ∀ c, q.thiefBlock < c → c < q.thiefBlock + q.size →
      (q.setBlock q.thiefBlock b).block c = q.block c := by
    intro c hlo hhi
    exact setBlock_other h.power b (by omega) (by omega) (by omega)
  refine ⟨⟨h.power, setBlock_pos h.pos hpos, h.ordered, h.window, ?_, ?_, ?_, ?_⟩, ?_⟩
  · rw [setBlock_ownerBlock, hother _ hordered hwindow]
    exact h.owned
  · simpa using hb
  · intro c hlo hhi
    simp only [setBlock_thiefBlock, setBlock_ownerBlock] at hlo hhi
    rw [hother c hlo (by omega)]
    exact h.granted c hlo hhi
  · intro c hlo hhi
    simp only [setBlock_thiefBlock, setBlock_ownerBlock, setBlock_size] at hlo hhi
    rw [hother c (by omega) hhi]
    exact h.idle c hlo hhi
  · rw [contents, shared, setBlock_thiefBlock, setBlock_ownerBlock, hother _ hordered hwindow,
      List.Ico.eq_cons hordered, List.map_cons, List.flatten_cons, setBlock_block]
    congr 3
    refine List.map_congr_left fun c hc => ?_
    obtain ⟨hlo, hhi⟩ := List.Ico.mem.mp hc
    rw [hother c (by omega) (by omega)]

theorem Wf.claim {q : Queue α} (h : q.Wf) (hg : (q.block q.thiefBlock).Granted) (rounds : Nat) :
    ∃ i q', stealFrontLoop (rounds + 1) q = some (some (i, (q.blocks i).claimed), q') ∧
      Claimed q i q' := by
  obtain ⟨hclaim, hnext, hclaimed, hfront⟩ := hg.claim
  obtain ⟨hwf, hcontents⟩ := h.setFirst hnext (h.pos (q.index q.thiefBlock))
  obtain ⟨-, hsame⟩ := h.setFirst (.inl hg) (h.pos (q.index q.thiefBlock))
  rw [setBlock_self, hfront] at hsame
  have hblock : (q.setBlock q.thiefBlock (q.block q.thiefBlock).claimFront).blocks
      (q.index q.thiefBlock) = (q.block q.thiefBlock).claimFront := Function.update_self _ _ _
  refine ⟨q.index q.thiefBlock, q.setBlock q.thiefBlock (q.block q.thiefBlock).claimFront, ?_,
    hwf, ?_, ?_, ?_, ?_, ?_, ?_⟩
  · simp only [stealFrontLoop, hclaim, setBlock_index]
    rfl
  · rw [hcontents]
    exact hsame
  · exact fun j hj => Function.update_of_ne hj _ _
  · rw [hblock]
    exact hclaimed
  · rw [hblock]
    rfl
  · rw [hblock]
    rfl
  · have hordered := h.ordered
    have hwindow := h.window
    rw [setBlock_ownerBlock]
    exact setBlock_other h.power _ (by omega) (by omega) (by omega)

/-- Going on from an emptied block. -/
theorem Wf.nextThief {q : Queue α} (h : q.Wf) (hidle : (q.block q.thiefBlock).Idle)
    (hmore : q.thiefBlock + 1 < q.ownerBlock) :
    ({ q with thiefBlock := q.thiefBlock + 1 } : Queue α).Wf ∧
    ({ q with thiefBlock := q.thiefBlock + 1 } : Queue α).contents = q.contents := by
  have hordered := h.ordered
  have hwindow := h.window
  refine ⟨⟨h.power, h.pos, hmore, ?_, h.owned, .inl (h.granted _ (Nat.lt_succ_self _) hmore), ?_, ?_⟩, ?_⟩
  · exact hwindow.trans (by simp [size])
  · exact fun c hlo hhi => h.granted c (by simp only at hlo; omega) hhi
  · intro c hlo hhi
    by_cases hc : c < q.thiefBlock + q.size
    · exact h.idle c hlo hc
    · have hturn : c = q.thiefBlock + q.size := by
        have : c < q.thiefBlock + 1 + q.size := hhi
        omega
      have hblock : q.block c = q.block q.thiefBlock := by
        rw [block, hturn, index_add_size h.power]
        rfl
      change (q.block c).Idle
      rwa [hblock]
  · change ((List.Ico (q.thiefBlock + 1) q.ownerBlock).map fun c => (q.block c).unclaimed).flatten ++ _ = _
    rw [contents, shared, List.Ico.eq_cons hordered, List.map_cons, List.flatten_cons,
      hidle.unclaimed, List.nil_append]
    rfl

/-- `steal_front` claims the oldest element. -/
theorem Wf.stealFront {q : Queue α} (h : q.Wf) : ∃ r, q.stealFront = some r ∧ Stolen q r := by
  have hordered := h.ordered
  rcases h.first with hg | hidle
  · obtain ⟨i, q', hq', hclaim⟩ := h.claim hg 1
    exact ⟨_, hq', .claimed hclaim⟩
  · have hclaim := hidle.claim
    have hloop : q.stealFront = if (q.advanceStealIndex q.thiefBlock).1 then
        stealFrontLoop 1 (q.advanceStealIndex q.thiefBlock).2 else
        some (none, (q.advanceStealIndex q.thiefBlock).2) := by
      simp only [Queue.stealFront, stealFrontLoop, hclaim, setBlock_self]
    rw [hloop]
    by_cases hmore : q.thiefBlock + 1 < q.ownerBlock
    · have hg := h.granted _ (Nat.lt_succ_self _) hmore
      have hstealable : (q.block (q.thiefBlock + 1)).isStealable = true := by
        simpa [Block.isStealable] using Nat.ne_of_lt hg.left
      obtain ⟨hwf, hcontents⟩ := h.nextThief hidle hmore
      obtain ⟨i, q', hq', hwf', hfront, hothers, hslot, hreads, hring, howner⟩ := hwf.claim hg 0
      refine ⟨(some (i, (q.blocks i).claimed), q'), ?_,
        .claimed ⟨hwf', ?_, hothers, hslot, hreads, hring, howner⟩⟩
      · simp only [advanceStealIndex, hstealable, if_true]
        exact hq'
      · rw [← hcontents]
        exact hfront
    · have hlast : q.thiefBlock + 1 = q.ownerBlock := by omega
      have hclosed : (q.block (q.thiefBlock + 1)).isStealable = false := by
        rw [hlast]
        simpa [Block.isStealable] using h.owned.closed
      refine ⟨(none, q), ?_, .nothing ?_⟩
      · simp [advanceStealIndex, hclosed]
      · rw [shared, ← hlast, List.Ico.succ_singleton]
        simp [hidle.unclaimed]

/-- Reading a slot only counts the read. -/
theorem Wf.readSlot {q : Queue α} (h : q.Wf) (slot : Nat × Nat) :
    (q.readSlot slot).2.Wf ∧ (q.readSlot slot).2.contents = q.contents ∧
    ∀ i, ((q.readSlot slot).2.blocks i).claimed = (q.blocks i).claimed ∧
      ((q.readSlot slot).2.blocks i).ringBuffer = (q.blocks i).ringBuffer ∧
      ((q.readSlot slot).2.blocks i).stealHead =
        (q.blocks i).stealHead + if slot.1 = i then 1 else 0 := by
  have hblock : ∀ i, (q.readSlot slot).2.blocks i =
      { q.blocks i with stealHead := (q.blocks i).stealHead + if slot.1 = i then 1 else 0 } := by
    intro i
    by_cases hi : slot.1 = i
    · subst hi
      simp [Queue.readSlot, Block.read]
    · simp [Queue.readSlot, Block.read, hi, Function.update_of_ne (Ne.symm hi)]
  have hb : ∀ c, (q.readSlot slot).2.block c = { q.block c with
      stealHead := (q.block c).stealHead + if slot.1 = q.index c then 1 else 0 } :=
    fun c => hblock (q.index c)
  refine ⟨⟨h.power, fun i => ?_, h.ordered, h.window, ?_, ?_, fun c hlo hhi => ?_,
    fun c hlo hhi => ?_⟩, ?_, fun i => ?_⟩
  · rw [hblock]
    exact h.pos i
  · change ((q.readSlot slot).2.block q.ownerBlock).Owned
    rw [hb]
    exact ⟨h.owned.closed, h.owned.le, h.owned.fits, h.owned.room⟩
  · change ((q.readSlot slot).2.block q.thiefBlock).Granted ∨
      ((q.readSlot slot).2.block q.thiefBlock).Idle
    rw [hb]
    exact h.first.imp (fun hg => ⟨hg.head, hg.tail, hg.left⟩)
      fun hi => ⟨hi.closed, hi.empty, hi.fits⟩
  · have hg := h.granted c hlo hhi
    rw [hb]
    exact ⟨hg.head, hg.tail, hg.left⟩
  · have hi := h.idle c hlo hhi
    rw [hb]
    exact ⟨hi.closed, hi.empty, hi.fits⟩
  · change ((List.Ico q.thiefBlock q.ownerBlock).map fun c =>
      ((q.readSlot slot).2.block c).unclaimed).flatten ++
      ((q.readSlot slot).2.block q.ownerBlock).own = _
    simp only [hb]
    rfl
  · rw [hblock]
    exact ⟨rfl, rfl, rfl⟩

theorem readSlot_own (q : Queue α) (slot : Nat × Nat) :
    ((q.readSlot slot).2.block (q.readSlot slot).2.ownerBlock).own =
      (q.block q.ownerBlock).own := by
  change ((q.readSlot slot).2.blocks (q.index q.ownerBlock)).own = _
  by_cases hi : q.index q.ownerBlock = slot.1
  · simp [Queue.readSlot, Block.read, block, Block.own, Block.slice, hi]
  · simp [Queue.readSlot, block, hi]

end Queue

end LifoQueue
