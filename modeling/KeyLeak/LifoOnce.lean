import Mathlib.Tactic.Abel
import KeyLeak.LifoSteps

/-!
# What goes in comes out once

Whatever way the accesses of the owner and the thieves interleave, a block is the owner's, or it is
granted and its slots are claimed one by one, or it is idle. So everything that has been pushed has
come out once, has been refused, is in the hands of one thread, or is in one slot.
-/
namespace LifoSteps

open Runs
open LifoQueue (Block)
open LifoQueue.Block

variable {ι α : Type} {k n : Nat} {s s' : State ι α k}

theorem index_val (hk : k < 63) (c : UInt64) : (index k c : Nat) = c.toNat % size k := by
  change (c &&& mask k).toNat = _
  rw [UInt64.toNat_and, mask_toNat hk]
  exact Nat.and_two_pow_sub_one_eq_mod _ _

theorem size_dvd (hk : k < 63) : size k ∣ 2 ^ 64 := Nat.pow_dvd_pow 2 (by omega)

theorem index_succ_ne (hk : k < 63) (c : UInt64) : index k (c + 1) ≠ index k c := by
  intro heq
  have hval := congrArg Fin.val heq
  rw [index_val hk, index_val hk, UInt64.toNat_add, Nat.mod_mod_of_dvd _ (size_dvd hk)] at hval
  have htwo : 2 ∣ size k := ⟨2 ^ k, by rw [size, Nat.pow_succ, Nat.mul_comm]⟩
  have hparity : (c.toNat + 1) % 2 = c.toNat % 2 := by
    rw [← Nat.mod_mod_of_dvd _ htwo, ← Nat.mod_mod_of_dvd c.toNat htwo]
    exact congrArg (· % 2) hval
  omega

theorem index_pred_ne (hk : k < 63) (c : UInt64) : index k (c - 1) ≠ index k c := by
  have hne := index_succ_ne hk (c - 1)
  rw [UInt64.sub_add_cancel] at hne
  exact hne.symm

theorem index_add_size (hk : k < 63) (c : UInt64) :
    index k (c + UInt64.ofNat (size k)) = index k c := by
  apply Fin.ext
  rw [index_val hk, index_val hk, UInt64.toNat_add, size_toNat hk,
    Nat.mod_mod_of_dvd _ (size_dvd hk), Nat.add_mod_right]

@[simp] theorem setBlock_blocks (c : UInt64) (b : Block α) :
    (s.setBlock c b).blocks = Function.update s.blocks (index k c) b := rfl

theorem setBlock_self (c : UInt64) : s.setBlock c (s.block c) = s := by
  rw [State.setBlock, State.block, Function.update_eq_self]

/-- The block the owner works on. -/
def State.current (s : State ι α k) : Fin (size k) :=
  match s.owner with
  | .adopting | .shifting _ => index k (s.ownerBlock - 1)
  | _ => index k s.ownerBlock

/-- What the owner knows of it. -/
def Owner.Works : Owner α → Block α → Prop
  | .takingOver, b => b.Owned ∧ b.head = b.tail
  | .advancing _, b | .checking _, b | .granting _, b => b.Owned ∧ b.tail = b.blockSize
  | .reclaiming _, b => b.Idle
  | .clearingTail _, b => b.Idle ∧ b.stealHead = b.tail
  | .clearingStealTail _, b | .clearingStealHead _, b => b.Owned ∧ b.tail = 0
  | _, b => b.Owned

/-- The values that `push_back` has still to put. -/
def Owner.pending : Owner α → List α
  | .putting values | .advancing values | .checking values | .granting values
  | .reclaiming values | .clearingTail values | .clearingStealTail values
  | .clearingStealHead values => values
  | _ => []

/-- `steal_head_` is about to be reset. -/
def Owner.resets : Owner α → Bool
  | .clearingStealTail _ | .clearingStealHead _ => true
  | _ => false

structure Placed (n : Nat) (s : State ι α k) : Prop where
  size : ∀ i, (s.blocks i).blockSize = n
  works : s.owner.Works (s.blocks s.current)
  others : ∀ i, i ≠ s.current → (s.blocks i).Granted ∨ (s.blocks i).Idle
  next : ∀ values, s.owner = .granting values → (s.block (s.ownerBlock + 1)).Idle

/-- A block with the count of its reads as it will be. -/
def State.seen (s : State ι α k) (i : Fin (size k)) : Block α :=
  if s.owner.resets ∧ i = s.current then { s.blocks i with stealHead := 0 } else s.blocks i

/-- The block of which a thief has claimed a slot and not counted its read. -/
def Thief.claimed (k : Nat) : Thief α → Option (Fin (size k))
  | .reading thief _ | .counting thief _ => some (index k thief)
  | _ => none

/-- What a thief has claimed. -/
def State.hand (s : State ι α k) : Thief α → Multiset (Option α)
  | .reading thief spos => {(s.block thief).ringBuffer spos}
  | .counting _ value => {value}
  | _ => 0

/-- What a thief knows of the block it works on. -/
def State.Fits (s : State ι α k) : Thief α → Prop
  | .checking thief spos | .claiming thief spos => spos < (s.block thief).blockSize
  | .reading thief spos => spos < (s.block thief).claimed
  | _ => True

/-- What a block holds. -/
def held (b : Block α) : Multiset (Option α) := b.slice b.claimed b.tail

/-- What has left the blocks, or has not come in, without a thief. -/
def State.outside (s : State ι α k) : Multiset (Option α) :=
  s.taken + (s.refused ++ s.owner.pending).map some

theorem held_owned {b : Block α} (h : b.Owned) : held b = b.own := by
  rw [held, h.claimed]
  rfl

theorem held_granted {b : Block α} (h : b.Granted) : held b = b.unclaimed := by
  rw [held, h.claimed]
  rfl

theorem held_idle {b : Block α} (h : b.Idle) : held b = 0 := by
  rw [held, h.claimed, slice, List.Ico.self_empty]
  rfl

theorem bulkPut_blockSize (b : Block α) (values : List α) :
    (b.bulkPut values).2.blockSize = b.blockSize := by
  induction values generalizing b with
  | nil => rfl
  | cons value rest ih =>
    by_cases ht : b.tail < b.blockSize
    · have heq : b.bulkPut (value :: rest) = (b.putAt value).bulkPut rest := if_pos ht
      rw [heq, ih]
      rfl
    · have heq : b.bulkPut (value :: rest) = (value :: rest, b) := if_neg ht
      rw [heq]

/-- What a step of the owner does. -/
structure OwnerMove (n : Nat) (s s' : State ι α k) : Prop where
  thief : s'.thief = s.thief
  placed : Placed n s'
  kept : ∀ i, Kept (s.seen i) (s'.seen i)
  balance : s'.outside + ∑ i, held (s'.blocks i) = s.outside + ∑ i, held (s.blocks i)

theorem seen_eq (h : s.owner.resets = false) (i : Fin (size k)) : s.seen i = s.blocks i := by
  simp [State.seen, h]

theorem seen_reset (h : s.owner.resets = true) :
    s.seen s.current = { s.blocks s.current with stealHead := 0 } := if_pos ⟨h, rfl⟩

theorem seen_other {i : Fin (size k)} (h : i ≠ s.current) : s.seen i = s.blocks i :=
  if_neg fun hi => h hi.2

theorem OwnerMove.same (hthief : s'.thief = s.thief) (hblocks : s'.blocks = s.blocks)
    (hr : s.owner.resets = false) (hr' : s'.owner.resets = false) (hp : Placed n s')
    (hout : s'.outside = s.outside) : OwnerMove n s s' where
  thief := hthief
  placed := hp
  kept i := by
    rw [seen_eq hr, seen_eq hr', hblocks]
    exact Kept.refl _
  balance := by rw [hout, hblocks]

theorem OwnerMove.update {j : Fin (size k)} {b : Block α} (hthief : s'.thief = s.thief)
    (hblocks : s'.blocks = Function.update s.blocks j b) (hr : s.owner.resets = false)
    (hr' : s'.owner.resets = false) (hp : Placed n s') (hkept : Kept (s.blocks j) b)
    (hout : s'.outside + held b = s.outside + held (s.blocks j)) : OwnerMove n s s' where
  thief := hthief
  placed := hp
  kept i := by
    rw [seen_eq hr, seen_eq hr', hblocks]
    by_cases hi : i = j
    · rw [hi, Function.update_self]
      exact hkept
    · rw [Function.update_of_ne hi]
      exact Kept.refl _
  balance := by
    have hsum := Workers.sum_update held s.blocks j b
    rw [hblocks]
    apply add_right_cancel (b := held (s.blocks j))
    calc s'.outside + ∑ i, held (Function.update s.blocks j b i) + held (s.blocks j)
        = s'.outside + (∑ i, held (s.blocks i) + held b) := by rw [add_assoc, hsum]
      _ = (s'.outside + held b) + ∑ i, held (s.blocks i) := by
        rw [add_comm _ (held b), add_assoc]
      _ = s.outside + ∑ i, held (s.blocks i) + held (s.blocks j) := by
        rw [hout, add_right_comm]

theorem Placed.phase (hp : Placed n s) (hblocks : s'.blocks = s.blocks)
    (hcur : s'.current = s.current) (hworks : s'.owner.Works (s.blocks s.current))
    (hnext : ∀ values, s'.owner = .granting values → (s'.block (s'.ownerBlock + 1)).Idle) :
    Placed n s' where
  size i := hblocks ▸ hp.size i
  works := by
    rw [hblocks, hcur]
    exact hworks
  others i hi := by
    rw [hblocks]
    exact hp.others i (hcur ▸ hi)
  next := hnext

/-- A change of the block the owner works on and stays on. -/
theorem Placed.change (hp : Placed n s) {b : Block α}
    (hblocks : s'.blocks = Function.update s.blocks s.current b)
    (hcur : s'.current = s.current) (hsize : b.blockSize = (s.blocks s.current).blockSize)
    (hworks : s'.owner.Works b) (hnext : ∀ values, s'.owner ≠ .granting values) : Placed n s' where
  size i := by
    rw [hblocks]
    by_cases hi : i = s.current
    · rw [hi, Function.update_self, hsize]
      exact hp.size _
    · rw [Function.update_of_ne hi]
      exact hp.size i
  works := by
    rw [hblocks, hcur, Function.update_self]
    exact hworks
  others i hi := by
    rw [hcur] at hi
    rw [hblocks, Function.update_of_ne hi]
    exact hp.others i hi
  next values h := absurd h (hnext values)

section Owner

variable (hk : k < 63) (hp : Placed n s) {values : List α}
include hp

theorem move_getting (ho : s.owner = .getting) (h : ownerStep s = some s') : OwnerMove n s s' := by
  have hcur : s.current = index k s.ownerBlock := by rw [State.current, ho]
  have howned : (s.block s.ownerBlock).Owned := by
    have hworks := hp.works
    rw [ho, hcur] at hworks
    exact hworks
  simp only [ownerStep, ho] at h
  by_cases hempty : (s.block s.ownerBlock).head = (s.block s.ownerBlock).tail
  · rw [howned.get_empty hempty] at h
    simp only [setBlock_self] at h
    cases h
    refine .same rfl rfl (by rw [ho]; rfl) rfl (hp.phase rfl ?_ ?_ nofun) ?_
    · rw [hcur]
      rfl
    · rw [hcur]
      exact ⟨howned, hempty⟩
    · simp [State.outside, ho, Owner.pending]
  · obtain ⟨hget, howned', hkept, hown⟩ := howned.get hempty
    rw [hget] at h
    cases h
    refine .update rfl rfl (by rw [ho]; rfl) rfl (hp.change (hcur ▸ rfl) ?_ ?_ howned' nofun)
      hkept ?_
    · rw [hcur]
      rfl
    · rw [hcur]
      rfl
    · change _ = _ + held (s.block s.ownerBlock)
      rw [held_owned howned', held_owned howned, hown]
      simp only [State.outside, State.setBlock, ho, Owner.pending, ← Multiset.coe_add]
      abel

theorem move_adopting (ho : s.owner = .adopting) (h : ownerStep s = some s') :
    OwnerMove n s s' := by
  have hcur : s.current = index k (s.ownerBlock - 1) := by rw [State.current, ho]
  have howned := hp.works
  rw [ho] at howned
  simp only [ownerStep, ho] at h
  split at h <;> cases h <;>
  · refine .same rfl rfl (by rw [ho]; rfl) rfl (hp.phase rfl hcur.symm howned nofun) ?_
    simp [State.outside, ho, Owner.pending]

theorem move_advancing (ho : s.owner = .advancing values) (h : ownerStep s = some s') :
    OwnerMove n s s' := by
  have hcur : s.current = index k s.ownerBlock := by rw [State.current, ho]
  have hworks := hp.works
  rw [ho] at hworks
  simp only [ownerStep, ho] at h
  split at h <;> cases h
  · refine .same rfl rfl (by rw [ho]; rfl) rfl (hp.phase rfl hcur.symm hworks.1 nofun) ?_
    simp [State.outside, ho, Owner.pending]
  · refine .same rfl rfl (by rw [ho]; rfl) rfl (hp.phase rfl hcur.symm hworks nofun) ?_
    simp [State.outside, ho, Owner.pending]

theorem move_reclaiming (ho : s.owner = .reclaiming values) (h : ownerStep s = some s') :
    OwnerMove n s s' := by
  have hcur : s.current = index k s.ownerBlock := by rw [State.current, ho]
  have hworks := hp.works
  rw [ho] at hworks
  simp only [ownerStep, ho] at h
  split at h
  next hread =>
    cases h
    refine .same rfl rfl (by rw [ho]; rfl) rfl (hp.phase rfl hcur.symm ⟨hworks, ?_⟩ nofun) ?_
    · rw [hcur]
      exact hread
    · simp [State.outside, ho, Owner.pending]
  next => cases h

theorem move_putting (ho : s.owner = .putting values) (h : ownerStep s = some s') :
    OwnerMove n s s' := by
  have hcur : s.current = index k s.ownerBlock := by rw [State.current, ho]
  have howned : (s.block s.ownerBlock).Owned := by
    have hworks := hp.works
    rw [ho, hcur] at hworks
    exact hworks
  obtain ⟨howned', hkept, put, hvalues, hown, hfull⟩ := howned.bulkPut values
  have hsize := bulkPut_blockSize (s.block s.ownerBlock) values
  simp only [ownerStep, ho] at h
  generalize (s.block s.ownerBlock).bulkPut values = r
    at h howned' hkept hvalues hown hfull hsize
  obtain ⟨rest, b⟩ := r
  cases h
  have hheld : held b = held (s.block s.ownerBlock) + put.map some := by
    rw [held_owned howned', held_owned howned, hown]
    exact (Multiset.coe_add _ _).symm
  cases rest with
  | nil =>
    refine .update rfl rfl (by rw [ho]; rfl) rfl
      (hp.change (by rw [hcur]; rfl) hcur.symm (by rw [hcur]; exact hsize) howned' nofun) hkept ?_
    change _ = _ + held (s.block s.ownerBlock)
    rw [hheld]
    simp only [State.outside, State.setBlock, ho, Owner.pending, hvalues, List.map_append,
      ← Multiset.coe_add, List.isEmpty_nil, if_true]
    abel
  | cons value rest =>
    refine .update rfl rfl (by rw [ho]; rfl) rfl (hp.change (by rw [hcur]; rfl) hcur.symm
      (by rw [hcur]; exact hsize) ⟨howned', hfull (by simp)⟩ nofun) hkept ?_
    change _ = _ + held (s.block s.ownerBlock)
    rw [hheld]
    simp only [State.outside, State.setBlock, ho, Owner.pending, hvalues, List.map_append,
      ← Multiset.coe_add, List.isEmpty_cons, Bool.false_eq_true, if_false]
    abel

theorem move_clearingTail (hn : 0 < n) (ho : s.owner = .clearingTail values)
    (h : ownerStep s = some s') : OwnerMove n s s' := by
  have hcur : s.current = index k s.ownerBlock := by rw [State.current, ho]
  have hworks := hp.works
  rw [ho, hcur] at hworks
  obtain ⟨hidle, hread⟩ := hworks
  simp only [ownerStep, ho] at h
  cases h
  have hsize : 0 < (s.block s.ownerBlock).blockSize := by
    rw [State.block, hp.size]
    exact hn
  have howned : ({ s.block s.ownerBlock with head := 0, tail := 0 } : Block α).Owned :=
    ⟨hidle.closed, Nat.le_refl _, Nat.zero_le _, hsize⟩
  have hclear : ({ s.block s.ownerBlock with head := 0, tail := 0, stealHead := 0 } :
      Block α).Owned := ⟨hidle.closed, Nat.le_refl _, Nat.zero_le _, hsize⟩
  refine ⟨rfl, hp.change (by rw [hcur]; rfl) hcur.symm (by rw [hcur]; rfl) ⟨howned, rfl⟩ nofun,
    fun i => ?_, ?_⟩
  · rw [seen_eq (by rw [ho]; rfl)]
    by_cases hi : i = index k s.ownerBlock
    · subst hi
      refine .reset (hread.trans hidle.claimed.symm) ?_ ?_
      · rw [State.seen, if_pos ⟨rfl, rfl⟩, setBlock_blocks, Function.update_self]
        exact hclear.claimed
      · rw [State.seen, if_pos ⟨rfl, rfl⟩]
    · rw [State.seen, if_neg fun hi' => hi hi'.2, setBlock_blocks, Function.update_of_ne hi]
      exact Kept.refl _
  · have hsum := Workers.sum_update held s.blocks (index k s.ownerBlock)
      { s.block s.ownerBlock with head := 0, tail := 0 }
    rw [held_idle hidle, held_owned howned, own_nil rfl, add_zero, Multiset.coe_nil,
      add_zero] at hsum
    refine congrArg₂ (· + ·) ?_ hsum
    simp [State.outside, ho, Owner.pending, State.setBlock]

theorem move_clearingStealTail (ho : s.owner = .clearingStealTail values)
    (h : ownerStep s = some s') : OwnerMove n s s' := by
  have hcur : s.current = index k s.ownerBlock := by rw [State.current, ho]
  have hworks := hp.works
  rw [ho, hcur] at hworks
  have hsame : ({ s.block s.ownerBlock with stealTail := (s.block s.ownerBlock).blockSize } :
      Block α) = s.block s.ownerBlock := by
    have hclosed : (s.block s.ownerBlock).blockSize = (s.block s.ownerBlock).stealTail :=
      hworks.1.closed.symm
    rw [hclosed]
  simp only [ownerStep, ho, hsame, setBlock_self] at h
  cases h
  refine ⟨rfl, hp.phase rfl hcur.symm ?_ nofun, fun i => ?_, ?_⟩
  · rw [hcur]
    exact hworks
  · have hseen : State.seen { s with owner := .clearingStealHead values } i = s.seen i := by
      simp [State.seen, State.current, ho, Owner.resets]
    rw [hseen]
    exact Kept.refl _
  · simp [State.outside, ho, Owner.pending]

theorem move_clearingStealHead (ho : s.owner = .clearingStealHead values)
    (h : ownerStep s = some s') : OwnerMove n s s' := by
  have hcur : s.current = index k s.ownerBlock := by rw [State.current, ho]
  have hworks := hp.works
  rw [ho, hcur] at hworks
  obtain ⟨howned, -⟩ := hworks
  simp only [ownerStep, ho] at h
  cases h
  have howned' : ({ s.block s.ownerBlock with stealHead := 0 } : Block α).Owned :=
    ⟨howned.closed, howned.le, howned.fits, howned.room⟩
  refine ⟨rfl, hp.change (by rw [hcur]; rfl) hcur.symm (by rw [hcur]; rfl) howned' nofun,
    fun i => ?_, ?_⟩
  · rw [seen_eq (s := { s.setBlock s.ownerBlock { s.block s.ownerBlock with stealHead := 0 } with
      owner := .putting values }) rfl i, setBlock_blocks]
    by_cases hi : i = index k s.ownerBlock
    · rw [hi, Function.update_self, ← hcur, seen_reset (by rw [ho]; rfl), hcur]
      exact Kept.refl _
    · rw [Function.update_of_ne hi, seen_other (by rw [hcur]; exact hi)]
      exact Kept.refl _
  · have hsum := Workers.sum_update held s.blocks (index k s.ownerBlock)
      { s.block s.ownerBlock with stealHead := 0 }
    refine congrArg₂ (· + ·) ?_ (add_right_cancel hsum)
    simp [State.outside, ho, Owner.pending, State.setBlock]

include hk

theorem move_takingOver (ho : s.owner = .takingOver) (h : ownerStep s = some s') :
    OwnerMove n s s' := by
  have hcur : s.current = index k s.ownerBlock := by rw [State.current, ho]
  have hne := index_pred_ne hk s.ownerBlock
  have hworks := hp.works
  rw [ho, hcur] at hworks
  obtain ⟨howned, hempty⟩ := hworks
  simp only [ownerStep, ho] at h
  have hpred : (s.block (s.ownerBlock - 1)).Granted ∨ (s.block (s.ownerBlock - 1)).Idle :=
    hp.others _ (hcur ▸ hne)
  rcases hpred with hgranted | hidle
  · obtain ⟨htake, howned', hkept⟩ := hgranted.takeover
    have hfront : (s.block (s.ownerBlock - 1)).stealTail ≠ (s.block (s.ownerBlock - 1)).tail :=
      Nat.ne_of_lt (hgranted.tail.symm ▸ hgranted.left)
    have hheld := (held_owned howned').trans (held_granted hgranted).symm
    simp only [htake, if_pos hfront] at h
    cases h
    refine .update rfl rfl (by rw [ho]; rfl) rfl ⟨fun i => ?_, ?_, fun i hi => ?_, nofun⟩ hkept ?_
    · by_cases hi : i = index k (s.ownerBlock - 1)
      · rw [setBlock_blocks, hi, Function.update_self]
        exact hp.size _
      · rw [setBlock_blocks, Function.update_of_ne hi]
        exact hp.size i
    · change Owner.Works .adopting (Function.update s.blocks (index k (s.ownerBlock - 1)) _
        (index k (s.ownerBlock - 1)))
      rw [Function.update_self]
      exact howned'
    · have hi' : i ≠ index k (s.ownerBlock - 1) := hi
      rw [setBlock_blocks, Function.update_of_ne hi']
      by_cases hi'' : i = index k s.ownerBlock
      · rw [hi'']
        exact .inr (howned.idle hempty)
      · exact hp.others i (hcur ▸ hi'')
    · refine congrArg₂ (· + ·) ?_ hheld
      simp [State.outside, ho, Owner.pending, State.setBlock]
  · simp only [hidle.takeover, setBlock_self, ne_eq, not_true, if_false] at h
    cases h
    refine .same rfl rfl (by rw [ho]; rfl) rfl (hp.phase rfl hcur.symm ?_ nofun) ?_
    · rw [hcur]
      exact howned
    · simp [State.outside, ho, Owner.pending]

theorem move_shifting {thiefCounter : UInt64} (ho : s.owner = .shifting thiefCounter)
    (h : ownerStep s = some s') : OwnerMove n s s' := by
  have hcur : s.current = index k (s.ownerBlock - 1) := by rw [State.current, ho]
  have howned := hp.works
  rw [ho] at howned
  simp only [ownerStep, ho] at h
  cases h
  refine .same rfl rfl (by rw [ho]; rfl) rfl (hp.phase rfl ?_ howned nofun) ?_
  · rw [hcur]
    exact index_add_size hk _
  · simp [State.outside, ho, Owner.pending]

theorem move_checking (ho : s.owner = .checking values) (h : ownerStep s = some s') :
    OwnerMove n s s' := by
  have hcur : s.current = index k s.ownerBlock := by rw [State.current, ho]
  have hworks := hp.works
  rw [ho] at hworks
  simp only [ownerStep, ho] at h
  split at h <;> cases h
  next hwritable =>
    refine .same rfl rfl (by rw [ho]; rfl) rfl (hp.phase rfl hcur.symm hworks fun _ _ => ?_) ?_
    · refine (hp.others _ (hcur ▸ index_succ_ne hk _)).resolve_left fun hgranted => ?_
      have hclosed : (s.block (s.ownerBlock + 1)).stealTail =
          (s.block (s.ownerBlock + 1)).blockSize := by simpa [isWritable] using hwritable
      exact Nat.ne_of_lt hgranted.left hclosed
    · simp [State.outside, ho, Owner.pending]
  next =>
    refine .same rfl rfl (by rw [ho]; rfl) rfl (hp.phase rfl hcur.symm hworks.1 nofun) ?_
    simp [State.outside, ho, Owner.pending]

theorem move_granting (ho : s.owner = .granting values) (h : ownerStep s = some s') :
    OwnerMove n s s' := by
  have hcur : s.current = index k s.ownerBlock := by rw [State.current, ho]
  have hne := index_succ_ne hk s.ownerBlock
  have hworks := hp.works
  rw [ho, hcur] at hworks
  obtain ⟨hgranted, hkept, hown⟩ := hworks.1.grant hworks.2
  simp only [ownerStep, ho] at h
  cases h
  refine .update rfl rfl (by rw [ho]; rfl) rfl ⟨fun i => ?_, ?_, fun i hi => ?_, nofun⟩ hkept ?_
  · by_cases hi : i = index k s.ownerBlock
    · rw [setBlock_blocks, hi, Function.update_self]
      exact hp.size _
    · rw [setBlock_blocks, Function.update_of_ne hi]
      exact hp.size i
  · change Owner.Works (.reclaiming values) (Function.update s.blocks (index k s.ownerBlock) _
      (index k (s.ownerBlock + 1)))
    rw [Function.update_of_ne hne]
    exact hp.next values ho
  · have hi' : i ≠ index k (s.ownerBlock + 1) := hi
    rw [setBlock_blocks]
    by_cases hi'' : i = index k s.ownerBlock
    · rw [hi'', Function.update_self]
      exact .inl hgranted
    · rw [Function.update_of_ne hi'']
      exact hp.others i (hcur ▸ hi'')
  · change _ + held (s.blocks (index k s.ownerBlock)).grant = _
    rw [held_granted hgranted, held_owned hworks.1, hown]
    simp [State.outside, ho, Owner.pending, State.setBlock]

/-- By the place of the owner. -/
theorem ownerStep_move (hn : 0 < n) (h : ownerStep s = some s') : OwnerMove n s s' := by
  cases ho : s.owner with
  | idle => simp [ownerStep, ho] at h
  | getting => exact move_getting hp ho h
  | takingOver => exact move_takingOver hk hp ho h
  | adopting => exact move_adopting hp ho h
  | shifting thiefCounter => exact move_shifting hk hp ho h
  | putting values => exact move_putting hp ho h
  | advancing values => exact move_advancing hp ho h
  | checking values => exact move_checking hk hp ho h
  | granting values => exact move_granting hk hp ho h
  | reclaiming values => exact move_reclaiming hp ho h
  | clearingTail values => exact move_clearingTail hp hn ho h
  | clearingStealTail values => exact move_clearingStealTail hp ho h
  | clearingStealHead values => exact move_clearingStealHead hp ho h

end Owner

theorem seen_claimed (i : Fin (size k)) : (s.seen i).claimed = (s.blocks i).claimed := by
  unfold State.seen
  split <;> rfl

theorem seen_ring (i : Fin (size k)) : (s.seen i).ringBuffer = (s.blocks i).ringBuffer := by
  unfold State.seen
  split <;> rfl

theorem Owner.Works.closed {o : Owner α} {b : Block α} (h : o.Works b) :
    b.stealTail = b.blockSize := by
  cases o with
  | reclaiming => exact LifoQueue.Block.Idle.closed h
  | clearingTail => exact h.1.closed
  | takingOver | advancing | checking | granting | clearingStealTail | clearingStealHead =>
    exact h.1.closed
  | idle | getting | adopting | shifting | putting => exact LifoQueue.Block.Owned.closed h

/-- Another count of reads matters only to an owner that has seen the last. -/
theorem Owner.Works.read {o : Owner α} {b : Block α} (h : o.Works b) (reads : Nat)
    (ho : ∀ values, o ≠ .clearingTail values) : o.Works { b with stealHead := reads } := by
  cases o with
  | clearingTail values => exact absurd rfl (ho values)
  | takingOver | advancing | checking | granting | clearingStealTail | clearingStealHead =>
    obtain ⟨⟨hclosed, hle, hfits, hroom⟩, hmore⟩ := h
    exact ⟨⟨hclosed, hle, hfits, hroom⟩, hmore⟩
  | reclaiming =>
    obtain ⟨hclosed, hempty, hfits⟩ := h
    exact ⟨hclosed, hempty, hfits⟩
  | idle | getting | adopting | shifting | putting =>
    obtain ⟨hclosed, hle, hfits, hroom⟩ := h
    exact ⟨hclosed, hle, hfits, hroom⟩

theorem block_setBlock (c d : UInt64) (b : Block α) :
    (s.setBlock c b).block d = if index k d = index k c then b else s.block d :=
  Function.update_apply ..

theorem fits_setBlock {c : UInt64} {b : Block α} {phase : Thief α} (hf : s.Fits phase)
    (hsize : b.blockSize = (s.block c).blockSize) (hle : (s.block c).claimed ≤ b.claimed) :
    (s.setBlock c b).Fits phase := by
  cases phase with
  | checking thief spos | claiming thief spos =>
    simp only [State.Fits, block_setBlock] at hf ⊢
    split
    next heq =>
      rw [hsize, State.block, ← heq]
      exact hf
    next => exact hf
  | reading thief spos =>
    simp only [State.Fits, block_setBlock] at hf ⊢
    split
    next heq =>
      rw [State.block, heq] at hf
      exact Nat.lt_of_lt_of_le hf hle
    next => exact hf
  | idle | loading | stealing | counting | looking | moving | reloading => trivial

theorem hand_setBlock {c : UInt64} {b : Block α} (hring : b.ringBuffer = (s.block c).ringBuffer)
    (phase : Thief α) : (s.setBlock c b).hand phase = s.hand phase := by
  cases phase with
  | reading thief spos =>
    simp only [State.hand, block_setBlock]
    split
    next heq => rw [hring, State.block, ← heq, State.block]
    next => rfl
  | _ => rfl

/-- A thief changes a block that is not the owner's, or only its count of reads. -/
theorem Placed.setBlock (hp : Placed n s) {c : UInt64} {b : Block α}
    (hsize : b.blockSize = (s.block c).blockSize)
    (hworks : index k c = s.current → s.owner.Works b)
    (hothers : (s.block c).Granted ∨ (s.block c).Idle → b.Granted ∨ b.Idle)
    (hnext : (s.block c).Idle → b.Idle) : Placed n (s.setBlock c b) where
  size i := by
    rw [setBlock_blocks]
    by_cases hi : i = index k c
    · rw [hi, Function.update_self, hsize]
      exact hp.size _
    · rw [Function.update_of_ne hi]
      exact hp.size i
  works := by
    change s.owner.Works (Function.update s.blocks (index k c) b s.current)
    by_cases hi : s.current = index k c
    · rw [hi, Function.update_self]
      exact hworks hi.symm
    · rw [Function.update_of_ne hi]
      exact hp.works
  others i hne := by
    have hi' := hp.others i hne
    rw [setBlock_blocks]
    by_cases hi : i = index k c
    · rw [hi, Function.update_self]
      rw [hi] at hi'
      exact hothers hi'
    · rw [Function.update_of_ne hi]
      exact hi'
  next values ho := by
    have hidle := hp.next values ho
    change ((s.setBlock c b).block (s.ownerBlock + 1)).Idle
    rw [block_setBlock]
    split
    next heq =>
      rw [State.block, heq] at hidle
      exact hnext hidle
    next => exact hidle

theorem sum_setBlock (c : UInt64) (b : Block α) :
    ∑ i, held ((s.setBlock c b).blocks i) + held (s.block c) =
      ∑ i, held (s.blocks i) + held b :=
  Workers.sum_update held s.blocks (index k c) b

theorem seen_setBlock {c : UInt64} (hr : s.owner.resets = true → index k c ≠ s.current)
    (b : Block α) (i : Fin (size k)) :
    (s.setBlock c b).seen i = if i = index k c then b else s.seen i := by
  have hcur : (s.setBlock c b).current = s.current := rfl
  have howner : (s.setBlock c b).owner = s.owner := rfl
  rw [State.seen, hcur, howner, setBlock_blocks]
  split
  next hi =>
    have hne : i ≠ index k c := fun heq => hr hi.1 (heq ▸ hi.2)
    rw [Function.update_of_ne hne, if_neg hne, State.seen, if_pos hi]
  next hi =>
    by_cases heq : i = index k c
    · rw [if_pos heq, heq, Function.update_self]
    · rw [if_neg heq, Function.update_of_ne heq, State.seen, if_neg hi]

section Thieves

variable [Fintype ι]

/-- The thieves that have claimed a slot of a block and not counted its read. -/
def State.inFlight (s : State ι α k) (i : Fin (size k)) : Nat :=
  ∑ t, if (s.thief t).claimed k = some i then 1 else 0

structure Sound (n : Nat) (s : State ι α k) : Prop where
  placed : Placed n s
  counted : ∀ i, (s.seen i).stealHead + s.inFlight i = (s.seen i).claimed
  fits : ∀ t, s.Fits (s.thief t)

/-- Everything that has been handed in. -/
def State.total (s : State ι α k) : Multiset (Option α) :=
  s.outside + ∑ i, held (s.blocks i) + ∑ t, s.hand (s.thief t)

theorem inFlight_pos {t : ι} {i : Fin (size k)} (h : (s.thief t).claimed k = some i) :
    0 < s.inFlight i := by
  have hle := Finset.single_le_sum (f := fun t => if (s.thief t).claimed k = some i then 1 else 0)
    (fun _ _ => Nat.zero_le _) (Finset.mem_univ t)
  simp only [h, if_true] at hle
  exact hle

/-- A thief does not see what the owner does to its block. -/
theorem OwnerMove.hand (hm : OwnerMove n s s') (hs : Sound n s) (t : ι) :
    s'.Fits (s.thief t) ∧ s'.hand (s.thief t) = s.hand (s.thief t) := by
  have hfits := hs.fits t
  cases ht : s.thief t with
  | reading thief spos =>
    rw [ht] at hfits
    have hpos := inFlight_pos (i := index k thief) (s := s) (t := t) (by rw [ht]; rfl)
    have hcount := hs.counted (index k thief)
    have hlt : spos < (s.seen (index k thief)).claimed := by
      rw [seen_claimed]
      exact hfits
    cases hm.kept (index k thief) with
    | same hclaimed hreads hring =>
      have hring' := hring spos hlt
      rw [seen_ring, seen_ring] at hring'
      rw [seen_claimed, seen_claimed] at hclaimed
      refine ⟨?_, congrArg (fun value => ({value} : Multiset (Option α))) hring'⟩
      change spos < (s'.blocks _).claimed
      rw [hclaimed]
      exact hfits
    | reset hdone => omega
  | checking thief spos | claiming thief spos =>
    rw [ht] at hfits
    refine ⟨?_, rfl⟩
    change spos < (s'.blocks _).blockSize
    rw [hm.placed.size, ← hs.placed.size (index k thief)]
    exact hfits
  | idle | loading | stealing | counting | looking | moving | reloading => exact ⟨trivial, rfl⟩

theorem OwnerMove.sound (hm : OwnerMove n s s') (hs : Sound n s) : Sound n s' where
  placed := hm.placed
  counted i := by
    have hcount := hs.counted i
    have hflight : s'.inFlight i = s.inFlight i := by rw [State.inFlight, hm.thief, State.inFlight]
    cases hm.kept i with
    | same hclaimed hreads => omega
    | reset hdone hclaimed hreads => omega
  fits t := by
    rw [hm.thief]
    exact (hm.hand hs t).1

theorem OwnerMove.total (hm : OwnerMove n s s') (hs : Sound n s) : s'.total = s.total := by
  rw [State.total, hm.balance, hm.thief, State.total]
  exact congrArg _ (Finset.sum_congr rfl fun t _ => (hm.hand hs t).2)

theorem total_setBlock {c : UInt64} {b : Block α}
    (hring : b.ringBuffer = (s.block c).ringBuffer) :
    (s.setBlock c b).total + held (s.block c) = s.total + held b := by
  have hhands : ∑ t, (s.setBlock c b).hand (s.thief t) = ∑ t, s.hand (s.thief t) :=
    Finset.sum_congr rfl fun t _ => hand_setBlock hring (s.thief t)
  have hsum := sum_setBlock (s := s) c b
  change s.outside + _ + ∑ t, (s.setBlock c b).hand (s.thief t) + _ = s.outside + _ + _ + _
  rw [hhands, add_right_comm, add_assoc s.outside, hsum]
  abel

/-- The exchange of `steal_tail_` succeeds only on a granted block, whatever block the thief
takes it for. -/
theorem claim_granted (hs : Sound n s) {t : ι} {thief : UInt64} {spos : Nat}
    (ht : s.thief t = .claiming thief spos) (heq : (s.block thief).stealTail = spos) :
    (s.block thief).Granted ∧ index k thief ≠ s.current := by
  have hlt := hs.fits t
  rw [ht] at hlt
  change spos < (s.block thief).blockSize at hlt
  have hne : index k thief ≠ s.current := by
    intro hcur
    have hclosed := hs.placed.works.closed
    rw [← hcur] at hclosed
    change (s.block thief).stealTail = (s.block thief).blockSize at hclosed
    omega
  refine ⟨(hs.placed.others _ hne).resolve_right fun hidle => ?_, hne⟩
  have hclosed : (s.block thief).stealTail = (s.block thief).blockSize := hidle.closed
  omega

/-- The owner calls an operation. -/
theorem Sound.begin (hs : Sound n s) (ho : s.owner = .idle) {o : Owner α}
    (ho' : o = .getting ∨ ∃ values, o = .putting values) :
    Sound n { s with owner := o } ∧
    State.total { s with owner := o } = s.total + o.pending.map some := by
  have hcur : s.current = index k s.ownerBlock := by rw [State.current, ho]
  have howned := hs.placed.works
  rw [ho] at howned
  have hcount : ∀ i, (s.blocks i).stealHead + s.inFlight i = (s.blocks i).claimed := fun i => by
    rw [← seen_eq (s := s) (by rw [ho]; rfl)]
    exact hs.counted i
  rcases ho' with rfl | ⟨values, rfl⟩
  · refine ⟨⟨hs.placed.phase rfl hcur.symm howned nofun, fun i => ?_, hs.fits⟩, ?_⟩
    · rw [seen_eq rfl]
      exact hcount i
    · simp only [State.total, State.outside, ho, Owner.pending]
      exact (add_zero _).symm
  · refine ⟨⟨hs.placed.phase rfl hcur.symm howned nofun, fun i => ?_, hs.fits⟩, ?_⟩
    · rw [seen_eq rfl]
      exact hcount i
    · simp only [State.total, State.outside, ho, Owner.pending, List.append_nil, List.map_append,
        ← Multiset.coe_add]
      change _ + ∑ i, held (s.blocks i) + ∑ t, s.hand (s.thief t) = _
      abel

theorem start_sound (hn : 0 < n) : Sound n (start ι α k n) := by
  have howned : (Block.new n : Block α).Owned := ⟨rfl, Nat.le_refl _, Nat.zero_le _, hn⟩
  refine ⟨⟨fun _ => rfl, howned, fun _ _ => .inr (howned.idle rfl), nofun⟩, fun i => ?_,
    fun _ => trivial⟩
  rw [seen_eq rfl]
  change 0 + State.inFlight (start ι α k n) i = (Block.new n : Block α).claimed
  rw [howned.claimed]
  simp [State.inFlight, start, Thief.claimed, Block.new]

theorem start_total (hn : 0 < n) : (start ι α k n).total = 0 := by
  have howned : (Block.new n : Block α).Owned := ⟨rfl, Nat.le_refl _, Nat.zero_le _, hn⟩
  have hheld : held (Block.new n : Block α) = 0 := held_idle (howned.idle rfl)
  simp [State.total, State.outside, State.hand, start, hheld, Owner.pending]

variable [DecidableEq ι]

theorem inFlight_goto (t : ι) (phase : Thief α) (i : Fin (size k)) :
    (s.goto t phase).inFlight i + (if (s.thief t).claimed k = some i then 1 else 0) =
      s.inFlight i + if phase.claimed k = some i then 1 else 0 :=
  Workers.sum_update (fun phase => if phase.claimed k = some i then 1 else 0) s.thief t phase

theorem total_goto (t : ι) (phase : Thief α) :
    (s.goto t phase).total + s.hand (s.thief t) = s.total + s.hand phase := by
  have hsum := Workers.sum_update s.hand s.thief t phase
  change s.outside + _ + ∑ u, s.hand (Function.update s.thief t phase u) + _ = _
  rw [add_assoc, hsum, ← add_assoc]
  rfl

/-- A step in which a thief claims nothing and gives nothing back. -/
theorem Sound.goto (hs : Sound n s) {t : ι} {phase : Thief α}
    (hc : phase.claimed k = (s.thief t).claimed k) (hf : s.Fits phase)
    (hh : s.hand phase = s.hand (s.thief t)) :
    Sound n (s.goto t phase) ∧ (s.goto t phase).total = s.total := by
  refine ⟨⟨⟨hs.placed.size, hs.placed.works, hs.placed.others, hs.placed.next⟩, fun i => ?_,
    fun u => ?_⟩, ?_⟩
  · have hflight := inFlight_goto (s := s) t phase i
    rw [hc] at hflight
    rw [Nat.add_right_cancel hflight]
    exact hs.counted i
  · by_cases hu : u = t
    · subst hu
      change s.Fits (Function.update s.thief u phase u)
      rw [Function.update_self]
      exact hf
    · change s.Fits (Function.update s.thief t phase u)
      rw [Function.update_of_ne hu]
      exact hs.fits u
  · have htotal := total_goto (s := s) t phase
    rw [hh] at htotal
    exact add_right_cancel htotal

/-- A step in which a thief changes a block. -/
theorem Sound.setBlock_goto (hs : Sound n s) {t : ι} {c : UInt64} {b : Block α}
    {phase : Thief α} (hp : Placed n (s.setBlock c b))
    (hsize : b.blockSize = (s.block c).blockSize) (hle : (s.block c).claimed ≤ b.claimed)
    (hf : (s.setBlock c b).Fits phase)
    (hr : s.owner.resets = true → index k c ≠ s.current)
    (hc : b.stealHead + (s.goto t phase).inFlight (index k c) = b.claimed)
    (hothers : ∀ i, i ≠ index k c → (s.goto t phase).inFlight i = s.inFlight i) :
    Sound n ((s.setBlock c b).goto t phase) where
  placed := ⟨hp.size, hp.works, hp.others, hp.next⟩
  counted i := by
    change ((s.setBlock c b).seen i).stealHead + (s.goto t phase).inFlight i =
      ((s.setBlock c b).seen i).claimed
    rw [seen_setBlock hr]
    split
    next heq =>
      rw [heq]
      exact hc
    next hne =>
      rw [hothers i hne]
      exact hs.counted i
  fits u := by
    change (s.setBlock c b).Fits (Function.update s.thief t phase u)
    by_cases hu : u = t
    · rw [hu, Function.update_self]
      exact hf
    · rw [Function.update_of_ne hu]
      exact fits_setBlock (hs.fits u) hsize hle

theorem claim_sound (hs : Sound n s) {t : ι} {thief : UInt64} {spos : Nat}
    (ht : s.thief t = .claiming thief spos) (heq : (s.block thief).stealTail = spos) :
    Sound n ((s.setBlock thief (s.block thief).claimFront).goto t (.reading thief spos)) ∧
    ((s.setBlock thief (s.block thief).claimFront).goto t (.reading thief spos)).total =
      s.total := by
  obtain ⟨hgranted, hne⟩ := claim_granted hs ht heq
  obtain ⟨-, hfront, hclaimed, hunclaimed⟩ := hgranted.claim
  have hspos : spos = (s.block thief).claimed := by rw [hgranted.claimed, heq]
  have hflight : ∀ i, (s.goto t (.reading thief spos)).inFlight i =
      s.inFlight i + if index k thief = i then 1 else 0 := by
    intro i
    have hone := inFlight_goto (s := s) t (.reading thief spos) i
    rw [ht] at hone
    simpa [Thief.claimed] using hone
  have hplaced : Placed n (s.setBlock thief (s.block thief).claimFront) := by
    refine hs.placed.setBlock rfl (fun hcur => absurd hcur hne) (fun _ => hfront) fun hidle => ?_
    have hleft := hgranted.left
    rw [hidle.closed] at hleft
    exact absurd hleft (Nat.lt_irrefl _)
  refine ⟨hs.setBlock_goto hplaced rfl (by omega) ?_ (fun _ => hne) ?_ fun i hi => ?_, ?_⟩
  · change spos < ((s.setBlock thief (s.block thief).claimFront).block thief).claimed
    rw [block_setBlock, if_pos rfl]
    omega
  · have hcount := hs.counted (index k thief)
    rw [seen_other hne] at hcount
    change (s.block thief).stealHead + _ = (s.block thief).claimed at hcount
    change (s.block thief).stealHead + _ = _
    rw [hflight, if_pos rfl]
    omega
  · rw [hflight, if_neg (Ne.symm hi), Nat.add_zero]
  · have hring : (s.block thief).claimFront.ringBuffer = (s.block thief).ringBuffer := rfl
    have hblock := total_setBlock hring
    have hgoto := total_goto (s := s.setBlock thief (s.block thief).claimFront) t
      (.reading thief spos)
    have hold : (s.setBlock thief (s.block thief).claimFront).hand
        ((s.setBlock thief (s.block thief).claimFront).thief t) = 0 := by
      change State.hand _ (s.thief t) = 0
      rw [ht]
      rfl
    have hnew : (s.setBlock thief (s.block thief).claimFront).hand (.reading thief spos) +
        held (s.block thief).claimFront = held (s.block thief) := by
      rw [hand_setBlock hring, held_granted hgranted, hunclaimed, ← Multiset.cons_coe, hspos]
      rcases hfront with hgranted' | hidle
      · rw [held_granted hgranted']
        rfl
      · rw [held_idle hidle, hidle.unclaimed]
        rfl
    rw [hold, add_zero] at hgoto
    apply add_right_cancel (b := held (s.block thief))
    rw [hgoto, add_right_comm, hblock, add_right_comm, add_assoc, hnew]

theorem count_sound (hs : Sound n s) {t : ι} {thief : UInt64} {value : Option α} {b : Block α}
    (ht : s.thief t = .counting thief value)
    (hb : b = { s.block thief with stealHead := (s.block thief).stealHead + 1 }) :
    Sound n ((s.setBlock thief b).goto t .idle) ∧
    ((s.setBlock thief b).goto t .idle).total + {value} = s.total := by
  have hclaimed : b.claimed = (s.block thief).claimed := by rw [hb]; rfl
  have hring : b.ringBuffer = (s.block thief).ringBuffer := by rw [hb]
  have hreads : b.stealHead = (s.block thief).stealHead + 1 := by rw [hb]
  have hpos : 0 < s.inFlight (index k thief) := inFlight_pos (t := t) (by rw [ht]; rfl)
  have hcount := hs.counted (index k thief)
  have hreset : s.owner.resets = true → index k thief ≠ s.current := by
    intro hr hcur
    have hworks := hs.placed.works
    rw [hcur, seen_reset hr] at hcount
    rw [hcur] at hpos
    have hzero : (s.blocks s.current).claimed = 0 := by
      cases ho : s.owner with
      | clearingStealTail values | clearingStealHead values =>
        rw [ho] at hworks
        rw [hworks.1.claimed]
        exact Nat.le_zero.mp (hworks.2 ▸ hworks.1.le)
      | _ => simp [ho, Owner.resets] at hr
    change 0 + s.inFlight s.current = (s.blocks s.current).claimed at hcount
    omega
  have hseen : s.seen (index k thief) = s.block thief :=
    if_neg fun hr => hreset hr.1 hr.2
  rw [hseen] at hcount
  have hgranted : (s.block thief).Granted → b.Granted := by
    rintro ⟨hhead, htail, hleft⟩
    subst hb
    exact ⟨hhead, htail, hleft⟩
  have hidle : (s.block thief).Idle → b.Idle := by
    rintro ⟨hclosed, hempty, hfits⟩
    subst hb
    exact ⟨hclosed, hempty, hfits⟩
  have hplaced : Placed n (s.setBlock thief b) := by
    refine hs.placed.setBlock (by rw [hb]) (fun hcur => ?_) (Or.imp hgranted hidle) hidle
    have hworks := hs.placed.works
    rw [← hcur] at hworks
    rw [hb]
    refine hworks.read _ fun values ho => ?_
    -- the owner has seen that every slot claimed has been read
    rw [ho] at hworks
    have hdone := hworks.1.claimed
    have hread := hworks.2
    change (s.block thief).claimed = (s.block thief).tail at hdone
    change (s.block thief).stealHead = (s.block thief).tail at hread
    omega
  have hflight : ∀ i, (s.goto t .idle).inFlight i + (if index k thief = i then 1 else 0) =
      s.inFlight i := by
    intro i
    have hone := inFlight_goto (s := s) t .idle i
    rw [ht] at hone
    simpa [Thief.claimed] using hone
  refine ⟨hs.setBlock_goto hplaced (by rw [hb]) hclaimed.ge trivial hreset ?_ fun i hi => ?_, ?_⟩
  · have hone := hflight (index k thief)
    rw [if_pos rfl] at hone
    omega
  · have hone := hflight i
    rwa [if_neg (Ne.symm hi), Nat.add_zero] at hone
  · have hblock := total_setBlock hring
    have hgoto := total_goto (s := s.setBlock thief b) t .idle
    have hold : (s.setBlock thief b).hand ((s.setBlock thief b).thief t) = {value} := by
      change State.hand _ (s.thief t) = _
      rw [ht]
      rfl
    have hheld : held b = held (s.block thief) := by rw [hb]; rfl
    rw [hheld] at hblock
    rw [hold] at hgoto
    rw [hgoto, add_right_cancel hblock]
    exact add_zero _

theorem thiefStep_sound (hs : Sound n s) {t : ι} (h : thiefStep s t = some s') :
    Sound n s' ∧ s'.total = s.total := by
  have hfits := hs.fits t
  cases ht : s.thief t with
  | idle => simp [thiefStep, ht] at h
  | loading =>
    simp only [thiefStep, ht] at h
    cases h
    exact hs.goto (by rw [ht]; rfl) trivial (by rw [ht]; rfl)
  | stealing thief =>
    simp only [thiefStep, ht] at h
    cases h
    split
    · exact hs.goto (by rw [ht]; rfl) trivial (by rw [ht]; rfl)
    next hne =>
      refine hs.goto (by rw [ht]; rfl) (Nat.lt_of_le_of_ne ?_ hne) (by rw [ht]; rfl)
      by_cases hcur : index k thief = s.current
      · rw [State.block, hcur]
        exact hs.placed.works.closed.le
      · rcases hs.placed.others _ hcur with hgranted | hidle
        · exact hgranted.left.le
        · exact hidle.closed.le
  | checking thief spos =>
    rw [ht] at hfits
    simp only [thiefStep, ht] at h
    cases h
    split
    · exact hs.goto (by rw [ht]; rfl) trivial (by rw [ht]; rfl)
    · exact hs.goto (by rw [ht]; rfl) hfits (by rw [ht]; rfl)
  | claiming thief spos =>
    simp only [thiefStep, ht] at h
    split at h <;> cases h
    next heq => exact claim_sound hs ht heq
    next => exact hs.goto (by rw [ht]; rfl) trivial (by rw [ht]; rfl)
  | reading thief spos =>
    simp only [thiefStep, ht] at h
    cases h
    exact hs.goto (by rw [ht]; rfl) trivial (by rw [ht]; rfl)
  | counting thief value =>
    simp only [thiefStep, ht] at h
    cases h
    obtain ⟨hs', htotal⟩ := count_sound hs ht rfl
    refine ⟨⟨⟨hs'.placed.size, hs'.placed.works, hs'.placed.others, hs'.placed.next⟩,
      hs'.counted, hs'.fits⟩, ?_⟩
    rw [← htotal]
    simp only [State.total, State.outside, ← Multiset.coe_add, State.goto, State.setBlock]
    rw [Multiset.coe_singleton]
    abel
  | looking thief =>
    simp only [thiefStep, ht] at h
    cases h
    split <;> exact hs.goto (by rw [ht]; rfl) trivial (by rw [ht]; rfl)
  | moving thief =>
    simp only [thiefStep, ht] at h
    cases h
    have hgoto : Sound n (s.goto t .loading) ∧ (s.goto t .loading).total = s.total :=
      hs.goto (by rw [ht]; rfl) trivial (by rw [ht]; rfl)
    obtain ⟨hs', htotal⟩ := hgoto
    exact ⟨⟨⟨hs'.placed.size, hs'.placed.works, hs'.placed.others, hs'.placed.next⟩,
      hs'.counted, hs'.fits⟩, htotal⟩
  | reloading thief =>
    simp only [thiefStep, ht] at h
    cases h
    split <;> exact hs.goto (by rw [ht]; rfl) trivial (by rw [ht]; rfl)

variable {e : Event ι α} {es : List (Event ι α)}

theorem step_sound (hk : k < 63) (hn : 0 < n) (hs : Sound n s) (h : step s e = some s') :
    Sound n s' ∧ s'.total = s.total + e.values.map some := by
  cases e with
  | popBack =>
    simp only [step] at h
    split at h <;> cases h
    next ho => exact hs.begin ho (.inl rfl)
  | pushBack values =>
    simp only [step] at h
    split at h <;> cases h
    next ho => exact hs.begin ho (.inr ⟨values, rfl⟩)
  | owner =>
    have hm := ownerStep_move hk hs.placed hn h
    exact ⟨hm.sound hs, (hm.total hs).trans (add_zero _).symm⟩
  | stealFront t =>
    simp only [step] at h
    split at h <;> cases h
    next ht =>
      have hgoto : Sound n (s.goto t .loading) ∧ (s.goto t .loading).total = s.total :=
        hs.goto (by rw [ht]; rfl) trivial (by rw [ht]; rfl)
      exact ⟨hgoto.1, hgoto.2.trans (add_zero _).symm⟩
  | thief t =>
    obtain ⟨hs', htotal⟩ := thiefStep_sound hs h
    exact ⟨hs', htotal.trans (add_zero _).symm⟩

theorem run_sound (hk : k < 63) (hn : 0 < n) (h : run step (start ι α k n) es = some s) :
    Sound n s ∧ s.total = (es.flatMap Event.values).map some := by
  refine run_induction (motive := fun es s => Sound n s ∧
    s.total = (es.flatMap Event.values).map some) ⟨start_sound hn, start_total hn⟩ ?_ h
  rintro es u e v - ⟨hs, htotal⟩ hstep
  obtain ⟨hs', htotal'⟩ := step_sound hk hn hs hstep
  refine ⟨hs', ?_⟩
  rw [htotal', htotal, List.flatMap_append, List.map_append]
  simp

theorem run_taken_le (hk : k < 63) (hn : 0 < n) (h : run step (start ι α k n) es = some s) :
    (s.taken : Multiset (Option α)) ≤ (es.flatMap Event.values).map some := by
  rw [← (run_sound hk hn h).2, State.total, State.outside, add_assoc, add_assoc]
  exact Multiset.le_add_right _ _

theorem none_notMem_taken (hk : k < 63) (hn : 0 < n)
    (h : run step (start ι α k n) es = some s) : none ∉ s.taken := by
  intro hnone
  have hmem := Multiset.mem_of_le (run_taken_le hk hn h) (Multiset.mem_coe.mpr hnone)
  simp at hmem

/-- However the accesses interleave: everything that has been handed in has come out, or been
refused, or is still to be put, or is in one slot, or in the hands of one thief. So nothing comes
out twice, and no null pointer does. -/
theorem comes_out_once (hk : k < 63) (hn : 0 < n)
    (h : run step (start ι α k n) es = some s) :
    ((es.flatMap Event.values).map some : Multiset (Option α)) =
      s.taken + (s.refused ++ s.owner.pending).map some + ∑ i, held (s.blocks i) +
        ∑ t, s.hand (s.thief t) ∧
    none ∉ s.taken ∧ ((es.flatMap Event.values).Nodup → s.taken.Nodup) := by
  refine ⟨(run_sound hk hn h).2.symm, none_notMem_taken hk hn h, fun hnodup => ?_⟩
  exact Multiset.coe_nodup.mp (Multiset.nodup_of_le (run_taken_le hk hn h)
    (Multiset.coe_nodup.mpr (hnodup.map (Option.some_injective α))))

/-- Only an owner in `reclaim` ever waits, and only for a thief that has claimed a slot of that
block; and a thief never waits. -/
theorem owner_waits (hk : k < 63) (hn : 0 < n) (h : run step (start ι α k n) es = some s) :
    (s.owner ≠ .idle → ownerStep s = none → ∃ values, s.owner = .reclaiming values ∧
      ∃ t, (s.thief t).claimed k = some (index k s.ownerBlock)) ∧
    ∀ t, s.thief t ≠ .idle → thiefStep s t ≠ none := by
  have hs := (run_sound hk hn h).1
  refine ⟨fun hbusy hnone => ?_, fun t hbusy hnone => ?_⟩
  · cases ho : s.owner with
    | idle => exact absurd ho hbusy
    | reclaiming values =>
      refine ⟨values, rfl, ?_⟩
      by_contra hfree
      rw [not_exists] at hfree
      have hcur : s.current = index k s.ownerBlock := by rw [State.current, ho]
      have hzero : s.inFlight (index k s.ownerBlock) = 0 :=
        Finset.sum_eq_zero fun t _ => if_neg (hfree t)
      have hidle := hs.placed.works
      rw [ho, hcur] at hidle
      have hclaimed := LifoQueue.Block.Idle.claimed hidle
      have hcount := hs.counted (index k s.ownerBlock)
      rw [seen_eq (by rw [ho]; rfl), hzero, hclaimed] at hcount
      have hread : (s.block s.ownerBlock).stealHead = (s.block s.ownerBlock).tail := hcount
      simp only [ownerStep, ho, if_pos hread] at hnone
      cases hnone
    | _ =>
      simp only [ownerStep, ho] at hnone
      repeat' split at hnone
      all_goals cases hnone
  · cases ht : s.thief t with
    | idle => exact hbusy ht
    | _ =>
      simp only [thiefStep, ht] at hnone
      repeat' split at hnone
      all_goals cases hnone

end Thieves

/-- Steps of the owner, and of a thief. -/
def owns (steps : Nat) : List (Event ι α) := List.replicate steps .owner

def steals (t : ι) (steps : Nat) : List (Event ι α) := List.replicate steps (.thief t)

/-- Two values are pushed; a thief has claimed the first when the owner takes the second. -/
def both : List (Event (Fin 1) Nat) :=
  List.flatten [[.pushBack [1, 2]], owns 9, [.stealFront 0], steals 0 9, [.popBack], owns 1,
    steals 0 1]

theorem comes_out_once_both : ∃ s, run step (start (Fin 1) Nat 1 1) both = some s ∧
    s.taken = [some 2, some 1] ∧ none ∉ s.taken := by
  have hrun : (run step (start (Fin 1) Nat 1 1) both).any
      (fun s => decide (s.taken = [some 2, some 1])) = true := by decide +kernel
  obtain ⟨s, hs, htaken⟩ := (Option.any_eq_true _ _).mp hrun
  exact ⟨s, hs, of_decide_eq_true htaken,
    (comes_out_once (n := 1) (by decide) Nat.one_pos hs).2.1⟩

/-- The first thief is held up with the only slot of a block, while the second and the owner go
once around the ring. -/
def around : List (Event (Fin 2) Nat) :=
  List.flatten [[.pushBack [1, 2]], owns 9, [.stealFront 0], steals 0 8, [.pushBack [3]], owns 9,
    [.stealFront 1], steals 1 4, [.pushBack [4]], owns 9, [.pushBack [5]], owns 4]

theorem owner_waits_around : ∃ s, run step (start (Fin 2) Nat 1 1) around = some s ∧
    ownerStep s = none ∧ ∃ t, (s.thief t).claimed 1 = some (index 1 s.ownerBlock) := by
  have hrun : (run step (start (Fin 2) Nat 1 1) around).any
      (fun s => decide ((ownerStep s).isNone = true ∧ s.owner ≠ .idle)) = true := by decide +kernel
  obtain ⟨s, hs, hfacts⟩ := (Option.any_eq_true _ _).mp hrun
  obtain ⟨hnone, hbusy⟩ := of_decide_eq_true hfacts
  have hwaits := Option.isNone_iff_eq_none.mp hnone
  obtain ⟨-, -, hthief⟩ := (owner_waits (n := 1) (by decide) Nat.one_pos hs).1 hbusy hwaits
  exact ⟨s, hs, hwaits, hthief⟩

/-- One thief sets `thief_block_` to the block that the owner has gone back to, and a second, which
has found nothing in it, goes on past it after the owner has granted it. -/
def passedBy : List (Event (Fin 2) Nat) :=
  List.flatten [[.pushBack [1, 2]], owns 9, [.stealFront 0], steals 0 3, [.popBack], owns 1,
    [.popBack], owns 4, steals 0 1, [.stealFront 1], steals 1 2, [.pushBack [3, 4, 5]], owns 17,
    steals 1 8, steals 0 4, [.popBack], owns 1]

/-- A null answer does not say that the queue is empty: what is in a block that has been passed by
is found neither by the owner nor by a thief. -/
theorem element_stranded : ∃ s, run step (start (Fin 2) Nat 1 1) passedBy = some s ∧
    s.owner = .idle ∧ (∀ t, s.thief t = .idle) ∧ some 3 ∈ held (s.block 1) ∧
    (∃ u, run step s (.popBack :: owns 2) = some u ∧ u.owner = .idle ∧ u.taken = s.taken) ∧
    ∀ t, ∃ u, run step s (.stealFront t :: steals t 4) = some u ∧
      u.thief t = .idle ∧ u.taken = s.taken := by
  have hrun : (run step (start (Fin 2) Nat 1 1) passedBy).any (fun s =>
      decide (s.owner = .idle ∧ (∀ t, s.thief t = .idle) ∧ some 3 ∈ held (s.block 1) ∧
        (run step s (.popBack :: owns 2)).any
          (fun u => decide (u.owner = .idle ∧ u.taken = s.taken)) = true ∧
        ∀ t, (run step s (.stealFront t :: steals t 4)).any
          (fun u => decide (u.thief t = .idle ∧ u.taken = s.taken)) = true)) = true := by
    decide +kernel
  obtain ⟨s, hs, hfacts⟩ := (Option.any_eq_true _ _).mp hrun
  obtain ⟨howner, hthieves, hheld, hpop, hsteal⟩ := of_decide_eq_true hfacts
  obtain ⟨u, hu, hpopped⟩ := (Option.any_eq_true _ _).mp hpop
  refine ⟨s, hs, howner, hthieves, hheld, ⟨u, hu, of_decide_eq_true hpopped⟩, fun t => ?_⟩
  obtain ⟨v, hv, hstolen⟩ := (Option.any_eq_true _ _).mp (hsteal t)
  exact ⟨v, hv, of_decide_eq_true hstolen⟩

end LifoSteps
