import Mathlib.Data.List.Intervals
import Mathlib.Algebra.Order.Ring.Nat
import Mathlib.Tactic.Ring
import KeyLeak.RunPlugin

/-!
# The shares of a bulk operation

`even_share` cuts a shape into as many consecutive ranges as there are agents, the
first of them one index longer than the rest. The cuts below are the same ranges in
exact arithmetic; they meet end to end, so the agents have every index once.
-/
namespace EvenShare

open RunPlugin

/-- The range `[begin, end)` of one rank. -/
def evenShare (n rank size : UInt64) : UInt64 × UInt64 :=
  let avgPerThread := n / size
  let nBigShare := avgPerThread + 1
  let bigShares := n % size
  let isBigShare := rank < bigShares
  let first := if isBigShare then nBigShare * rank
    else nBigShare * bigShares + (rank - bigShares) * avgPerThread
  (first, first + if isBigShare then nBigShare else avgPerThread)

/-- `num_agents_required`; without `parallelize` there is one agent. -/
def numAgentsRequired (parallelize : Bool) (n : UInt64) (availableParallelism : UInt32) : UInt32 :=
  if parallelize then (min n availableParallelism.toUInt64).toUInt32 else 1

/-- Where rank `r` starts, counted exactly. -/
def cut (n size r : Nat) : Nat := r * (n / size) + min r (n % size)

theorem cut_zero (n size : Nat) : cut n size 0 = 0 := by simp [cut]

theorem cut_size (n : Nat) {size : Nat} (h : 0 < size) : cut n size size = n := by
  rw [cut, Nat.min_eq_right (Nat.mod_lt n h).le, Nat.div_add_mod]

theorem cut_succ (n size r : Nat) :
    cut n size (r + 1) = cut n size r + (n / size + if r < n % size then 1 else 0) := by
  unfold cut
  rw [Nat.succ_mul]
  split <;> omega

theorem cut_mono (n size : Nat) : Monotone (cut n size) :=
  monotone_nat_of_le_succ fun r => by
    rw [cut_succ]
    exact Nat.le_add_right _ _

theorem cut_le (n : Nat) {size r : Nat} (h : r ≤ size) (hs : 0 < size) : cut n size r ≤ n :=
  (cut_mono n size h).trans_eq (cut_size n hs)

theorem cut_of_le {n size r : Nat} (h : r ≤ n % size) : cut n size r = (n / size + 1) * r := by
  rw [cut, Nat.min_eq_left h]
  ring

theorem nBigShare_toNat {n size : UInt64} (hpos : 0 < size.toNat)
    (h : 0 < n.toNat % size.toNat) : (n / size + 1).toNat = n.toNat / size.toNat + 1 := by
  have hle : cut n.toNat size.toNat (n.toNat % size.toNat) ≤ n.toNat :=
    cut_le _ (Nat.mod_lt _ hpos).le hpos
  rw [cut_of_le (Nat.le_refl _)] at hle
  have hone := (Nat.le_mul_of_pos_right (n.toNat / size.toNat + 1) h).trans hle
  have hn := n.toNat_lt
  rw [UInt64.toNat_add, UInt64.toNat_div]
  exact Nat.mod_eq_of_lt (by simp; omega)

/-- The product of the larger shares is a cut of the shape and so does not overflow. -/
theorem bigShares_mul {n size k : UInt64} (hpos : 0 < size.toNat)
    (hk : k.toNat ≤ n.toNat % size.toNat) :
    ((n / size + 1) * k).toNat = cut n.toNat size.toNat k.toNat := by
  have hle : cut n.toNat size.toNat k.toNat ≤ n.toNat :=
    cut_le _ (hk.trans (Nat.mod_lt _ hpos).le) hpos
  have hn := n.toNat_lt
  rcases Nat.eq_zero_or_pos k.toNat with hz | hkpos
  · rw [UInt64.toNat_mul, hz, cut_zero]
    simp
  · rw [cut_of_le hk] at hle ⊢
    rw [UInt64.toNat_mul, nBigShare_toNat hpos (by omega), Nat.mod_eq_of_lt (by omega)]

theorem cut_of_ge {n size r : Nat} (h : n % size ≤ r) :
    cut n size r = cut n size (n % size) + (r - n % size) * (n / size) := by
  obtain ⟨k, rfl⟩ := Nat.exists_eq_add_of_le h
  rw [cut, cut, Nat.min_eq_right h, Nat.min_self, Nat.add_sub_cancel_left]
  ring

/-- The ranges of the ranks there are come out exact. `avg_per_thread + 1` wraps where one agent
has 2^64 - 1 indices, but there it is multiplied by zero. -/
theorem evenShare_eq {n rank size : UInt64} (h : rank < size) :
    (evenShare n rank size).1.toNat = cut n.toNat size.toNat rank.toNat ∧
    (evenShare n rank size).2.toNat = cut n.toNat size.toNat (rank.toNat + 1) := by
  have hr : rank.toNat < size.toNat := UInt64.lt_iff_toNat_lt.mp h
  have hpos : 0 < size.toNat := by omega
  have hle : cut n.toNat size.toNat (rank.toNat + 1) ≤ n.toNat := cut_le _ hr hpos
  have hn := n.toNat_lt
  have hlt := cut_le n.toNat hr.le hpos
  have hfirst : (evenShare n rank size).1.toNat = cut n.toNat size.toNat rank.toNat := by
    simp only [evenShare]
    split
    next hbig =>
      rw [UInt64.lt_iff_toNat_lt, UInt64.toNat_mod] at hbig
      exact bigShares_mul hpos hbig.le
    next hbig =>
      rw [UInt64.lt_iff_toNat_lt, UInt64.toNat_mod, Nat.not_lt] at hbig
      have hge := cut_of_ge hbig
      have hmul := bigShares_mul (n := n) (k := n % size) hpos (UInt64.toNat_mod n size).le
      have hsub : (rank - n % size).toNat = rank.toNat - n.toNat % size.toNat := by
        rw [UInt64.toNat_sub_of_le _ _ ?_, UInt64.toNat_mod]
        rwa [UInt64.le_iff_toNat_le, UInt64.toNat_mod]
      have hsmall : (rank.toNat - n.toNat % size.toNat) * (n.toNat / size.toNat) < 2 ^ 64 := by
        omega
      rw [UInt64.toNat_add, hmul, UInt64.toNat_mul, hsub, UInt64.toNat_div,
        Nat.mod_eq_of_lt hsmall, UInt64.toNat_mod, ← hge, Nat.mod_eq_of_lt (by omega)]
  refine ⟨hfirst, ?_⟩
  have hlast : (evenShare n rank size).2 = (evenShare n rank size).1 +
    if rank < n % size then n / size + 1 else n / size := rfl
  have hsucc := cut_succ n.toNat size.toNat rank.toNat
  rw [hlast, UInt64.toNat_add, hfirst]
  have hshare : (if rank < n % size then n / size + 1 else n / size).toNat =
      n.toNat / size.toNat + if rank.toNat < n.toNat % size.toNat then 1 else 0 := by
    rw [apply_ite UInt64.toNat, UInt64.toNat_div]
    simp only [UInt64.lt_iff_toNat_lt, UInt64.toNat_mod]
    split
    next hbig => rw [nBigShare_toNat hpos (by omega)]
    next => rfl
  rw [hshare, ← hsucc, Nat.mod_eq_of_lt (by omega)]

/-- The calls that `bulk` lowered to `bulk_chunked` makes for a range, in order:
`while (begin != end) f(begin++)`. -/
def chunk (first last : UInt64) : List UInt64 :=
  (List.Ico first.toNat last.toNat).map UInt64.ofNat

@[simp] theorem chunk_self (i : UInt64) : chunk i i = [] := by
  simp [chunk]

theorem toNat_succ {i last : UInt64} (h : i < last) : (i + 1).toNat = i.toNat + 1 := by
  have hlt := UInt64.lt_iff_toNat_lt.mp h
  have hlast := last.toNat_lt
  rw [UInt64.toNat_add]
  exact Nat.mod_eq_of_lt (by simp; omega)

theorem succ_le {i last : UInt64} (h : i < last) : i + 1 ≤ last := by
  rw [UInt64.le_iff_toNat_le, toNat_succ h]
  exact UInt64.lt_iff_toNat_lt.mp h

theorem chunk_cons {i last : UInt64} (h : i < last) : chunk i last = i :: chunk (i + 1) last := by
  rw [chunk, chunk, toNat_succ h, List.Ico.eq_cons (UInt64.lt_iff_toNat_lt.mp h), List.map_cons,
    UInt64.ofNat_toNat]

/-- The calls of the agent with this rank. -/
def share (n rank size : UInt64) : List UInt64 :=
  chunk (evenShare n rank size).1 (evenShare n rank size).2

theorem share_eq {n rank size : UInt64} (h : rank < size) : share n rank size =
    (List.Ico (cut n.toNat size.toNat rank.toNat) (cut n.toNat size.toNat (rank.toNat + 1))).map
      UInt64.ofNat := by
  rw [share, chunk, (evenShare_eq h).1, (evenShare_eq h).2]

/-- Intervals that meet end to end make up one interval. -/
theorem flatten_Ico {b : Nat → Nat} (hb : Monotone b) (k : Nat) :
    ((List.range k).map fun r => List.Ico (b r) (b (r + 1))).flatten = List.Ico (b 0) (b k) := by
  induction k with
  | zero => simp
  | succ k ih =>
    rw [List.range_succ, List.map_append, List.flatten_append, ih]
    simpa using List.Ico.append_consecutive (hb (Nat.zero_le k)) (hb (Nat.le_succ k))

/-- All shares in the order of their ranks are all indices in order. -/
theorem shares_flatten (n : UInt64) {size : UInt64} (h : 0 < size.toNat) :
    (List.ofFn fun r : Fin size.toNat => share n (UInt64.ofNat r) size).flatten = indices n := by
  have hshare : (List.ofFn fun r : Fin size.toNat => share n (UInt64.ofNat r) size) =
      (List.range size.toNat).map fun r =>
        (List.Ico (cut n.toNat size.toNat r) (cut n.toNat size.toNat (r + 1))).map UInt64.ofNat := by
    rw [List.ofFn_eq_map, ← List.map_coe_finRange_eq_range, List.map_map]
    refine List.map_congr_left fun r _ => ?_
    have hr : (UInt64.ofNat r).toNat = r :=
      UInt64.toNat_ofNat_of_lt' (r.isLt.trans size.toNat_lt)
    rw [share_eq (UInt64.lt_iff_toNat_lt.mpr (by rw [hr]; exact r.isLt)), hr]
    rfl
  have hmap := List.map_flatten (f := UInt64.ofNat) (L := (List.range size.toNat).map fun r =>
    List.Ico (cut n.toNat size.toNat r) (cut n.toNat size.toNat (r + 1)))
  rw [List.map_map] at hmap
  rw [hshare]
  refine Eq.trans hmap.symm ?_
  rw [flatten_Ico (cut_mono _ _), cut_zero, cut_size _ h, List.Ico.zero_bot]
  rfl

/-- The same with the number of agents that a bulk operation keeps. -/
theorem agents_flatten (n : UInt64) {total : UInt32} (h : 0 < total) :
    (List.ofFn fun r : Fin total.toNat => share n (UInt64.ofNat r) total.toUInt64).flatten =
      indices n := by
  have hsize := UInt32.toNat_toUInt64 total
  rw [List.ofFn_congr hsize.symm]
  exact shares_flatten n (hsize ▸ UInt32.lt_iff_toNat_lt.mp h)

theorem share_subset {n size : UInt64} {r : Nat} (h : r < size.toNat) :
    share n (UInt64.ofNat r) size ⊆ indices n := by
  intro idx hidx
  rw [← shares_flatten n (Nat.zero_lt_of_lt h), List.mem_flatten]
  exact ⟨_, List.mem_ofFn.mpr ⟨⟨r, h⟩, rfl⟩, hidx⟩

theorem exists_share {n size idx : UInt64} (h : 0 < size.toNat) (hidx : idx ∈ indices n) :
    ∃ r, r < size.toNat ∧ idx ∈ share n (UInt64.ofNat r) size := by
  rw [← shares_flatten n h, List.mem_flatten] at hidx
  obtain ⟨l, hl, hidx⟩ := hidx
  obtain ⟨r, rfl⟩ := List.mem_ofFn.mp hl
  exact ⟨r, r.isLt, hidx⟩

theorem evenShare_le {n rank size : UInt64} (h : rank < size) :
    (evenShare n rank size).1 ≤ (evenShare n rank size).2 := by
  rw [UInt64.le_iff_toNat_le, (evenShare_eq h).1, (evenShare_eq h).2]
  exact cut_mono _ _ (Nat.le_succ _)

theorem length_share {n rank size : UInt64} (h : rank < size) : (share n rank size).length =
    n.toNat / size.toNat + if rank.toNat < n.toNat % size.toNat then 1 else 0 := by
  rw [share_eq h, List.length_map, List.Ico.length, cut_succ, Nat.add_sub_cancel_left]

/-- There are as many agents as there are indices or threads, whichever are fewer. -/
theorem numAgentsRequired_toNat (n : UInt64) (availableParallelism : UInt32) :
    (numAgentsRequired true n availableParallelism).toNat =
      min n.toNat availableParallelism.toNat := by
  have hmin : (min n availableParallelism.toUInt64).toNat =
      min n.toNat availableParallelism.toNat := by
    change (if n ≤ availableParallelism.toUInt64 then n else availableParallelism.toUInt64).toNat = _
    rw [apply_ite UInt64.toNat, UInt32.toNat_toUInt64, Nat.min_def]
    simp only [UInt64.le_iff_toNat_le, UInt32.toNat_toUInt64]
  have hlt := availableParallelism.toNat_lt
  rw [numAgentsRequired, if_pos rfl, UInt64.toNat_toUInt32, hmin]
  exact Nat.mod_eq_of_lt (by omega)

section Agents

variable {n : UInt64} {availableParallelism : UInt32}

/-- The agents of a parallel bulk operation get consecutive shares that are all the indices in
order, none of them empty, and no two of them differ by more than one index. -/
theorem shares_even (hn : 0 < n) (hp : 0 < availableParallelism) :
    ∃ total, numAgentsRequired true n availableParallelism = total ∧ 0 < total ∧
      (List.ofFn fun r : Fin total.toNat => share n (UInt64.ofNat r) total.toUInt64).flatten =
        indices n ∧
      Distributes n (fun r : Fin total.toNat => share n (UInt64.ofNat r) total.toUInt64) ∧
      ∀ r s : Fin total.toNat, share n (UInt64.ofNat r) total.toUInt64 ≠ [] ∧
        (share n (UInt64.ofNat r) total.toUInt64).length ≤
          (share n (UInt64.ofNat s) total.toUInt64).length + 1 := by
  have htotal := numAgentsRequired_toNat n availableParallelism
  generalize numAgentsRequired true n availableParallelism = total at htotal
  have hn' : 0 < n.toNat := UInt64.lt_iff_toNat_lt.mp hn
  have hp' : 0 < availableParallelism.toNat := UInt32.lt_iff_toNat_lt.mp hp
  have hpos : 0 < total := UInt32.lt_iff_toNat_lt.mpr (by rw [htotal]; exact Nat.lt_min.mpr ⟨hn', hp'⟩)
  have hflat := agents_flatten n hpos
  have hlength : ∀ r : Fin total.toNat, ∃ extra, extra ≤ 1 ∧
      (share n (UInt64.ofNat r) total.toUInt64).length = n.toNat / total.toNat + extra := by
    intro r
    have hr : (UInt64.ofNat r).toNat = r :=
      UInt64.toNat_ofNat_of_lt' (r.isLt.trans (total.toNat_lt.trans (by decide)))
    have hlt : UInt64.ofNat r < total.toUInt64 := by
      rw [UInt64.lt_iff_toNat_lt, hr, UInt32.toNat_toUInt64]
      exact r.isLt
    refine ⟨_, ?_, by rw [length_share hlt, UInt32.toNat_toUInt64]⟩
    split <;> omega
  have hdiv : 0 < n.toNat / total.toNat :=
    Nat.div_pos (by rw [htotal]; exact Nat.min_le_left _ _) (UInt32.lt_iff_toNat_lt.mp hpos)
  refine ⟨total, rfl, hpos, hflat, by rw [Distributes, hflat], fun r s => ?_⟩
  obtain ⟨extra, hle, hr⟩ := hlength r
  obtain ⟨extra', -, hs⟩ := hlength s
  refine ⟨fun hnil => ?_, by omega⟩
  rw [hnil, List.length_nil] at hr
  omega

end Agents

/-- Seven indices for at most three threads. -/
theorem shares_even_seven : ∃ total, numAgentsRequired true 7 3 = total ∧ total = 3 ∧
    (List.ofFn fun r : Fin total.toNat => share 7 (UInt64.ofNat r) total.toUInt64).flatten =
      indices 7 := by
  obtain ⟨total, htotal, -, hflat, -⟩ := shares_even (show (0 : UInt64) < 7 by decide)
    (show (0 : UInt32) < 3 by decide)
  exact ⟨total, htotal, htotal.symm, hflat⟩

end EvenShare
