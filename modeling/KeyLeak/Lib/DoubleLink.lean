import Mathlib.Data.List.Chain
import Mathlib.Data.List.Nodup
import Mathlib.Logic.Function.Basic

/-!
# Doubly linked lists with a fixed first node

Each node has a link to the next and a link to the previous node, and either can be null. A list
hangs on a first node that is never taken out. Nodes are added at the end and unlinked anywhere.
-/
namespace DoubleLink

variable {N : Type}

/-- The nodes of the list come one after the other behind `x`, linked both ways. -/
def Seg (next prev : N → Option N) (x : N) (l : List N) : Prop :=
  (x :: l).IsChain fun a b => next a = some b ∧ prev b = some a

/-- The list behind `x` ends with its last node. -/
structure Linked (next prev : N → Option N) (x : N) (l : List N) : Prop where
  seg : Seg next prev x l
  last : next (l.getLastD x) = none
  nodup : (x :: l).Nodup

variable {next prev next' prev' : N → Option N} {x y : N} {l m : List N}

@[simp] theorem seg_nil : Seg next prev x [] := List.isChain_singleton x
@[simp] theorem seg_cons :
    Seg next prev x (y :: l) ↔ next x = some y ∧ prev y = some x ∧ Seg next prev y l :=
  List.isChain_cons_cons.trans and_assoc

theorem getLastD_append : (l ++ m).getLastD x = m.getLastD (l.getLastD x) := by
  induction l generalizing x with
  | nil => rfl
  | cons y l ih => simp only [List.cons_append, List.getLastD_cons, ih]

theorem seg_append :
    Seg next prev x (l ++ m) ↔ Seg next prev x l ∧ Seg next prev (l.getLastD x) m := by
  induction l generalizing x with
  | nil => simp
  | cons y l ih => simp only [List.cons_append, seg_cons, ih, List.getLastD_cons, and_assoc]

/-- Only the links inside the segment matter: the next links of all its nodes but the last, and
the previous links of all its nodes but the first. -/
theorem Seg.congr (h : Seg next prev x l)
    (hnext : ∀ y ∈ x :: l, y ≠ l.getLastD x → next' y = next y) (nodup : (x :: l).Nodup)
    (hprev : ∀ y ∈ l, prev' y = prev y) : Seg next' prev' x l := by
  induction l generalizing x with
  | nil => exact seg_nil
  | cons y l ih =>
    obtain ⟨hx, hy, hl⟩ := seg_cons.mp h
    obtain ⟨hxl, hnodup⟩ := List.nodup_cons.mp nodup
    rw [List.getLastD_cons] at hnext
    refine seg_cons.mpr ⟨?_, by rw [hprev y List.mem_cons_self, hy], ih hl ?_ hnodup ?_⟩
    · rw [hnext x List.mem_cons_self (fun h => hxl (h ▸ List.getLastD_mem_cons)), hx]
    · exact fun z hz => hnext z (List.mem_cons_of_mem x hz)
    · exact fun z hz => hprev z (List.mem_cons_of_mem y hz)

/-- The list splits at each of its nodes. -/
theorem Linked.split (h : Linked next prev x (l ++ y :: m)) :
    Seg next prev x l ∧ next (l.getLastD x) = some y ∧ prev y = some (l.getLastD x) ∧
      next y = m.head? ∧ Linked next prev y m := by
  obtain ⟨hl, hrest⟩ := seg_append.mp h.seg
  obtain ⟨hx, hy, hm⟩ := seg_cons.mp hrest
  have hlinked : Linked next prev y m := by
    refine ⟨hm, ?_, ?_⟩
    · simpa only [getLastD_append, List.getLastD_cons] using h.last
    · exact (List.nodup_cons.mp h.nodup).2.sublist (List.sublist_append_right l _)
  refine ⟨hl, hx, hy, ?_, hlinked⟩
  cases m with
  | nil => exact hlinked.last
  | cons z m => exact (seg_cons.mp hm).1

section Write

variable [DecidableEq N]

/-- A new node is linked to the last. -/
theorem Linked.snoc (h : Linked next prev x l) (hy : y ∉ x :: l) :
    Linked (Function.update (Function.update next (l.getLastD x) (some y)) y none)
      (Function.update prev y (some (l.getLastD x))) x (l ++ [y]) := by
  have hlast : l.getLastD x ≠ y := fun h => hy (h ▸ List.getLastD_mem_cons)
  constructor
  · rw [seg_append]
    refine ⟨h.seg.congr ?_ h.nodup ?_, seg_cons.mpr ⟨?_, Function.update_self .., seg_nil⟩⟩
    · intro z hz hne
      rw [Function.update_of_ne (ne_of_mem_of_not_mem hz hy), Function.update_of_ne hne]
    · intro z hz
      exact Function.update_of_ne (ne_of_mem_of_not_mem (List.mem_cons_of_mem x hz) hy) ..
    · rw [Function.update_of_ne hlast, Function.update_self]
  · rw [List.getLastD_concat]
    exact Function.update_self ..
  · rw [← List.cons_append]
    exact List.nodup_append.mpr ⟨h.nodup, List.nodup_singleton y, by
      intro a ha b hb
      rw [List.mem_singleton] at hb
      exact hb ▸ ne_of_mem_of_not_mem ha hy⟩

/-- A node is unlinked: its neighbours are linked to each other. -/
theorem Linked.unlink (h : Linked next prev x (l ++ y :: m)) :
    Linked (Function.update next (l.getLastD x) (next y))
      ((next y).elim prev fun z => Function.update prev z (prev y)) x (l ++ m) := by
  obtain ⟨hl, -, hy, hhead, hm⟩ := h.split
  have hnodup : ((x :: l) ++ m).Nodup := by
    refine h.nodup.sublist ?_
    rw [List.cons_append]
    exact (List.Sublist.append_left (List.sublist_cons_self y m) l).cons_cons x
  obtain ⟨hxl, hmnodup, hdisjoint⟩ := List.nodup_append'.mp hnodup
  have hlast : l.getLastD x ∉ m := fun hin => hdisjoint List.getLastD_mem_cons hin
  have hrest : ∀ z ∈ m, z ∉ l.getLastD x :: l := by
    intro z hz hin
    rcases List.mem_cons.mp hin with rfl | hin
    · exact hlast hz
    · exact hdisjoint (List.mem_cons_of_mem x hin) hz
  have hfront : Seg (Function.update next (l.getLastD x) (next y))
      ((next y).elim prev fun z => Function.update prev z (prev y)) x l := by
    refine hl.congr (fun z _ hne => Function.update_of_ne hne ..) hxl fun z hz => ?_
    rw [hhead]
    cases m with
    | nil => rfl
    | cons w m =>
      refine Function.update_of_ne ?_ ..
      exact fun h => hrest w List.mem_cons_self (h ▸ List.mem_cons_of_mem _ hz)
  constructor
  · refine seg_append.mpr ⟨hfront, ?_⟩
    cases m with
    | nil => exact seg_nil
    | cons z m =>
      obtain ⟨-, -, hseg⟩ := seg_cons.mp hm.seg
      refine seg_cons.mpr ⟨by rw [Function.update_self, hhead]; rfl, ?_, hseg.congr ?_ hmnodup ?_⟩
      · rw [hhead, hy]
        exact Function.update_self ..
      · exact fun w hw _ => Function.update_of_ne (ne_of_mem_of_not_mem hw hlast) ..
      · intro w hw
        rw [hhead]
        exact Function.update_of_ne (ne_of_mem_of_not_mem hw (List.nodup_cons.mp hmnodup).1) ..
  · rw [getLastD_append]
    cases m with
    | nil => rw [List.getLastD_nil, Function.update_self, hhead, List.head?_nil]
    | cons z m =>
      rw [List.getLastD_cons, Function.update_of_ne]
      · simpa only [List.getLastD_cons] using hm.last
      · exact ne_of_mem_of_not_mem List.getLastD_mem_cons hlast
  · exact hnodup

end Write

end DoubleLink
