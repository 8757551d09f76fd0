import Mathlib.Algebra.Order.BigOperators.Group.Finset
import KeyLeak.Lib.Runs

/-!
# Threads over one shared state

Every thread has a state of its own, all threads have one state in common, and one
atomic step reads and writes both. A schedule is any word of thread names. The rules
below lift what one step does to one thread to whole schedules.
-/
namespace Workers

open Runs

variable {ι L G : Type}

structure Crew (ι L G : Type) where
  thread : ι → L
  shared : G

/-- The scheduler lets thread `i` make one step; `none` when it has nothing to do. -/
def pick [DecidableEq ι] (body : L → G → Option (L × G)) (s : Crew ι L G) (i : ι) :
    Option (Crew ι L G) :=
  (body (s.thread i) s.shared).map (fun r => ⟨Function.update s.thread i r.1, r.2⟩)

/-- No thread can move. -/
def Quiescent (body : L → G → Option (L × G)) (s : Crew ι L G) : Prop :=
  ∀ i, body (s.thread i) s.shared = none

variable [DecidableEq ι] {body : L → G → Option (L × G)} {s t : Crew ι L G} {schedule : List ι}

theorem pick_some {i : ι} (h : pick body s i = some t) :
    ∃ l g, body (s.thread i) s.shared = some (l, g) ∧ t = ⟨Function.update s.thread i l, g⟩ := by
  obtain ⟨⟨l, g⟩, hb, rfl⟩ := Option.map_eq_some_iff.mp h
  exact ⟨l, g, hb, rfl⟩

/-- What every step keeps of one thread, every schedule keeps of all threads. -/
theorem run_threads {I : L → Prop} (keep : ∀ l g l' g', I l → body l g = some (l', g') → I l')
    (h : run (pick body) s schedule = some t) (hs : ∀ i, I (s.thread i)) : ∀ i, I (t.thread i) := by
  refine run_invariant (I := fun u => ∀ i, I (u.thread i)) ?_ hs h
  intro u i v hu hv j
  obtain ⟨l, g, hb, rfl⟩ := pick_some hv
  by_cases hj : j = i
  · subst hj
    simpa using keep _ _ _ _ (hu j) hb
  · simpa [hj] using hu j

/-- Rely and guarantee: what a thread knows of itself and of the shared state survives
its own steps, and the steps of the others as far as all of them keep to `R`. -/
theorem run_rely {I : ι → L → G → Prop} {R : G → G → Prop}
    (own : ∀ i l g l' g', I i l g → body l g = some (l', g') → I i l' g' ∧ R g g')
    (stable : ∀ i l g g', I i l g → R g g' → I i l g')
    (h : run (pick body) s schedule = some t) (hs : ∀ i, I i (s.thread i) s.shared) :
    ∀ i, I i (t.thread i) t.shared := by
  refine run_invariant (I := fun u => ∀ i, I i (u.thread i) u.shared) ?_ hs h
  intro u i v hu hv j
  obtain ⟨l, g, hb, rfl⟩ := pick_some hv
  obtain ⟨hown, hR⟩ := own _ _ _ _ _ (hu i) hb
  by_cases hj : j = i
  · subst hj
    simpa using hown
  · simpa [hj] using stable _ _ _ _ (hu j) hR

section Sums

variable [Fintype ι]

/-- Changing one thread changes one summand. -/
theorem sum_update {M : Type} [AddCommMonoid M] (w : L → M) (f : ι → L) (i : ι) (l : L) :
    ∑ j, w (Function.update f i l j) + w (f i) = ∑ j, w (f j) + w l := by
  have hrest : ∑ j ∈ Finset.univ.erase i, w (Function.update f i l j) =
      ∑ j ∈ Finset.univ.erase i, w (f j) := by
    apply Finset.sum_congr rfl
    intro j hj
    rw [Function.update_of_ne (Finset.ne_of_mem_erase hj)]
  rw [← Finset.sum_erase_add _ (fun j => w (Function.update f i l j)) (Finset.mem_univ i),
    ← Finset.sum_erase_add _ (fun j => w (f j)) (Finset.mem_univ i), hrest, Function.update_self]
  exact add_right_comm _ _ _

/-- The same with summands that depend on the thread. -/
theorem sum_update_at {M : Type} [AddCommMonoid M] (w : ι → L → M) (f : ι → L) (i : ι) (l : L) :
    ∑ j, w j (Function.update f i l j) + w i (f i) = ∑ j, w j (f j) + w i l := by
  rw [← sum_update (fun x => w x.1 x.2) (fun j => (j, f j)) i (i, l)]
  congr 1
  apply Finset.sum_congr rfl
  intro j _
  by_cases hj : j = i
  · subst hj
    simp
  · simp [hj]

/-- A shared quantity together with what each thread still owes it is conserved by
every schedule, if every step conserves it as long as its own two parts stay within a
bound, and the whole is within the bound at the start. -/
theorem run_conserves {M : Type} [AddCancelCommMonoid M] [PartialOrder M] [IsOrderedAddMonoid M]
    {v : G → M} {w : L → M} {bound : M} (hw : ∀ l, 0 ≤ w l)
    (keep : ∀ l g l' g', body l g = some (l', g') → v g + w l ≤ bound → v g' + w l' = v g + w l)
    (h : run (pick body) s schedule = some t) (hs : v s.shared + ∑ i, w (s.thread i) ≤ bound) :
    v t.shared + ∑ i, w (t.thread i) = v s.shared + ∑ i, w (s.thread i) := by
  refine run_invariant (I := fun u => v u.shared + ∑ i, w (u.thread i) =
    v s.shared + ∑ i, w (s.thread i)) ?_ rfl h
  intro u i u' hu hu'
  obtain ⟨l, g, hb, rfl⟩ := pick_some hu'
  have hone : w (u.thread i) ≤ ∑ j, w (u.thread j) :=
    Finset.single_le_sum (f := fun j => w (u.thread j)) (fun j _ => hw _) (Finset.mem_univ i)
  have hle : v u.shared + w (u.thread i) ≤ bound :=
    le_trans (add_le_add_right hone _) (hu ▸ hs)
  have hstep := keep _ _ _ _ hb hle
  rw [← hu]
  apply add_right_cancel (b := w (u.thread i))
  calc v g + ∑ j, w (Function.update u.thread i l j) + w (u.thread i)
      = v g + (∑ j, w (u.thread j) + w l) := by rw [add_assoc, sum_update]
    _ = (v g + w l) + ∑ j, w (u.thread j) := by rw [add_comm _ (w l), add_assoc]
    _ = v u.shared + ∑ j, w (u.thread j) + w (u.thread i) := by rw [hstep, add_right_comm]

variable {m : L → Nat}

/-- If every step uses up some work of its thread, schedules are no longer than the
work there is. -/
theorem run_length_le (less : ∀ l g l' g', body l g = some (l', g') → m l' < m l)
    (h : run (pick body) s schedule = some t) :
    schedule.length + ∑ i, m (t.thread i) ≤ ∑ i, m (s.thread i) := by
  refine run_induction (motive := fun es u => es.length + ∑ i, m (u.thread i) ≤
    ∑ i, m (s.thread i)) (by simp) ?_ h
  intro es u i u' _ hu hu'
  obtain ⟨l, g, hb, rfl⟩ := pick_some hu'
  have := less _ _ _ _ hb
  have := sum_update m u.thread i l
  simp only [List.length_append, List.length_singleton]
  omega

/-- And then every state can be run until no thread can move. -/
theorem exists_quiescent (less : ∀ l g l' g', body l g = some (l', g') → m l' < m l)
    (s : Crew ι L G) : ∃ rest t, run (pick body) s rest = some t ∧ Quiescent body t := by
  by_cases hq : Quiescent body s
  · exact ⟨[], s, rfl, hq⟩
  · obtain ⟨i, hi⟩ := not_forall.mp hq
    obtain ⟨⟨l, g⟩, hb⟩ := Option.ne_none_iff_exists'.mp hi
    have hp : pick body s i = some ⟨Function.update s.thread i l, g⟩ := by simp [pick, hb]
    have hless := less _ _ _ _ hb
    have hsum := sum_update m s.thread i l
    obtain ⟨rest, t, hrun, ht⟩ := exists_quiescent less ⟨Function.update s.thread i l, g⟩
    exact ⟨i :: rest, t, by rw [run_cons, hp, Option.bind_some, hrun], ht⟩
termination_by ∑ i, m (s.thread i)

end Sums

end Workers
