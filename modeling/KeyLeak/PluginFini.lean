import KeyLeak.PluginKeys
import KeyLeak.Probe

/-!
# What `plugin_fini` deletes

The deletion loop visits the recorded keys in order. Its effect on the table is that
of giving back the recorded slots, duplicates and stale entries included; what each
single deletion finds depends on the slots visited before it.

The second half ties this level to the process-wide table: who owns a slot is known
here only, and every step is one of the two library calls or none.
-/
namespace PluginFini

open SlotPool KeyTable Probe Runs PluginKeys

variable {P : Platform}

theorem finiLoop_keys (t : Pool (Key P) Entry) (ks : List (Key P)) :
    (finiLoop t ks).2 = dropAll t ks := by
  induction ks generalizing t with
  | nil => rfl
  | cons k ks ih => simp [finiLoop, ih]

/-- A deletion finds its slot vacant, or holding what it held when the loop began. -/
theorem finiLoop_found {t : Pool (Key P) Entry} {ks : List (Key P)} {k : Key P} {x : Entry}
    (h : (k, some x) ∈ (finiLoop t ks).1) : k ∈ ks ∧ t k = some x := by
  induction ks generalizing t with
  | nil => simp [finiLoop] at h
  | cons j ks ih =>
    simp only [finiLoop, List.mem_cons, Prod.mk.injEq] at h
    rcases h with ⟨rfl, hx⟩ | h
    · exact ⟨by simp, hx.symm⟩
    · obtain ⟨hk, hx⟩ := ih h
      by_cases hj : k = j
      · subst hj
        simp at hx
      · rw [drop_other _ _ _ hj] at hx
        exact ⟨List.mem_cons_of_mem _ hk, hx⟩

/-- Every recorded slot is hit at least once with what it held. -/
theorem finiLoop_hits {t : Pool (Key P) Entry} {ks : List (Key P)} {k : Key P} (h : k ∈ ks) :
    (k, t k) ∈ (finiLoop t ks).1 := by
  induction ks generalizing t with
  | nil => cases h
  | cons j ks ih =>
    simp only [finiLoop, List.mem_cons, Prod.mk.injEq]
    by_cases hj : k = j
    · subst hj
      exact .inl ⟨rfl, rfl⟩
    · have hk : k ∈ ks := (List.mem_cons.mp h).resolve_left hj
      have := ih (t := drop t j) hk
      rw [drop_other _ _ _ hj] at this
      exact .inr this

theorem finiLoop_returned_le (t : Pool (Key P) Entry) (ks : List (Key P)) :
    (finiLoop t ks).1.countP (fun d => d.2.isSome) ≤ ks.length := by
  induction ks generalizing t with
  | nil => simp [finiLoop]
  | cons k ks ih =>
    have := ih (drop t k)
    simp only [finiLoop, List.countP_cons, List.length_cons]
    split <;> omega

/-- All deletions succeed exactly when the list is the record of distinct keys that
are all still allocated. -/
theorem finiLoop_returned_eq_iff (t : Pool (Key P) Entry) (ks : List (Key P)) :
    (finiLoop t ks).1.countP (fun d => d.2.isSome) = ks.length ↔
      ks.Nodup ∧ ∀ k ∈ ks, t k ≠ none := by
  induction ks generalizing t with
  | nil => simp [finiLoop]
  | cons k ks ih =>
    have hle := finiLoop_returned_le (drop t k) ks
    have hrest : (∀ j ∈ ks, drop t k j ≠ none) ↔ k ∉ ks ∧ ∀ j ∈ ks, t j ≠ none := by
      constructor
      · intro h
        refine ⟨fun hk => h k hk (drop_same t k), fun j hj => ?_⟩
        by_cases hjk : j = k
        · subst hjk
          exact absurd (drop_same t j) (h j hj)
        · have := h j hj
          rwa [drop_other _ _ _ hjk] at this
      · rintro ⟨hk, h⟩ j hj
        have hjk : j ≠ k := by
          rintro rfl
          exact hk hj
        rw [drop_other _ _ _ hjk]
        exact h j hj
    cases hk : t k with
    | none =>
      simp only [finiLoop, hk, List.countP_cons, Option.isSome_none, List.length_cons]
      constructor
      · intro h
        simp at h
        omega
      · rintro ⟨-, h⟩
        exact absurd hk (h k (by simp))
    | some x =>
      have := ih (drop t k)
      rw [hrest] at this
      simp only [finiLoop, hk, List.countP_cons, Option.isSome_some, if_true, List.length_cons,
        Nat.add_right_cancel_iff, this, List.nodup_cons, List.forall_mem_cons]
      simp only [ne_eq, reduceCtorEq, not_false_eq_true, true_and]
      tauto

@[simp] theorem pluginFini_keys (s : Life P) :
    (pluginFini s).life.keys = dropAll s.keys s.gTrackedKeys := finiLoop_keys _ _

@[simp] theorem pluginFini_reported (s : Life P) :
    (pluginFini s).reported = s.gTrackedKeys.length := rfl

/-- The report is exact exactly when every entry is a distinct live key. -/
theorem reported_eq_returned_iff (s : Life P) :
    (pluginFini s).reported = (pluginFini s).returned ↔
      s.gTrackedKeys.Nodup ∧ ∀ k ∈ s.gTrackedKeys, s.keys k ≠ none := by
  rw [← finiLoop_returned_eq_iff]
  exact eq_comm

/-- A slot survives `plugin_fini` exactly when it is not recorded. -/
theorem pluginFini_survives {s : Life P} {k : Key P} {x : Entry} :
    (pluginFini s).life.keys k = some x ↔ k ∉ s.gTrackedKeys ∧ s.keys k = some x := by
  rw [pluginFini_keys, dropAll_apply]
  by_cases hk : k ∈ s.gTrackedKeys <;> simp [hk]

/-- What a step does to the process-wide table: a create of a vacant slot, a
`pthread_key_delete`, or nothing. -/
theorem step_table {s t : Life P} {e : Event P} (h : step s e = some t) (calls : Nat) :
    (∃ k d, s.table k = none ∧ t.table = put s.table k d) ∨
    (∃ k, t.table = (pthreadKeyDelete ⟨s.table, calls⟩ k).keys) ∨ t.table = s.table := by
  cases e with
  | realCreate k d | hostCreate k d =>
    simp only [step] at h
    split at h
    · rename_i hv
      cases h
      exact .inl ⟨k, d, by simp [Life.table, hv], relabel_put _ _ _ _⟩
    · cases h
  | realCreateFails =>
    cases h
    exact .inr (.inr rfl)
  | pushBack k =>
    simp only [step] at h
    split at h
    · cases h
      exact .inr (.inr rfl)
    · cases h
  | pluginDelete k =>
    simp only [step] at h
    split at h
    · cases h
      exact .inr (.inl ⟨k, relabel_drop _ _ _⟩)
    · cases h
  | hostDelete k =>
    cases h
    exact .inr (.inl ⟨k, relabel_drop _ _ _⟩)

/-- And `plugin_fini` is the loop of `pthread_key_delete` over the recorded keys. -/
theorem pluginFini_table (s : Life P) (calls : Nat) :
    (pluginFini s).life.table = (deleteLoop ⟨s.table, calls⟩ s.gTrackedKeys).keys := by
  rw [Life.table, pluginFini_keys, relabel_dropAll, deleteLoop_eq]
  rfl

/-- An uninterrupted wrapped call is its real create followed by its recording, or a
failed create. -/
theorem wrapPthreadKeyCreate_run (A : Policy (Key P) Dtor) (calls : Nat) (s : Life P)
    (dtor : Dtor) :
    (∃ k, (wrapPthreadKeyCreate A calls s dtor).1 = 0 ∧
      run step s [.realCreate k dtor, .pushBack k] =
        some (wrapPthreadKeyCreate A calls s dtor).2) ∨
    (free s.table = 0 ∧ (wrapPthreadKeyCreate A calls s dtor).1 = EAGAIN ∧
      run step s [.realCreateFails] = some (wrapPthreadKeyCreate A calls s dtor).2) := by
  rcases pthreadKeyCreate_cases A ⟨s.table, calls⟩ dtor with ⟨k, hk, h⟩ | ⟨hfull, h⟩
  · have hv : s.keys k = none := by simpa [Life.table] using hk
    refine .inl ⟨k, ?_, ?_⟩ <;> simp [wrapPthreadKeyCreate, h, step, hv]
  · refine .inr ⟨hfull, ?_, ?_⟩ <;> simp [wrapPthreadKeyCreate, h, step]

end PluginFini
