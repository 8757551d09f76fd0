import KeyLeak.PluginFini

/-!
# Whose keys the plugin deletes, and which it leaves

The recorded list only grows while keys die and slots are given out again. Three
questions are settled here over all interleavings of one load: whether
`plugin_fini` can delete a key of the host, whether it can miss a key of the plugin,
and whether the list is a record of live keys at all. Each has an exact condition on
the interleaving, and each condition can fail.
-/
namespace PluginOwnership

open SlotPool KeyTable Runs PluginKeys PluginFini

variable {P : Platform}

/-- Every deletion hits a vacant slot or a key of the plugin. -/
def SparesHost (f : Fini P) : Prop := ∀ k x, (k, some x) ∈ f.deletes → x.owner = .plugin

/-- Whenever the host is given a slot that this load records, the slot is deleted
again before the unload. -/
def HostReuseUndone (evs : List (Event P)) : Prop :=
  ∀ a k d b, evs = a ++ .hostCreate k d :: b → .pushBack k ∈ evs → ∃ e ∈ b, e.deletes = some k

/-- The host's keys are safe exactly while no recorded slot has passed to the host. -/
theorem fini_spares_host_iff {keys : Pool (Key P) Entry} {evs : List (Event P)} {s : Life P}
    (h : run step (afterInit keys) evs = some s) :
    SparesHost (pluginFini s) ↔ HostReuseUndone evs := by
  have ht := tracked_afterInit h
  constructor
  · intro hs a k d b he hk
    by_contra hb
    push Not at hb
    subst he
    have hx := run_created (x := ⟨.host, d⟩) h rfl hb
    have hit : (k, some ⟨.host, d⟩) ∈ (pluginFini s).deletes := by
      have := finiLoop_hits (t := s.keys) (ht ▸ mem_pushed.mpr hk : k ∈ s.gTrackedKeys)
      rwa [hx] at this
    cases hs k _ hit
  · intro hr k x hx
    obtain ⟨hk, hx⟩ := finiLoop_found hx
    rw [ht] at hk
    rcases run_history h hx with ⟨hstart, hd⟩ | ⟨a, e, b, rfl, hc, hb⟩
    · obtain ⟨d, hd'⟩ := mem_obtained.mp (obtained_of_pushed h hk)
      exact absurd rfl ((run_persists h hstart hd).2 _ hd' ⟨.plugin, d⟩)
    · by_contra ho
      have he := creates_for_host hc ho
      subst he
      obtain ⟨y, hy, hyd⟩ := hr a k x.dtor b rfl (mem_pushed.mp hk)
      exact hb y hy hyd

/-- Once the plugin deletes a key of its own and the host is given the slot, the recorded
number is the host's key. -/
theorem fini_hits_host : ¬ ∀ (P : Platform) (keys : Pool (Key P) Entry) (evs : List (Event P))
    (s : Life P), run step (afterInit keys) evs = some s → SparesHost (pluginFini s) := by
  intro h
  have := h glibc (fun _ => none)
    [.realCreate 0 (some (.plugin, 0)), .pushBack 0, .pluginDelete 0, .hostCreate 0 none] _ rfl
  exact absurd (this 0 ⟨.host, none⟩ (by decide)) (by decide)

theorem fini_spares_host_iff_at_reuse : ∃ s : Life glibc,
    run step (afterInit fun _ => none) [.realCreate 0 none, .pushBack 0, .hostCreate 1 none] = some s ∧
    (SparesHost (pluginFini s) ↔
      HostReuseUndone [.realCreate 0 none, .pushBack 0, .hostCreate (P := glibc) 1 none]) :=
  ⟨_, rfl, fini_spares_host_iff (show run step (afterInit fun _ => none) _ = some _ from rfl)⟩

/-- No slot is held by an allocation of this load. -/
def Reclaimed (t : Pool (Key P) Entry) : Prop := ∀ k x, t k = some x → x.owner ≠ .plugin

/-- A destructor in the plugin's image. -/
def InPlugin (d : Dtor) : Prop := ∃ f, d = some (.plugin, f)

/-- Every key that a wrapped call obtains is deleted by somebody before the unload, or
recorded after `plugin_init` has cleared the list. -/
def KeysSettled (pre post : List (Event P)) : Prop :=
  ∀ a k d b, pre ++ post = a ++ .realCreate k d :: b →
    (∃ e ∈ b, e.deletes = some k) ∨ .pushBack k ∈ post

/-- The same of the keys obtained before `plugin_init` alone. -/
def EarlyKeysSettled (pre post : List (Event P)) : Prop :=
  ∀ a k d b, pre = a ++ .realCreate k d :: b →
    (∃ e ∈ b ++ post, e.deletes = some k) ∨ .pushBack k ∈ post

/-- The two halves of a lifetime, and what the second leaves in the list. -/
theorem lifetime_halves {t : Table P} {pre post : List (Event P)} {s : Life P}
    (h : lifetime t pre post = some s) :
    ∃ u, run step (load t) pre = some u ∧ run step (pluginInit u) post = some s ∧
      s.gTrackedKeys = pushed post := by
  obtain ⟨u, hu, hs⟩ := Option.bind_eq_some_iff.mp h
  refine ⟨u, hu, hs, ?_⟩
  simpa [pluginInit] using run_tracked hs

/-- Why a slot is held at the unload: it was at the load, or an event of one of the two
halves allocated it, and nobody has deleted it since. -/
theorem lifetime_history {t : Table P} {pre post : List (Event P)} {s : Life P}
    {k : Key P} {x : Entry} (h : lifetime t pre post = some s) (hx : s.keys k = some x) :
    (∃ d, t k = some d ∧ x = ⟨.host, d⟩) ∨
    ∃ a e b, pre ++ post = a ++ e :: b ∧ e.creates = some (k, x) ∧
      ∀ y ∈ b, y.deletes ≠ some k := by
  obtain ⟨u, hu, hs, -⟩ := lifetime_halves h
  rcases run_history hs hx with ⟨hxu, hpost⟩ | ⟨a, e, b, rfl, hc, hb⟩
  · rcases run_history hu hxu with ⟨hx₀, -⟩ | ⟨a, e, b, rfl, hc, hb⟩
    · simp only [load, relabel_apply, Option.map_eq_some_iff] at hx₀
      obtain ⟨d, hd, rfl⟩ := hx₀
      exact .inl ⟨d, hd, rfl⟩
    · refine .inr ⟨a, e, b ++ post, by simp, hc, fun y hy => ?_⟩
      rcases List.mem_append.mp hy with hy | hy
      · exact hb y hy
      · exact hpost y hy
  · exact .inr ⟨pre ++ a, e, b, by simp, hc, hb⟩

/-- An event of a lifetime belongs to one of its halves. -/
theorem halves_cases {pre post a b : List (Event P)} {e : Event P}
    (h : pre ++ post = a ++ e :: b) :
    (∃ b', pre = a ++ e :: b' ∧ b = b' ++ post) ∨ ∃ a', post = a' ++ e :: b := by
  rcases List.append_eq_append_iff.mp h with ⟨a', -, hp⟩ | ⟨c, hp, hc⟩
  · exact .inr ⟨a', hp⟩
  · cases c with
    | nil => exact .inr ⟨[], hc.symm⟩
    | cons e' b' =>
      obtain ⟨rfl, rfl⟩ := List.cons.inj hc
      exact .inl ⟨b', hp, rfl⟩

/-- The converse: `plugin_init` frees no slot, so an allocation that nobody deletes is
there at the unload, whichever half made it. -/
theorem lifetime_created {t : Table P} {pre post a b : List (Event P)} {e : Event P} {s : Life P}
    {k : Key P} {x : Entry} (h : lifetime t pre post = some s) (he : pre ++ post = a ++ e :: b)
    (hc : e.creates = some (k, x)) (hb : ∀ y ∈ b, y.deletes ≠ some k) : s.keys k = some x := by
  obtain ⟨u, hu, hs, -⟩ := lifetime_halves h
  rcases halves_cases he with ⟨b', rfl, rfl⟩ | ⟨a', rfl⟩
  · have hxu := run_created hu hc (fun y hy => hb y (List.mem_append_left _ hy))
    exact (run_persists hs hxu (fun y hy => hb y (List.mem_append_right _ hy))).1
  · exact run_created hs hc hb

/-- `plugin_fini` reclaims every key of the load exactly when the keys are settled; when
all wrapped calls have returned only those obtained before `plugin_init` can fail to be;
and once all are reclaimed no destructor of the unloaded image is left in the table. -/
theorem fini_reclaims_iff {t : Table P} {pre post : List (Event P)} {s : Life P}
    (h : lifetime t pre post = some s) :
    (Reclaimed (pluginFini s).life.keys ↔ KeysSettled pre post) ∧
    (s.inFlight = [] → (KeysSettled pre post ↔ EarlyKeysSettled pre post)) ∧
    (Reclaimed (pluginFini s).life.keys → (∀ k d, t k = some d → ¬ InPlugin d) →
      (∀ k d, .hostCreate k d ∈ pre ++ post → ¬ InPlugin d) →
      ∀ k d, (pluginFini s).life.table k = some d → ¬ InPlugin d) := by
  obtain ⟨u, hu, hs, ht⟩ := lifetime_halves h
  refine ⟨⟨?_, ?_⟩, fun hdone => ⟨?_, ?_⟩, ?_⟩
  · intro hr a k d b he
    by_contra hn
    push Not at hn
    obtain ⟨hdel, hpush⟩ := hn
    have hx := lifetime_created (x := ⟨.plugin, d⟩) h he rfl hdel
    have hk : k ∉ s.gTrackedKeys := by
      rw [ht, mem_pushed]
      exact hpush
    exact hr k _ (pluginFini_survives.mpr ⟨hk, hx⟩) rfl
  · intro hset k x hx hown
    obtain ⟨hk, hx⟩ := pluginFini_survives.mp hx
    rw [ht] at hk
    rcases lifetime_history h hx with ⟨d, -, rfl⟩ | ⟨a, e, b, he, hc, hb⟩
    · cases hown
    · rcases hset a k x.dtor b (creates_for_plugin hc hown ▸ he) with ⟨y, hy, hyd⟩ | hpush
      · exact hb y hy hyd
      · exact hk (mem_pushed.mpr hpush)
  · intro hset a k d b he
    exact hset a k d (b ++ post) (by simp [he])
  · intro hset a k d b he
    rcases halves_cases he with ⟨b', rfl, rfl⟩ | ⟨a', rfl⟩
    · exact hset a k d b' rfl
    · have hobt : k ∈ obtained (a' ++ .realCreate k d :: b) := mem_obtained.mpr ⟨d, by simp⟩
      exact .inr (mem_pushed.mp (pushed_of_obtained hs hdone hobt))
  · intro hr hstart hhost k d hd
    simp only [Life.table, relabel_apply, Option.map_eq_some_iff] at hd
    obtain ⟨x, hx, rfl⟩ := hd
    have hown := hr k x hx
    rcases lifetime_history h (pluginFini_survives.mp hx).2 with
      ⟨d, hd, rfl⟩ | ⟨a, e, b, he, hc, -⟩
    · exact hstart k d hd
    · exact hhost k x.dtor (by simp [he, creates_for_host hc hown])

/-- One key of a constructor that runs before `plugin_init` is enough. -/
theorem fini_misses_early_key : ¬ ∀ (P : Platform) (t : Table P) (pre post : List (Event P))
    (s : Life P), lifetime t pre post = some s → s.inFlight = [] →
    Reclaimed (pluginFini s).life.keys := by
  intro h
  have := h glibc (fun _ => none) [.realCreate 0 (some (.plugin, 0)), .pushBack 0] [] _ rfl rfl
  exact this 0 ⟨.plugin, some (.plugin, 0)⟩ (by decide) rfl

theorem fini_reclaims_iff_at_late_key : ∃ s : Life glibc,
    lifetime (fun _ => none) [.realCreateFails] [.realCreate 0 none, .pushBack 0] = some s ∧
    (Reclaimed (pluginFini s).life.keys ↔
      KeysSettled [.realCreateFails] [.realCreate (P := glibc) 0 none, .pushBack 0]) ∧
    (KeysSettled [.realCreateFails] [.realCreate (P := glibc) 0 none, .pushBack 0] ↔
      EarlyKeysSettled [.realCreateFails] [.realCreate (P := glibc) 0 none, .pushBack 0]) := by
  refine ⟨_, rfl, ?_⟩
  have h := fini_reclaims_iff (show lifetime (fun _ => none) [.realCreateFails]
    [.realCreate (P := glibc) 0 none, .pushBack 0] = some _ from rfl)
  exact ⟨h.1, h.2.1 rfl⟩

/-- In every state reached the list holds no key twice and at most
`PTHREAD_KEYS_MAX` entries, and at the unload the reported number of deleted keys is
the number of slots really given back. -/
structure RecordFaithful (keys : Pool (Key P) Entry) (evs : List (Event P)) (s : Life P) :
    Prop where
  nodup : ∀ pre post u, evs = pre ++ post → run step (afterInit keys) pre = some u →
    u.gTrackedKeys.Nodup ∧ u.gTrackedKeys.length ≤ P.PTHREAD_KEYS_MAX
  report : (pluginFini s).reported = (pluginFini s).returned

/-- The plugin deletes no key that it obtained since `plugin_init`. -/
def KeepsOwnKeys (evs : List (Event P)) : Prop :=
  ∀ a k b, evs = a ++ .pluginDelete k :: b → ∀ d, .realCreate k d ∉ a

theorem KeepsOwnKeys.of_append {es fs : List (Event P)} (h : KeepsOwnKeys (es ++ fs)) :
    KeepsOwnKeys es := by
  intro a k b he d
  exact h a k (b ++ fs) (by simp [he]) d

/-- While the plugin keeps its keys, no slot is obtained twice and each obtained slot
stays allocated. -/
theorem obtained_live {keys : Pool (Key P) Entry} {evs : List (Event P)} {s : Life P}
    (h : run step (afterInit keys) evs = some s) (hplug : ∀ e ∈ evs, e.byPlugin)
    (hkeep : KeepsOwnKeys evs) :
    (obtained evs).Nodup ∧ ∀ k ∈ obtained evs, s.keys k ≠ none := by
  revert hplug hkeep
  refine run_induction (motive := fun es u => (∀ e ∈ es, e.byPlugin) → KeepsOwnKeys es →
    (obtained es).Nodup ∧ ∀ k ∈ obtained es, u.keys k ≠ none)
    (fun _ _ => ⟨by simp [obtained], by simp [obtained]⟩) ?_ h
  intro es u e v _ ih he hplug hkeep
  obtain ⟨hn, hl⟩ := ih (fun y hy => hplug y (List.mem_append_left _ hy)) hkeep.of_append
  have hstep := step_spec he
  rw [obtained_snoc]
  cases e with
  | realCreate k d =>
    have hk : k ∉ obtained es := fun hk => hl k hk (hstep.vacant k ⟨.plugin, d⟩ rfl)
    refine ⟨List.nodup_append.mpr ⟨hn, by simp [Event.obtains], ?_⟩, fun j hj => ?_⟩
    · rintro a ha b hb rfl
      have hak : a = k := by simpa [Event.obtains] using hb
      exact hk (hak ▸ ha)
    · rw [hstep.keys]
      by_cases hjk : j = k
      · simp [Event.after, Event.creates, hjk]
      · have hj' : j ∈ obtained es := by simpa [Event.obtains, hjk] using hj
        simpa [Event.after, Event.creates, hjk] using hl j hj'
  | pluginDelete k =>
    simp only [Event.obtains, Option.toList_none, List.append_nil]
    refine ⟨hn, fun j hj => ?_⟩
    have hjk : j ≠ k := by
      rintro rfl
      obtain ⟨d, hd⟩ := mem_obtained.mp hj
      exact hkeep es j [] rfl d hd
    rw [hstep.keys]
    simpa [Event.after, Event.creates, Event.deletes, hjk] using hl j hj
  | realCreateFails | pushBack =>
    simp only [Event.obtains, Option.toList_none, List.append_nil]
    refine ⟨hn, fun j hj => ?_⟩
    rw [hstep.keys]
    simpa [Event.after, Event.creates, Event.deletes] using hl j hj
  | hostCreate | hostDelete => exact (hplug _ (List.mem_append_right _ List.mem_cons_self)).elim

/-- A slot that the plugin has deleted and that is held at the end was obtained again. -/
theorem obtained_twice {keys : Pool (Key P) Entry} {a b : List (Event P)} {k : Key P} {d : Dtor}
    {s : Life P} (h : run step (afterInit keys) (a ++ .pluginDelete k :: b) = some s)
    (hplug : ∀ e ∈ b, e.byPlugin) (hd : .realCreate k d ∈ a) (hlive : s.keys k ≠ none) :
    1 < (obtained (a ++ .pluginDelete k :: b)).count k := by
  obtain ⟨x, hx⟩ := Option.ne_none_iff_exists'.mp hlive
  obtain ⟨u, -, hu⟩ := run_append_some h
  obtain ⟨v, hv, hs⟩ := Option.bind_eq_some_iff.mp hu
  have hvk : v.keys k = none := by
    rw [(step_spec hv).keys]
    exact after_of_deletes rfl _
  have hfirst : 0 < (obtained a).count k := List.count_pos_iff.mpr (mem_obtained.mpr ⟨d, hd⟩)
  have hagain : 0 < (obtained b).count k := by
    rcases run_history hs hx with ⟨hvx, -⟩ | ⟨c, e, c', rfl, hc, -⟩
    · rw [hvk] at hvx
      cases hvx
    · have he := creates_byPlugin hc (hplug e (by simp))
      exact List.count_pos_iff.mpr (mem_obtained.mpr ⟨x.dtor, by simp [he]⟩)
  unfold obtained at *
  rw [List.filterMap_append, List.count_append, List.filterMap_cons_none rfl]
  omega

/-- Recording keeps up with obtaining: no key is in the list more often than it was
obtained. -/
theorem tracked_nodup {keys : Pool (Key P) Entry} {evs : List (Event P)} {s : Life P}
    (h : run step (afterInit keys) evs = some s) (hn : (obtained evs).Nodup) :
    s.gTrackedKeys.Nodup := by
  rw [tracked_afterInit h, List.nodup_iff_count_le_one]
  intro k
  have hone := List.nodup_iff_count_le_one.mp hn k
  have hflow := run_inFlight h k
  simp only [afterInit, List.count_nil] at hflow
  omega

/-- The recorded list is a faithful record exactly when the plugin never deletes a key
that it obtained in this load. -/
theorem record_faithful_iff {keys : Pool (Key P) Entry} {evs : List (Event P)} {s : Life P}
    (h : run step (afterInit keys) evs = some s) (hplug : ∀ e ∈ evs, e.byPlugin)
    (hdone : s.inFlight = []) : RecordFaithful keys evs s ↔ KeepsOwnKeys evs := by
  have ht := tracked_afterInit h
  constructor
  · rintro ⟨-, hreport⟩ a k b he d hd
    obtain ⟨hnd, hlive⟩ := (reported_eq_returned_iff s).mp hreport
    rw [ht] at hnd hlive
    have hk : k ∈ obtained evs := mem_obtained.mpr ⟨d, by simp [he, hd]⟩
    have hkp : k ∈ pushed evs := pushed_of_obtained h hdone hk
    have hone := List.nodup_iff_count_le_one.mp hnd k
    have hflow := run_inFlight h k
    rw [hdone] at hflow
    simp only [afterInit, List.count_nil] at hflow
    subst he
    have htwo := obtained_twice h (fun e he => hplug e (by simp [he])) hd (hlive k hkp)
    omega
  · intro hkeep
    have hnodup : ∀ pre post u, evs = pre ++ post → run step (afterInit keys) pre = some u →
        u.gTrackedKeys.Nodup := by
      intro pre post u he hu
      subst he
      exact tracked_nodup hu (obtained_live hu (fun e he => hplug e (List.mem_append_left _ he))
        hkeep.of_append).1
    refine ⟨fun pre post u he hu => ⟨hnodup pre post u he hu, ?_⟩, ?_⟩
    · simpa using (hnodup pre post u he hu).length_le_card
    · rw [reported_eq_returned_iff]
      refine ⟨hnodup evs [] s (by simp) h, fun k hk => ?_⟩
      rw [ht] at hk
      exact (obtained_live h hplug hkeep).2 k (obtained_of_pushed h hk)

/-- A slot that the plugin deletes and obtains again is recorded twice, and reported as
two deletions. -/
theorem record_not_faithful : ¬ ∀ (P : Platform) (keys : Pool (Key P) Entry)
    (evs : List (Event P)) (s : Life P), run step (afterInit keys) evs = some s →
    (∀ e ∈ evs, e.byPlugin) → s.inFlight = [] → RecordFaithful keys evs s := by
  intro h
  have hr := (h glibc (fun _ => none) [.realCreate 0 none, .pushBack 0, .pluginDelete 0,
    .realCreate 0 none, .pushBack 0] _ rfl (by simp [Event.byPlugin]) rfl).report
  exact absurd hr (by decide)

theorem record_faithful_iff_at_two_keys : ∃ s : Life glibc,
    run step (afterInit fun _ => none)
      [.realCreate 0 none, .realCreate 1 none, .pushBack 1, .pushBack 0] = some s ∧
    (RecordFaithful (fun _ => none)
      [.realCreate 0 none, .realCreate 1 none, .pushBack 1, .pushBack 0] s ↔
      KeepsOwnKeys (P := glibc)
        [.realCreate 0 none, .realCreate 1 none, .pushBack 1, .pushBack 0]) := by
  refine ⟨_, rfl, ?_⟩
  exact record_faithful_iff (show run step (afterInit fun _ => none) _ = some _ from rfl)
    (by simp [Event.byPlugin]) rfl

end PluginOwnership
