import KeyLeak.DriverReport
import KeyLeak.PluginFini

/-!
# The detector on a plugin in `fix` mode

While the host keeps quiet, `plugin_fini` gives back exactly what the load has taken,
however often slots were deleted, taken again and recorded again in between. So each
round ends with the table it began with, and the detector sees a flat count.
-/
namespace FixMode

open SlotPool KeyTable Runs CInt PluginKeys PluginFini Driver DriverReport

variable {P : Platform}

/-- The plugin's own events leave the keys of others alone, and are never given their
slots. -/
theorem others_persist {s u : Life P} {evs : List (Event P)} {k : Key P} {x : Entry}
    (h : run PluginKeys.step s evs = some u) (hplug : ∀ e ∈ evs, e.byPlugin)
    (hx : s.keys k = some x) (ho : x.owner ≠ .plugin) : u.keys k = some x ∧ k ∉ obtained evs := by
  revert hplug
  refine run_induction (motive := fun es v => (∀ e ∈ es, e.byPlugin) →
    v.keys k = some x ∧ k ∉ obtained es) (fun _ => ⟨hx, by simp [obtained]⟩) ?_ h
  intro es v e w _ ih he hplug
  obtain ⟨hv, hobt⟩ := ih (fun y hy => hplug y (List.mem_append_left _ hy))
  have hstep := step_spec he
  have hc := hstep.creates_ne hv
  have hd : e.deletes ≠ some k := by
    intro hd
    have hp : e.byPlugin := hplug e (by simp)
    cases e <;> simp [Event.deletes, Event.byPlugin] at hd hp
    subst hd
    have := hstep.own _ rfl
    rw [hv] at this
    exact ho (Option.some.inj this)
  refine ⟨by rw [hstep.keys, after_other hc hd, hv], ?_⟩
  rw [obtained_snoc, List.mem_append]
  rintro (hk | hk)
  · exact hobt hk
  · cases e <;> simp [Event.obtains] at hk
    exact hc _ (by rw [hk]; rfl)

/-- `plugin_fini` restores the table of the load, duplicates and stale entries in the
list notwithstanding. -/
theorem fini_restores {t : Table P} {evs : List (Event P)} {s : Life P}
    (h : run PluginKeys.step (pluginInit (load t)) evs = some s) (hplug : ∀ e ∈ evs, e.byPlugin)
    (hdone : s.inFlight = []) : (pluginFini s).life.table = t := by
  have htracked : s.gTrackedKeys = pushed evs := tracked_afterInit h
  funext k
  cases ht : t k with
  | some d =>
    have hx : (pluginInit (load t)).keys k = some ⟨.host, d⟩ := by simp [pluginInit, load, ht]
    obtain ⟨hs, hobt⟩ := others_persist h hplug hx (by simp)
    have hk : k ∉ s.gTrackedKeys := fun hk => hobt (obtained_of_pushed h (htracked ▸ hk))
    rw [Life.table, relabel_apply, pluginFini_survives.mpr ⟨hk, hs⟩]
    rfl
  | none =>
    have hgone : (pluginFini s).life.keys k = none := by
      rw [Option.eq_none_iff_forall_ne_some]
      intro x hx
      obtain ⟨hk, hs⟩ := pluginFini_survives.mp hx
      rcases run_history h hs with ⟨hstart, -⟩ | ⟨a, e, b, rfl, hc, -⟩
      · simp [pluginInit, load, ht] at hstart
      · have he := creates_byPlugin hc (hplug e (by simp))
        have hobt : k ∈ obtained (a ++ e :: b) := mem_obtained.mpr ⟨x.dtor, by simp [he]⟩
        exact hk (htracked ▸ pushed_of_obtained h hdone hobt)
    rw [Life.table, relabel_apply, hgone]
    rfl

/-- One round of the driver as one load of the plugin in `fix` mode while the host is
quiet: the tables after `dlopen`, after `run_plugin` and after `dlclose` are those of a
lifetime whose wrapped calls all begin after `plugin_init` and have all returned when
`plugin_fini` runs. -/
def FixRound (S : Setting P) (r : Int32) (t : Table P) : Prop :=
  ∃ (opening running closing : List (Event P)) (a b c : Life P),
    run PluginKeys.step (pluginInit (load t)) opening = some a ∧
    S.plugin.libOpen r t = .ok a.table ∧
    run PluginKeys.step a running = some b ∧
    S.plugin.runPlugin r S.taskCount a.table = b.table ∧
    run PluginKeys.step b closing = some c ∧ c.inFlight = [] ∧
    S.plugin.libClose r b.table = (pluginFini c).life.table ∧
    ∀ e ∈ opening ++ (running ++ closing), e.byPlugin

theorem FixRound.restores {S : Setting P} {r : Int32} {t : Table P} (h : FixRound S r t) :
    roundEffect S r t = t := by
  obtain ⟨opening, running, closing, a, b, c, ha, hopen, hb, hrun, hc, hdone, hclose, hplug⟩ := h
  have hwhole : run PluginKeys.step (pluginInit (load t)) (opening ++ (running ++ closing)) =
      some c := by
    rw [run_append, ha]
    change run PluginKeys.step a (running ++ closing) = some c
    rw [run_append, hb]
    exact hc
  simp only [roundEffect, hopen, hrun, hclose]
  exact fini_restores hwhole hplug hdone

/-- Every round that the driver makes is such a load. -/
def FixRounds (S : Setting P) (t : Table P) : Prop :=
  ∀ n < asked S, FixRound S (Int32.ofNat (n + 1)) (bareRun S t n)

theorem FixRounds.bareRun_eq {S : Setting P} {t : Table P} (h : FixRounds S t) {n : Nat}
    (hn : n ≤ asked S) : bareRun S t n = t := by
  induction n with
  | zero => rfl
  | succ n ih => rw [bareRun, (h n (by omega)).restores, ih (by omega)]

/-- Every sampled round up to the `n`th has its line, every printed count is the baseline, and
every delta is zero. -/
structure ReportFlat (t : Table P) (n : Nat) (out : List Line) : Prop where
  baseline : ∀ u total : Int32, .baseline u total ∈ out → u.toInt = used t
  round : ∀ r cur total delta : Int32, .round r cur total delta ∈ out →
    cur.toInt = used t ∧ delta = 0
  complete : ∀ m : Nat, 1 ≤ m → m ≤ n → Sampled m →
    ∃ cur total delta, .round (Int32.ofNat m) cur total delta ∈ out
  result : ∀ base final net : Int32, .result base final net ∈ out →
    base.toInt = used t ∧ final.toInt = used t ∧ net = 0

/-- A transcript over an unchanging table is flat. -/
theorem transcript_flat {S : Setting P} {t : Table P} {n : Nat} {est : Option Int32}
    (hflat : ∀ m ≤ n, bareRun S t m = t) : ReportFlat t n (transcript S t n 0 est) := by
  constructor
  · intro u total h
    obtain ⟨rfl, -⟩ := baseline_mem_transcript.mp h
    exact countAfter_toInt S t 0
  · intro r cur total delta h
    obtain ⟨m, h₁, h₂, -, hx⟩ := (mem_report S t n _).mp (round_mem_transcript.mp h)
    cases hx
    have hlast : lastSample (m - 1) ≤ n := by
      have := lastSample_le (m - 1)
      omega
    unfold countAfter
    rw [hflat m h₂, hflat _ hlast, Int32.sub_self]
    exact ⟨Probe.toInt_ofNat_used _, rfl⟩
  · intro m h₁ h₂ hs
    exact ⟨_, _, _, round_mem_transcript.mpr ((mem_report S t n _).mpr ⟨m, h₁, h₂, hs, rfl⟩)⟩
  · intro base final net h
    obtain ⟨rfl, rfl, rfl⟩ := result_mem_transcript.mp h
    refine ⟨countAfter_toInt S t 0, ?_, rfl⟩
    rw [countAfter_toInt, hflat n (Nat.le_refl n)]

/-- Under the fix the table at every loop head is the one before the first round, the
report is flat, and the detector exits with `no leak detected`. -/
theorem fix_keeps_count_flat {S : Setting P} (hload : Loads S.plugin)
    (hr : S.rounds.toInt < INT_MAX) (p : Process P) (hfix : FixRounds S p.keys) :
    (∀ n ≤ asked S, ∃ l, iter (Driver.step S) n (start S p) = some (.loop l) ∧
      l.process.keys = p.keys) ∧
    ∃ (q : Process P) (out : List Line),
      HaltsAfter (Driver.step S) (asked S + 1) (start S p) (.exited 0 q (out ++ [.noLeak])) ∧
      q.keys = p.keys ∧ ReportFlat p.keys (asked S) (out ++ [.noLeak]) := by
  have hflat : ∀ n ≤ asked S, bareRun S p.keys n = p.keys := fun n hn => hfix.bareRun_eq hn
  constructor
  · intro n hn
    obtain ⟨l, hl, h⟩ := iter_atHead hload p hn
    exact ⟨l, hl, by rw [h.keys, hflat n hn]⟩
  · obtain ⟨l, q, h, hq, hhalt⟩ := main_transcript hload p hr
    have hlast := hflat _ (Nat.le_refl _)
    have hnet : netLeaked S l = 0 := by
      rw [← Int32.toInt_inj, netLeaked_toInt h, hlast, Int.sub_self]
      rfl
    rw [hnet, if_neg (by decide), if_neg (by decide)] at hhalt
    have hreport : ReportFlat p.keys (asked S) (transcript S p.keys (asked S) 0 none) :=
      transcript_flat hflat
    exact ⟨q, _, hhalt, by rw [hq, hlast], hreport⟩

/-- A plugin that takes one key a round and has it deleted by `plugin_fini`. -/
def recycling : Plugin glibc where
  libOpen _ t := .ok t
  libSym _ := true
  runPlugin _ _ t := put t 0 none
  libClose _ t := drop t 0

def recyclingSetting : Setting glibc := ⟨firstFit _ Dtor, recycling, "./libleak_plugin.so", 200, 8⟩

theorem recycling_fixRounds : FixRounds recyclingSetting (fun _ => none) := by
  have hempty : ∀ n, bareRun recyclingSetting (fun _ => none) n = fun _ => none := by
    intro n
    induction n with
    | zero => rfl
    | succ n ih =>
      rw [bareRun, ih]
      exact drop_put _ _ _ rfl
  intro n _
  rw [hempty]
  let s : Life glibc := ⟨put (fun _ => none) 0 ⟨.plugin, none⟩, [0], []⟩
  have hrun : run PluginKeys.step (pluginInit (load fun _ => none))
      [.realCreate 0 none, .pushBack 0] = some s := rfl
  have htable : s.table = put (fun _ => none) 0 none := relabel_put _ _ _ _
  refine ⟨[], [.realCreate 0 none, .pushBack 0], [], _, s, s, rfl, rfl, hrun, htable.symm,
    rfl, rfl, ?_, by simp [Event.byPlugin]⟩
  rw [fini_restores hrun (by simp [Event.byPlugin]) rfl, htable]
  exact drop_put _ _ _ rfl

theorem fix_keeps_count_flat_recycling :
    (∀ n ≤ 200, ∃ l, iter (Driver.step recyclingSetting) n
        (start recyclingSetting ⟨fun _ => none, 0⟩) = some (.loop l) ∧
      l.process.keys = fun _ => none) ∧
    ∃ (q : Process glibc) (out : List Line),
      HaltsAfter (Driver.step recyclingSetting) 201 (start recyclingSetting ⟨fun _ => none, 0⟩)
        (.exited 0 q (out ++ [.noLeak])) ∧
      q.keys = (fun _ => none) ∧ ReportFlat (fun _ => none : Table glibc) 200 (out ++ [.noLeak]) :=
  fix_keeps_count_flat (fun _ t => ⟨⟨t, rfl⟩, rfl⟩) (by decide) ⟨fun _ => none, 0⟩ recycling_fixRounds

end FixMode
