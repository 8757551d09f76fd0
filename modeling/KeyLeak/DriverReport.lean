import KeyLeak.Driver

/-!
# What the detector reports

The reference for the report is the run with no probe in it: the table after `n`
rounds is the `n`-fold effect of the plugin alone. The loop keeps to it round by
round, so every printed number is read off that table, and the final table is its
last one.
-/
namespace DriverReport

open SlotPool KeyTable Probe Runs CInt Driver

variable {P : Platform}

/-- `dlopen` and `dlsym` succeed whatever the round and the table. -/
def Loads (pl : Plugin P) : Prop := ∀ r t, (∃ t', pl.libOpen r t = .ok t') ∧ pl.libSym r = true

/-- One load, call and unload. -/
def roundEffect (S : Setting P) (r : Int32) (t : Table P) : Table P :=
  match S.plugin.libOpen r t with
  | .ok t' => S.plugin.libClose r (S.plugin.runPlugin r S.taskCount t')
  | .error _ => t

/-- The table after rounds `1` to `n` of the driver with all its probes removed. -/
def bareRun (S : Setting P) (t : Table P) : Nat → Table P
  | 0 => t
  | n + 1 => roundEffect S (Int32.ofNat (n + 1)) (bareRun S t n)

def Sampled (r : Nat) : Prop := r % 10 = 0 ∨ r = 1

instance (r : Nat) : Decidable (Sampled r) := inferInstanceAs (Decidable (_ ∨ _))

/-- The latest sampled round up to `n`; round 0 is the baseline. -/
def lastSample : Nat → Nat
  | 0 => 0
  | n + 1 => if Sampled (n + 1) then n + 1 else lastSample n

theorem lastSample_le (n : Nat) : lastSample n ≤ n := by
  induction n with
  | zero => exact Nat.le_refl 0
  | succ n ih =>
    rw [lastSample]
    split <;> omega

/-- The allocated keys after round `n`, as an `int`. -/
def countAfter (S : Setting P) (t : Table P) (n : Nat) : Int32 := Int32.ofNat (used (bareRun S t n))

/-- The lines printed in rounds `1` to `n`. -/
def report (S : Setting P) (t : Table P) : Nat → List Line
  | 0 => []
  | n + 1 => report S t n ++
    if Sampled (n + 1) then
      [.round (Int32.ofNat (n + 1)) (countAfter S t (n + 1)) (tlsTotal P)
        (countAfter S t (n + 1) - countAfter S t (lastSample n))]
    else []

/-- The loop head after `n` rounds. -/
structure AtHead (S : Setting P) (p : Process P) (n : Nat) (l : Loop P) : Prop where
  r : l.r = Int32.ofNat (n + 1)
  keys : l.process.keys = bareRun S p.keys n
  baseline : l.baseline = countAfter S p.keys 0
  prev : l.prev = countAfter S p.keys (lastSample n)
  out : l.out = header S ++ .baseline (countAfter S p.keys 0) (tlsTotal P) :: report S p.keys n

/-- Number of rounds that `rounds` asks for. -/
def asked (S : Setting P) : Nat := S.rounds.toInt.toNat

@[simp] theorem countAfter_toInt (S : Setting P) (t : Table P) (n : Nat) :
    (countAfter S t n).toInt = used (bareRun S t n) := toInt_ofNat_used _

/-- The sampling test of the code, on a counter that has not overflowed. -/
theorem sampled_iff {n : Nat} (hn : n < 2147483648) :
    (Int32.ofNat n % 10 = 0 ∨ Int32.ofNat n = 1) ↔ Sampled n := by
  have hv : (Int32.ofNat n).toInt = n := Int32.toInt_ofNat_of_lt (by omega)
  rw [← Int32.toInt_inj, ← Int32.toInt_inj, Int32.toInt_mod, hv]
  change (n : Int).tmod 10 = 0 ∨ (n : Int) = 1 ↔ n % 10 = 0 ∨ n = 1
  rw [Int.tmod_eq_emod_of_nonneg (by omega)]
  omega

theorem start_atHead (S : Setting P) (p : Process P) :
    ∃ l, start S p = .loop l ∧ AtHead S p 0 l := by
  refine ⟨_, start_eq S p, ?_⟩
  constructor <;> simp [countAfter, bareRun, lastSample, report, tlsUsed_fst]

theorem afterClose_atHead {S : Setting P} {p : Process P} {n : Nat} {l : Loop P}
    (hn : n + 1 < 2147483648) (h : AtHead S p n l) :
    AtHead S p (n + 1) (afterClose S l (bareRun S p.keys (n + 1))) := by
  have htest : (l.r % 10 = 0 ∨ l.r = 1) ↔ Sampled (n + 1) := h.r ▸ sampled_iff hn
  by_cases hs : Sampled (n + 1)
  · simp only [afterClose, if_pos (htest.mpr hs)]
    constructor
    · simp [h.r]
    · simp
    · simp [h.baseline]
    · simp [tlsUsed_fst, countAfter, lastSample, hs]
    · simp [tlsUsed_fst, h.out, h.r, h.prev, report, hs, countAfter]
  · simp only [afterClose, if_neg (mt htest.mp hs)]
    constructor
    · simp [h.r]
    · simp
    · simp [h.baseline]
    · simp [h.prev, lastSample, hs]
    · simp [h.out, report, hs]

/-- What one iteration does to the loop head. -/
theorem iteration_atHead {S : Setting P} {p : Process P} {n : Nat} {l : Loop P}
    (hload : Loads S.plugin) (hn : n + 1 < 2147483648) (h : AtHead S p n l) :
    ∃ l', iteration S l = .loop l' ∧ AtHead S p (n + 1) l' := by
  obtain ⟨⟨t, ht⟩, hsym⟩ := hload l.r l.process.keys
  have hkeys : S.plugin.libClose l.r (S.plugin.runPlugin l.r S.taskCount t) =
      bareRun S p.keys (n + 1) := by
    rw [h.keys] at ht
    simp only [bareRun, roundEffect, ← h.r, ht]
  refine ⟨afterClose S l (bareRun S p.keys (n + 1)), ?_, afterClose_atHead hn h⟩
  simp only [iteration, ht, hsym, if_true, hkeys]

theorem atHead_le_iff {S : Setting P} {p : Process P} {n : Nat} {l : Loop P}
    (hn : n + 1 < 2147483648) (h : AtHead S p n l) : l.r ≤ S.rounds ↔ n + 1 ≤ asked S := by
  have hv : (Int32.ofNat (n + 1)).toInt = (n + 1 : Nat) := Int32.toInt_ofNat_of_lt (by omega)
  rw [h.r, Int32.le_iff_toInt_le, hv]
  unfold asked
  omega

theorem asked_lt (S : Setting P) : asked S < 2147483648 := by
  have := S.rounds.toInt_lt
  unfold asked
  omega

/-- The loop reaches its head after every round it was asked for. -/
theorem iter_atHead {S : Setting P} (hload : Loads S.plugin) (p : Process P) {n : Nat}
    (hn : n ≤ asked S) : ∃ l, iter (step S) n (start S p) = some (.loop l) ∧ AtHead S p n l := by
  induction n with
  | zero =>
    obtain ⟨l, hl, h⟩ := start_atHead S p
    exact ⟨l, congrArg some hl, h⟩
  | succ n ih =>
    obtain ⟨l, hl, h⟩ := ih (by omega)
    have hlt : n + 1 < 2147483648 := by
      have := asked_lt S
      omega
    obtain ⟨l', hl', h'⟩ := iteration_atHead hload hlt h
    refine ⟨l', ?_, h'⟩
    rw [iter_succ, hl]
    simp [step, (atHead_le_iff hlt h).mpr hn, hl']

/-- Below `INT_MAX` rounds the loop ends after exactly the rounds asked for, and
`main` exits with the verdict on the last head. -/
theorem main_halts {S : Setting P} (hload : Loads S.plugin) (p : Process P)
    (hr : S.rounds.toInt < INT_MAX) : ∃ l, AtHead S p (asked S) l ∧ ¬ l.r ≤ S.rounds ∧
      iter (step S) (asked S) (start S p) = some (.loop l) ∧
      HaltsAfter (step S) (asked S + 1) (start S p) (verdict S l) := by
  obtain ⟨l, hl, h⟩ := iter_atHead hload p (Nat.le_refl _)
  have hlt : asked S + 1 < 2147483648 := by
    unfold INT_MAX at hr
    unfold asked
    omega
  have hle : ¬ l.r ≤ S.rounds := by
    rw [atHead_le_iff hlt h]
    omega
  refine ⟨l, h, hle, hl, ?_, ?_⟩
  · rw [iter_succ, hl]
    simp [step, hle]
  · rw [verdict_eq]
    split <;> rfl

theorem netLeaked_toInt {S : Setting P} {p : Process P} {n : Nat} {l : Loop P}
    (h : AtHead S p n l) :
    (netLeaked S l).toInt = (used (bareRun S p.keys n) : Int) - used p.keys := by
  have h₁ := used_le_max (bareRun S p.keys n)
  have h₂ := used_le_max p.keys
  have h₃ := P.fits
  have hb : l.baseline.toInt = used p.keys := by rw [h.baseline, countAfter_toInt, bareRun]
  unfold netLeaked
  rw [toInt_sub] <;> rw [tlsUsed_toInt, hb, h.keys]
  rw [fits_iff]
  omega

theorem remaining_toInt {S : Setting P} {p : Process P} {n : Nat} {l : Loop P}
    (h : AtHead S p n l) : (remaining S l).toInt = free (bareRun S p.keys n) := by
  have h₁ := used_add_free_eq_max (bareRun S p.keys n)
  have h₃ := P.fits
  unfold remaining
  rw [toInt_sub] <;> rw [tlsUsed_toInt, tlsTotal_toInt, h.keys]
  · omega
  · rw [fits_iff]
    omega

theorem netLeaked_pos_iff {S : Setting P} {p : Process P} {n : Nat} {l : Loop P}
    (h : AtHead S p n l) : netLeaked S l > 0 ↔ used p.keys < used (bareRun S p.keys n) := by
  rw [gt_iff_lt, Int32.lt_iff_toInt_lt, netLeaked_toInt h]
  change (0 : Int) < _ ↔ _
  omega

/-- The sum of the printed deltas. -/
def deltas : List Line → Int
  | [] => 0
  | .round _ _ _ delta :: ls => delta.toInt + deltas ls
  | _ :: ls => deltas ls

/-- Read from left to right with the deltas `acc` already printed, every round line
brings their sum to its own count minus `base`. -/
def Telescopes (base : Int) : Int → List Line → Prop
  | _, [] => True
  | acc, .round _ cur _ delta :: ls =>
    acc + delta.toInt = cur.toInt - base ∧ Telescopes base (acc + delta.toInt) ls
  | acc, _ :: ls => Telescopes base acc ls

theorem deltas_append (xs ys : List Line) : deltas (xs ++ ys) = deltas xs + deltas ys := by
  induction xs with
  | nil => simp [deltas]
  | cons x xs ih => cases x <;> simp [deltas, ih, Int.add_assoc]

theorem telescopes_append (base acc : Int) (xs ys : List Line) :
    Telescopes base acc (xs ++ ys) ↔
      Telescopes base acc xs ∧ Telescopes base (acc + deltas xs) ys := by
  induction xs generalizing acc with
  | nil => simp [Telescopes, deltas]
  | cons x xs ih => cases x <;> simp [Telescopes, deltas, ih, and_assoc, Int.add_assoc]

/-- One round changes a count by what its delta says. -/
theorem delta_toInt (S : Setting P) (t : Table P) (m n : Nat) :
    (countAfter S t m - countAfter S t n).toInt =
      (used (bareRun S t m) : Int) - used (bareRun S t n) := by
  have h₁ := used_le_max (bareRun S t m)
  have h₂ := used_le_max (bareRun S t n)
  have h₃ := P.fits
  rw [toInt_sub] <;> rw [countAfter_toInt, countAfter_toInt]
  rw [fits_iff]
  omega

theorem report_telescopes (S : Setting P) (t : Table P) (n : Nat) :
    Telescopes (used t) 0 (report S t n) ∧
    deltas (report S t n) = (used (bareRun S t (lastSample n)) : Int) - used t := by
  induction n with
  | zero => simp [report, Telescopes, deltas, lastSample, bareRun]
  | succ n ih =>
    obtain ⟨htel, hsum⟩ := ih
    by_cases hs : Sampled (n + 1)
    · simp only [report, lastSample, if_pos hs, telescopes_append, deltas_append, hsum]
      simp only [Telescopes, deltas, delta_toInt, countAfter_toInt, and_true]
      refine ⟨⟨htel, ?_⟩, ?_⟩ <;> omega
    · simpa only [report, lastSample, if_neg hs, List.append_nil] using And.intro htel hsum

/-- The round lines are those of the sampled rounds, with the true counts. -/
theorem mem_report (S : Setting P) (t : Table P) (n : Nat) (x : Line) :
    x ∈ report S t n ↔ ∃ m, 1 ≤ m ∧ m ≤ n ∧ Sampled m ∧
      x = .round (Int32.ofNat m) (countAfter S t m) (tlsTotal P)
        (countAfter S t m - countAfter S t (lastSample (m - 1))) := by
  induction n with
  | zero =>
    simp only [report, List.not_mem_nil, false_iff]
    rintro ⟨m, h₁, h₂, -⟩
    omega
  | succ n ih =>
    simp only [report, List.mem_append, ih]
    constructor
    · rintro (⟨m, h₁, h₂, hs, rfl⟩ | h)
      · exact ⟨m, h₁, by omega, hs, rfl⟩
      · by_cases hs : Sampled (n + 1)
        · rw [if_pos hs, List.mem_singleton] at h
          exact ⟨n + 1, by omega, by omega, hs, h⟩
        · simp [hs] at h
    · rintro ⟨m, h₁, h₂, hs, rfl⟩
      by_cases hm : m = n + 1
      · subst hm
        exact .inr (by simp [hs])
      · exact .inl ⟨m, h₁, by omega, hs, rfl⟩

theorem report_isRound {S : Setting P} {t : Table P} {n : Nat} {x : Line} (h : x ∈ report S t n) :
    ∃ r cur total delta, x = .round r cur total delta := by
  obtain ⟨m, -, -, -, rfl⟩ := (mem_report S t n x).mp h
  exact ⟨_, _, _, _, rfl⟩

/-- The last line: an estimate when keys have leaked. -/
def verdictLine : Option Int32 → Line
  | some crashEst => .leakConfirmed crashEst
  | none => .noLeak

/-- All that a run of `n` rounds prints. -/
def transcript (S : Setting P) (t : Table P) (n : Nat) (net : Int32) (est : Option Int32) :
    List Line :=
  header S ++ .baseline (countAfter S t 0) (tlsTotal P) :: report S t n ++
    [.result (countAfter S t 0) (countAfter S t n) net] ++ [verdictLine est]

section Transcript

variable {S : Setting P} {t : Table P} {n : Nat} {net : Int32} {est : Option Int32}

theorem baseline_mem_transcript {u total : Int32} :
    .baseline u total ∈ transcript S t n net est ↔ u = countAfter S t 0 ∧ total = tlsTotal P := by
  have hr : .baseline u total ∉ report S t n := fun h => by simpa using report_isRound h
  cases est <;> simp [transcript, header, verdictLine, hr]

theorem round_mem_transcript {r cur total delta : Int32} :
    .round r cur total delta ∈ transcript S t n net est ↔
      .round r cur total delta ∈ report S t n := by
  cases est <;> simp [transcript, header, verdictLine]

theorem result_mem_transcript {base final net' : Int32} :
    .result base final net' ∈ transcript S t n net est ↔
      base = countAfter S t 0 ∧ final = countAfter S t n ∧ net' = net := by
  have hr : .result base final net' ∉ report S t n := fun h => by simpa using report_isRound h
  cases est <;> simp [transcript, header, verdictLine, hr]

theorem leakConfirmed_mem_transcript {e : Int32} :
    .leakConfirmed e ∈ transcript S t n net est ↔ est = some e := by
  have hr : .leakConfirmed e ∉ report S t n := fun h => by simpa using report_isRound h
  cases est <;> simp [transcript, header, verdictLine, hr, eq_comm]

theorem transcript_telescopes : Telescopes (used t) 0 (transcript S t n net est) := by
  have hd : deltas (header S) = 0 := by simp [header, deltas]
  unfold transcript
  rw [telescopes_append, telescopes_append, telescopes_append, hd]
  refine ⟨⟨⟨by simp [header, Telescopes], (report_telescopes S t n).1⟩, by simp [Telescopes]⟩, ?_⟩
  cases est <;> simp [verdictLine, Telescopes]

end Transcript

/-- The run of `main` as a whole: when it halts, what it prints, and what it leaves. -/
theorem main_transcript {S : Setting P} (hload : Loads S.plugin) (p : Process P)
    (hr : S.rounds.toInt < INT_MAX) : ∃ l q, AtHead S p (asked S) l ∧
      q.keys = bareRun S p.keys (asked S) ∧
      HaltsAfter (step S) (asked S + 1) (start S p)
        (.exited (if netLeaked S l > 0 then 1 else 0) q
          (transcript S p.keys (asked S) (netLeaked S l)
            (if netLeaked S l > 0 then some (crashEst S l) else none))) := by
  obtain ⟨l, h, -, -, hhalt⟩ := main_halts hload p hr
  refine ⟨l, (tlsUsed S.alloc l.process).2, h, by rw [tlsUsed_keys, h.keys], ?_⟩
  have hfinal : (tlsUsed S.alloc l.process).1 = countAfter S p.keys (asked S) := by
    rw [tlsUsed_fst, h.keys]
    rfl
  rw [verdict_eq, h.out, h.baseline, hfinal] at hhalt
  by_cases hpos : netLeaked S l > 0
  · simp only [if_pos hpos] at hhalt ⊢
    exact hhalt
  · simp only [if_neg hpos] at hhalt ⊢
    exact hhalt

/-- Every command line that asks for fewer than `INT_MAX` rounds has one outcome. -/
theorem main_outcome {A : Policy (Key P) Dtor} {plugin : Plugin P} {argv : List String}
    (hload : Loads plugin) (hr : (setting A plugin argv).rounds.toInt < INT_MAX) (p : Process P) :
    ∃ code out q, Main A plugin argv p code out q ∧
      ∀ code' out' q', Main A plugin argv p code' out' q' → code' = code ∧ out' = out ∧ q' = q := by
  obtain ⟨l, q, -, -, hhalt⟩ := main_transcript (S := setting A plugin argv) hload p hr
  refine ⟨_, _, q, ⟨_, hhalt⟩, ?_⟩
  rintro code' out' q' ⟨n, hn⟩
  have hsame := (haltsAfter_unique hn hhalt).2
  simp only [State.exited.injEq] at hsame
  exact ⟨hsame.1, hsame.2.2, hsame.2.1⟩

/-- The printed counts are the true ones, every sampled round is printed, and up to
every round line the deltas sum to its count minus the baseline. -/
structure ReportExact (S : Setting P) (t : Table P) (n : Nat) (out : List Line) : Prop where
  baseline : ∀ u total : Int32, .baseline u total ∈ out → u.toInt = used t
  round : ∀ r cur total delta : Int32, .round r cur total delta ∈ out →
    ∃ m : Nat, 1 ≤ m ∧ m ≤ n ∧ r.toInt = m ∧ cur.toInt = used (bareRun S t m)
  complete : ∀ m : Nat, 1 ≤ m → m ≤ n → Sampled m →
    ∃ cur total delta, .round (Int32.ofNat m) cur total delta ∈ out
  telescope : ∀ (pre post : List Line) (r cur total delta : Int32),
    out = pre ++ .round r cur total delta :: post →
    deltas (pre ++ [.round r cur total delta]) = cur.toInt - used t
  result : ∀ base final net : Int32, .result base final net ∈ out →
    base.toInt = used t ∧ final.toInt = used (bareRun S t n) ∧
      net.toInt = (used (bareRun S t n) : Int) - used t

theorem transcript_exact {S : Setting P} {t : Table P} {n : Nat} {net : Int32} {est : Option Int32}
    (hn : n < 2147483648) (hnet : net.toInt = (used (bareRun S t n) : Int) - used t) :
    ReportExact S t n (transcript S t n net est) := by
  constructor
  · intro u total h
    obtain ⟨rfl, -⟩ := baseline_mem_transcript.mp h
    exact countAfter_toInt S t 0
  · intro r cur total delta h
    obtain ⟨m, h₁, h₂, -, hx⟩ := (mem_report S t n _).mp (round_mem_transcript.mp h)
    cases hx
    exact ⟨m, h₁, h₂, Int32.toInt_ofNat_of_lt (by omega), countAfter_toInt S t m⟩
  · intro m h₁ h₂ hs
    exact ⟨_, _, _, round_mem_transcript.mpr ((mem_report S t n _).mpr ⟨m, h₁, h₂, hs, rfl⟩)⟩
  · intro pre post r cur total delta h
    have htel : Telescopes (used t) 0 (transcript S t n net est) := transcript_telescopes
    rw [h, telescopes_append] at htel
    have hr := htel.2.1
    simp only [deltas_append, deltas]
    omega
  · intro base final net' h
    obtain ⟨rfl, rfl, rfl⟩ := result_mem_transcript.mp h
    exact ⟨countAfter_toInt S t 0, countAfter_toInt S t n, hnet⟩

/-- The detector's report is exact and its measuring is invisible: for every plugin
that loads and every table, every loop head sees the table that the plugin alone would
have left, `main` halts, its output is exact, its exit code says whether more keys are
allocated than before the first round, and it leaves the bare run's table. -/
theorem detector_exact {S : Setting P} (hload : Loads S.plugin)
    (hr : S.rounds.toInt < INT_MAX) (p : Process P) :
    (∀ n ≤ asked S, ∃ l, iter (step S) n (start S p) = some (.loop l) ∧
      l.process.keys = bareRun S p.keys n) ∧
    ∃ code q out, HaltsAfter (step S) (asked S + 1) (start S p) (.exited code q out) ∧
      ReportExact S p.keys (asked S) out ∧
      (if used p.keys < used (bareRun S p.keys (asked S)) then
        code = 1 ∧ ∃ e, .leakConfirmed e ∈ out
      else code = 0 ∧ ∀ e, .leakConfirmed e ∉ out) ∧
      q.keys = bareRun S p.keys (asked S) := by
  constructor
  · intro n hn
    obtain ⟨l, hl, h⟩ := iter_atHead hload p hn
    exact ⟨l, hl, h.keys⟩
  · obtain ⟨l, q, h, hq, hhalt⟩ := main_transcript hload p hr
    refine ⟨_, q, _, hhalt, transcript_exact (asked_lt S) (netLeaked_toInt h), ?_, hq⟩
    by_cases hpos : netLeaked S l > 0
    · rw [if_pos ((netLeaked_pos_iff h).mp hpos), if_pos hpos, if_pos hpos]
      exact ⟨rfl, _, leakConfirmed_mem_transcript.mpr rfl⟩
    · rw [if_neg (mt (netLeaked_pos_iff h).mpr hpos), if_neg hpos, if_neg hpos]
      exact ⟨rfl, fun e he => by simpa using leakConfirmed_mem_transcript.mp he⟩

/-- A plugin that keeps one more key in every round, while there is one. -/
def leaky : Plugin P where
  libOpen _ t := .ok t
  libSym _ := true
  runPlugin _ _ t := match (firstFit _ Dtor).pick 0 t with
    | some k => put t k none
    | none => t
  libClose _ t := t

def leakySetting (P : Platform) (rounds : Int32) : Setting P :=
  ⟨firstFit _ Dtor, leaky, "./libleak_plugin.so", rounds, 8⟩

theorem leaky_loads : Loads (leaky (P := P)) := fun _ t => ⟨⟨t, rfl⟩, rfl⟩

theorem leaky_used (rounds : Int32) (r : Int32) (t : Table P) (h : free t ≠ 0) :
    used (roundEffect (leakySetting P rounds) r t) = used t + 1 := by
  cases hk : (firstFit _ Dtor).pick 0 t with
  | none => exact absurd ((Policy.pick_eq_none_iff _ _ _).mp hk) h
  | some k =>
    have := used_put t k none ((firstFit _ Dtor).sound 0 t k hk)
    simpa only [roundEffect, leakySetting, leaky, hk] using this

theorem detector_exact_leaky : ∃ code q out,
    HaltsAfter (step (leakySetting glibc 10)) 11
      (start (leakySetting glibc 10) ⟨fun _ => none, 0⟩) (.exited code q out) ∧
    ReportExact (leakySetting glibc 10) (fun _ => none) 10 out ∧
    (if used (fun _ => none : Table glibc) <
        used (bareRun (leakySetting glibc 10) (fun _ => none) 10) then
      code = 1 ∧ ∃ e, .leakConfirmed e ∈ out
    else code = 0 ∧ ∀ e, .leakConfirmed e ∉ out) ∧
    q.keys = bareRun (leakySetting glibc 10) (fun _ => none) 10 :=
  (detector_exact leaky_loads (by decide) ⟨fun _ => none, 0⟩).2

end DriverReport
