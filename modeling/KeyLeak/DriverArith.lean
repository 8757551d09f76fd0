import KeyLeak.DriverReport

/-!
# The detector's integer arithmetic

`rounds` comes from `atoi` unchecked. `++r` can leave the range of `int` in the last of `INT_MAX`
rounds, and so can the final addition of the crash estimate. `total_leaked += delta` can as
well; nothing reads that variable, and it is not in the model.
-/
namespace DriverArith

open SlotPool KeyTable Probe Runs CInt Driver DriverReport

variable {P : Platform}

/-- The round loop ends after exactly the rounds asked for with no overflow of `r`,
the estimate is reached only with nonzero divisors, never for `rounds <= 0`, and its
additions do not overflow. -/
structure ArithSafe (S : Setting P) (p : Process P) : Prop where
  ends : ∃ l, iter (step S) (asked S) (start S p) = some (.loop l) ∧ ¬ l.r ≤ S.rounds
  counter : ∀ n l, n < asked S → iter (step S) n (start S p) = some (.loop l) →
    Fits (l.r.toInt + 1)
  unreachable : S.rounds ≤ 0 → ∀ l, iter (step S) (asked S) (start S p) = some (.loop l) →
    ¬ netLeaked S l > 0
  divisors : ∀ l, iter (step S) (asked S) (start S p) = some (.loop l) → netLeaked S l > 0 →
    S.rounds ≠ 0 ∧ netLeaked S l / S.rounds + 1 ≠ 0
  estimate : ∀ l, iter (step S) (asked S) (start S p) = some (.loop l) → netLeaked S l > 0 →
    Fits ((netLeaked S l / S.rounds).toInt + 1) ∧
    Fits (S.rounds.toInt + (remaining S l / (netLeaked S l / S.rounds + 1)).toInt)

/-- There is one loop head after the rounds asked for. -/
theorem atHead_of_iter {S : Setting P} (hload : Loads S.plugin) {p : Process P} {n : Nat}
    {l : Loop P} (hn : n ≤ asked S) (h : iter (step S) n (start S p) = some (.loop l)) :
    AtHead S p n l := by
  obtain ⟨l', hl', h'⟩ := iter_atHead hload p hn
  rw [hl'] at h
  cases h
  exact h'

/-- A net leak needs at least one round: with none, the two samples see one table. -/
theorem rounds_pos_of_netLeaked {S : Setting P} {p : Process P} {l : Loop P}
    (h : AtHead S p (asked S) l) (hpos : netLeaked S l > 0) : 0 < S.rounds.toInt := by
  rw [netLeaked_pos_iff h] at hpos
  by_contra hr
  have h0 : asked S = 0 := by
    unfold asked
    omega
  rw [h0, bareRun] at hpos
  omega

/-- The keys left over by the rounds asked for, and the truncated rate per round. -/
def leaked (S : Setting P) (p : Process P) : Int :=
  (used (bareRun S p.keys (asked S)) : Int) - used p.keys
def rate (S : Setting P) (p : Process P) : Int := leaked S p / S.rounds.toInt

/-- The mathematical values of the divisor and of the quotient in the estimate. -/
structure EstimateValues (S : Setting P) (p : Process P) (l : Loop P) : Prop where
  rounds_pos : 0 < S.rounds.toInt
  leaked_pos : 0 < leaked S p
  rate_nonneg : 0 ≤ rate S p
  rate_fits : Fits ((netLeaked S l / S.rounds).toInt + 1)
  divisor : (netLeaked S l / S.rounds + 1).toInt = rate S p + 1
  quotient : (remaining S l / (netLeaked S l / S.rounds + 1)).toInt =
    free (bareRun S p.keys (asked S)) / (rate S p + 1)

theorem estimate_values {S : Setting P} {p : Process P} {l : Loop P}
    (h : AtHead S p (asked S) l) (hpos : netLeaked S l > 0) : EstimateValues S p l := by
  have hr := rounds_pos_of_netLeaked h hpos
  have hmax := used_le_max (bareRun S p.keys (asked S))
  have hfits := P.fits
  have hleak : 0 < leaked S p := by
    have := (netLeaked_pos_iff h).mp hpos
    unfold leaked
    omega
  have hrate : 0 ≤ rate S p := Int.ediv_nonneg (by omega) (by omega)
  have hdiv : (netLeaked S l / S.rounds).toInt = rate S p := by
    rw [toInt_div (by rw [netLeaked_toInt h]; exact Int.le_of_lt hleak) (by omega),
      netLeaked_toInt h]
    rfl
  have hle : rate S p ≤ leaked S p := Int.ediv_le_self _ (by omega)
  have hf : Fits ((netLeaked S l / S.rounds).toInt + 1) := by
    unfold leaked at hle
    rw [hdiv, fits_iff]
    omega
  have h1 : (1 : Int32).toInt = 1 := rfl
  have hd : (netLeaked S l / S.rounds + 1).toInt = rate S p + 1 := by
    rw [toInt_add (by rwa [h1]), h1, hdiv]
  refine ⟨hr, hleak, hrate, hf, hd, ?_⟩
  rw [toInt_div (by rw [remaining_toInt h]; omega) (by omega), remaining_toInt h, hd]

/-- Whether the last addition fits does not depend on the rate: a rate of one or more
needs no more rounds than there are keys. -/
theorem estimate_le_iff {rounds net rem bound : Int} (hr : 0 < rounds) (hnet : 0 < net)
    (hrem : 0 ≤ rem) (hb : net + rem ≤ bound) :
    rounds + rem / (net / rounds + 1) ≤ bound ↔ rounds + rem ≤ bound := by
  by_cases hlt : net < rounds
  · rw [Int.ediv_eq_zero_of_lt (by omega) hlt]
    simp
  · have hq : 0 ≤ net / rounds := Int.ediv_nonneg (by omega) (by omega)
    have hle : rem / (net / rounds + 1) ≤ rem := Int.ediv_le_self _ hrem
    constructor <;> intro _ <;> omega

/-- At `INT_MAX` rounds the last `++r` overflows. -/
theorem counter_overflows {S : Setting P} (hload : Loads S.plugin) (p : Process P)
    (hr : S.rounds.toInt = INT_MAX) : ¬ ArithSafe S p := by
  intro hs
  have hasked : asked S = 2147483646 + 1 := by
    unfold asked
    rw [hr]
    rfl
  obtain ⟨l, hl, h⟩ := iter_atHead hload p (n := 2147483646) (by omega)
  have hfit := hs.counter _ l (by omega) hl
  have hv : (Int32.ofNat (2147483646 + 1)).toInt = (2147483646 + 1 : Nat) :=
    Int32.toInt_ofNat_of_lt (by omega)
  rw [h.r, hv, fits_iff] at hfit
  omega

/-- And only there: after `n` rounds the counter is `n + 1`. -/
theorem counter_fits {S : Setting P} {p : Process P} {n : Nat} {l : Loop P} (h : AtHead S p n l)
    (hn : n < asked S) (hr : S.rounds.toInt < INT_MAX) : Fits (l.r.toInt + 1) := by
  unfold INT_MAX at hr
  unfold asked at hn
  have hv : (Int32.ofNat (n + 1)).toInt = (n + 1 : Nat) := Int32.toInt_ofNat_of_lt (by omega)
  rw [h.r, hv, fits_iff]
  omega

/-- A leak leaves room for the rounds it took: leaked and free keys are both keys. -/
theorem leaked_add_free_le (S : Setting P) (p : Process P) :
    leaked S p + free (bareRun S p.keys (asked S)) ≤ INT_MAX := by
  have hmax := used_add_free_eq_max (bareRun S p.keys (asked S))
  have hfits := P.fits
  unfold leaked INT_MAX
  omega

theorem divisors_ne_zero {S : Setting P} {p : Process P} {l : Loop P} (h : AtHead S p (asked S) l)
    (hpos : netLeaked S l > 0) : S.rounds ≠ 0 ∧ netLeaked S l / S.rounds + 1 ≠ 0 := by
  have hv := estimate_values h hpos
  constructor
  · intro h0
    have hr := hv.rounds_pos
    rw [h0] at hr
    exact absurd hr (by decide)
  · intro h0
    have hd := hv.divisor
    have hq := hv.rate_nonneg
    rw [h0] at hd
    change (0 : Int) = _ at hd
    omega

/-- The two additions of the estimate stay in range exactly when `rounds` and the keys
still free do. -/
theorem estimate_fits_iff {S : Setting P} {p : Process P} {l : Loop P} (h : AtHead S p (asked S) l)
    (hpos : netLeaked S l > 0) :
    (Fits ((netLeaked S l / S.rounds).toInt + 1) ∧
      Fits (S.rounds.toInt + (remaining S l / (netLeaked S l / S.rounds + 1)).toInt)) ↔
    S.rounds.toInt + free (bareRun S p.keys (asked S)) ≤ INT_MAX := by
  have hv := estimate_values h hpos
  have hroom := leaked_add_free_le S p
  have hr := hv.rounds_pos
  have hrate := hv.rate_nonneg
  rw [hv.quotient, ← estimate_le_iff hr hv.leaked_pos (by omega) hroom]
  constructor
  · exact fun hf => hf.2.2
  · intro hle
    have hge : 0 ≤ (free (bareRun S p.keys (asked S)) : Int) / (rate S p + 1) :=
      Int.ediv_nonneg (by omega) (by omega)
    refine ⟨hv.rate_fits, ?_, hle⟩
    unfold INT_MIN
    omega

/-- The arithmetic is safe exactly for fewer than `INT_MAX` rounds that either leave no
more keys than before, or do not bring `rounds` plus the keys still free past
`INT_MAX`. -/
theorem arith_safe_iff {S : Setting P} (hload : Loads S.plugin) (p : Process P) :
    ArithSafe S p ↔ S.rounds.toInt < INT_MAX ∧
      (used (bareRun S p.keys (asked S)) ≤ used p.keys ∨
        S.rounds.toInt + free (bareRun S p.keys (asked S)) ≤ INT_MAX) := by
  constructor
  · intro hs
    have hlt : S.rounds.toInt < INT_MAX := by
      by_contra hge
      have := S.rounds.toInt_lt
      refine counter_overflows hload p ?_ hs
      unfold INT_MAX at *
      omega
    refine ⟨hlt, ?_⟩
    obtain ⟨l, h, -, hl, -⟩ := main_halts hload p hlt
    by_cases hpos : netLeaked S l > 0
    · exact .inr ((estimate_fits_iff h hpos).mp (hs.estimate l hl hpos))
    · rw [netLeaked_pos_iff h] at hpos
      exact .inl (Nat.not_lt.mp hpos)
  · rintro ⟨hlt, hor⟩
    have hhead : ∀ {n l}, n ≤ asked S → iter (step S) n (start S p) = some (.loop l) →
        AtHead S p n l := fun hn hl => atHead_of_iter hload hn hl
    obtain ⟨l₀, -, hle, hl₀, -⟩ := main_halts hload p hlt
    constructor
    · exact ⟨l₀, hl₀, hle⟩
    · intro n l hn hl
      exact counter_fits (hhead (by omega) hl) hn hlt
    · intro hr l hl hpos
      have := rounds_pos_of_netLeaked (hhead (Nat.le_refl _) hl) hpos
      rw [Int32.le_iff_toInt_le] at hr
      change S.rounds.toInt ≤ 0 at hr
      omega
    · intro l hl hpos
      exact divisors_ne_zero (hhead (Nat.le_refl _) hl) hpos
    · intro l hl hpos
      have h := hhead (Nat.le_refl _) hl
      rw [netLeaked_pos_iff h] at hpos
      exact (estimate_fits_iff h ((netLeaked_pos_iff h).mpr hpos)).mpr (hor.resolve_left (by omega))

theorem arith_unsafe_at_int_max : ¬ ∀ (P : Platform) (S : Setting P) (p : Process P),
    Loads S.plugin → ArithSafe S p := by
  intro h
  exact counter_overflows leaky_loads ⟨fun _ => none, 0⟩ rfl
    (h glibc (leakySetting glibc 2147483647) ⟨fun _ => none, 0⟩ leaky_loads)

theorem arith_safe_iff_leaky : ArithSafe (leakySetting glibc 10) ⟨fun _ => none, 0⟩ ↔
    (10 : Int32).toInt < INT_MAX ∧
      (used (bareRun (leakySetting glibc 10) (fun _ => none) 10) ≤
          used (fun _ => none : Table glibc) ∨
        (10 : Int32).toInt + free (bareRun (leakySetting glibc 10) (fun _ => none) 10) ≤
          INT_MAX) :=
  arith_safe_iff leaky_loads ⟨fun _ => none, 0⟩

end DriverArith
