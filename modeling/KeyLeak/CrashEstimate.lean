import Mathlib.Order.Bounds.Basic
import KeyLeak.DriverArith

/-!
# How good the crash estimate is

The driver divides the keys left by the leak rate plus one. The plus one keeps the
divisor from zero when fewer keys than rounds have leaked, but at a constant rate `c`
it makes the estimate stop short of the round in which the keys run out, by more the
more keys are left.
-/
namespace CrashEstimate

open SlotPool KeyTable Runs CInt Driver DriverReport DriverArith

variable {P : Platform}

/-- Each of the rounds asked for leaves `c` more keys allocated. -/
def LeaksEach (S : Setting P) (t : Table P) (c : Nat) : Prop :=
  ∀ k < asked S, used (bareRun S t (k + 1)) = used (bareRun S t k) + c

/-- The first round in which a table of `T` slots, `b` of them in use, cannot supply
`c` more keys per round. -/
def FirstShortRound (T b c R : Nat) : Prop := IsLeast {r : Nat | T < b + c * r} R

theorem LeaksEach.used_eq {S : Setting P} {t : Table P} {c : Nat} (h : LeaksEach S t c) {k : Nat}
    (hk : k ≤ asked S) : used (bareRun S t k) = used t + c * k := by
  induction k with
  | zero => simp [bareRun]
  | succ k ih =>
    rw [h k (by omega), ih (by omega), Nat.mul_succ]
    omega

/-- The keys left after `n` rounds last for `rem / c` rounds more. -/
theorem firstShortRound_eq {T b c n rem : Nat} (hc : 1 ≤ c) (h : b + c * n + rem = T) :
    FirstShortRound T b c (n + rem / c + 1) := by
  constructor
  · have hlt : rem < c * (rem / c + 1) := Nat.lt_mul_div_succ rem hc
    change T < b + c * (n + rem / c + 1)
    rw [Nat.add_assoc n, Nat.mul_add]
    omega
  · intro r hr
    change T < b + c * r at hr
    by_contra hlt
    have hmono : c * r ≤ c * (n + rem / c) := Nat.mul_le_mul_left c (by omega)
    have hle : c * (rem / c) ≤ rem := Nat.mul_div_le rem c
    rw [Nat.mul_add] at hmono
    omega

/-- Dividing by one more loses a whole round as soon as the remainder, with one key
for each round already counted, fills another. -/
theorem div_le_div_succ_iff {c rem : Nat} (hc : 1 ≤ c) :
    rem / c ≤ rem / (c + 1) ↔ rem / (c + 1) + rem % (c + 1) < c := by
  have hsplit : rem = (rem / (c + 1) + rem % (c + 1)) + c * (rem / (c + 1)) := by
    have := Nat.div_add_mod rem (c + 1)
    rw [Nat.add_mul] at this
    omega
  have hdiv : rem / c = (rem / (c + 1) + rem % (c + 1)) / c + rem / (c + 1) := by
    conv_lhs => rw [hsplit]
    exact Nat.add_mul_div_left _ _ hc
  rw [hdiv, ← Nat.div_eq_zero_iff_lt hc]
  generalize (rem / (c + 1) + rem % (c + 1)) / c = lost
  omega

/-- What is printed after `n` rounds of a constant leak. -/
theorem estimate_printed {S : Setting P} (hload : Loads S.plugin) (p : Process P) {c : Nat}
    (hc : 1 ≤ c) (hn : 1 ≤ asked S) (hleak : LeaksEach S p.keys c) :
    ∃ (q : Process P) (out : List Line) (e : Int32), HaltsAfter (step S) (asked S + 1) (start S p)
        (.exited 1 q (out ++ [.leakConfirmed e])) ∧
      e.toInt = (asked S + free (bareRun S p.keys (asked S)) / (c + 1) : Nat) := by
  have hused := hleak.used_eq (Nat.le_refl (asked S))
  have hmax := used_add_free_eq_max (bareRun S p.keys (asked S))
  have hfits := P.fits
  have hcn : asked S ≤ c * asked S := Nat.le_mul_of_pos_left _ hc
  have hr : S.rounds.toInt = asked S := by
    unfold asked at hn ⊢
    omega
  obtain ⟨l, q, h, -, hhalt⟩ := main_transcript hload p (by unfold INT_MAX; omega)
  have hpos : netLeaked S l > 0 := (netLeaked_pos_iff h).mpr (by omega)
  rw [if_pos hpos, if_pos hpos] at hhalt
  refine ⟨q, _, crashEst S l, hhalt, ?_⟩
  have hrate : rate S p = c := by
    have hleaked : leaked S p = c * asked S := by
      unfold leaked
      rw [hused]
      push_cast
      omega
    unfold rate
    rw [hleaked, hr]
    exact Int.mul_ediv_cancel _ (by omega)
  have hq := (estimate_values h hpos).quotient
  rw [hrate] at hq
  obtain ⟨m, hm⟩ : ∃ m, m = free (bareRun S p.keys (asked S)) / (c + 1) := ⟨_, rfl⟩
  have hle : m ≤ free (bareRun S p.keys (asked S)) := hm ▸ Nat.div_le_self _ _
  rw [← Int.natCast_succ, ← Int.natCast_ediv, ← hm] at hq
  rw [← hm]
  unfold crashEst
  rw [toInt_add] <;> rw [hq, hr]
  · rfl
  · rw [fits_iff]
    omega

/-- At a constant rate the estimate is never late, and it is within one round of the
first round that cannot be supplied exactly when few keys are left. -/
theorem estimate_accuracy {S : Setting P} (hload : Loads S.plugin) (p : Process P) {c : Nat}
    (hc : 1 ≤ c) (hn : 1 ≤ asked S) (hleak : LeaksEach S p.keys c) :
    ∃ (q : Process P) (out : List Line) (e : Int32) (R : Nat), HaltsAfter (step S) (asked S + 1) (start S p)
        (.exited 1 q (out ++ [.leakConfirmed e])) ∧
      FirstShortRound P.PTHREAD_KEYS_MAX (used p.keys) c R ∧
      e.toInt = (asked S + free (bareRun S p.keys (asked S)) / (c + 1) : Nat) ∧
      e.toInt < R ∧
      (((R : Int) - e.toInt).natAbs ≤ 1 ↔ free (bareRun S p.keys (asked S)) / (c + 1) +
        free (bareRun S p.keys (asked S)) % (c + 1) < c) := by
  obtain ⟨q, out, e, hhalt, he⟩ := estimate_printed hload p hc hn hleak
  have hmax := used_add_free_eq_max (bareRun S p.keys (asked S))
  rw [hleak.used_eq (Nat.le_refl (asked S))] at hmax
  have hle : free (bareRun S p.keys (asked S)) / (c + 1) ≤
      free (bareRun S p.keys (asked S)) / c := Nat.div_le_div_left (by omega) hc
  refine ⟨q, out, e, _, hhalt, firstShortRound_eq hc hmax, he, ?_, ?_⟩
  · rw [he]
    omega
  · rw [← div_le_div_succ_iff hc, he]
    omega

/-- The leaking plugin loses one key a round as long as the keys last. -/
theorem leaky_leaksEach {rounds : Int32} {t : Table P}
    (h : used t + asked (leakySetting P rounds) ≤ P.PTHREAD_KEYS_MAX) :
    LeaksEach (leakySetting P rounds) t 1 := by
  have hstep : ∀ k < asked (leakySetting P rounds),
      used (bareRun (leakySetting P rounds) t k) = used t + k →
      used (bareRun (leakySetting P rounds) t (k + 1)) =
        used (bareRun (leakySetting P rounds) t k) + 1 := by
    intro k hk hu
    have := used_add_free_eq_max (bareRun (leakySetting P rounds) t k)
    exact leaky_used _ _ _ (by omega)
  have hused : ∀ k ≤ asked (leakySetting P rounds),
      used (bareRun (leakySetting P rounds) t k) = used t + k := by
    intro k hk
    induction k with
    | zero => rfl
    | succ k ih =>
      rw [hstep k hk (ih (by omega)), ih (by omega)]
      omega
  exact fun k hk => hstep k hk (hused k (by omega))

theorem used_empty : used (fun _ => none : Table P) = 0 := by simp [used, held]

/-- After one round of a one-key leak in an empty table half of the keys left are
taken for the rounds left. -/
theorem leaky_estimate (hmax : 1 ≤ P.PTHREAD_KEYS_MAX) :
    ∃ (q : Process P) (out : List Line) (e : Int32),
      HaltsAfter (step (leakySetting P 1)) (asked (leakySetting P 1) + 1)
        (start (leakySetting P 1) ⟨fun _ => none, 0⟩) (.exited 1 q (out ++ [.leakConfirmed e])) ∧
      e.toInt = (1 + (P.PTHREAD_KEYS_MAX - 1) / 2 : Nat) := by
  have hone : asked (leakySetting P 1) = 1 := rfl
  have hleak : LeaksEach (leakySetting P 1) (fun _ => none) 1 :=
    leaky_leaksEach (by rw [used_empty, hone]; omega)
  obtain ⟨q, out, e, hhalt, he⟩ :=
    estimate_printed leaky_loads ⟨fun _ => none, 0⟩ (Nat.le_refl 1) (Nat.le_of_eq hone.symm) hleak
  have hfree : free (bareRun (leakySetting P 1) (fun _ => none) (asked (leakySetting P 1))) =
      P.PTHREAD_KEYS_MAX - 1 := by
    have := used_add_free_eq_max
      (bareRun (leakySetting P 1) (fun _ => none) (asked (leakySetting P 1)))
    rw [hleak.used_eq (Nat.le_refl _), used_empty, hone] at this
    rw [hone]
    omega
  rw [hfree, hone] at he
  exact ⟨q, out, e, hhalt, he⟩

/-- With 1024 slots that is 512, and the keys run out in round 1025. -/
theorem estimate_far_off : ¬ ∀ (P : Platform) (S : Setting P) (p : Process P) (c : Nat),
    Loads S.plugin → 1 ≤ c → 1 ≤ asked S → LeaksEach S p.keys c →
    ∀ (q : Process P) (out : List Line) (e : Int32) (R : Nat),
      HaltsAfter (step S) (asked S + 1) (start S p) (.exited 1 q (out ++ [.leakConfirmed e])) →
      FirstShortRound P.PTHREAD_KEYS_MAX (used p.keys) c R → ((R : Int) - e.toInt).natAbs ≤ 1 := by
  intro h
  have hleak : LeaksEach (leakySetting glibc 1) (fun _ => none) 1 :=
    leaky_leaksEach (by rw [used_empty]; decide)
  have hshort : FirstShortRound glibc.PTHREAD_KEYS_MAX (used (fun _ => none : Table glibc)) 1
      (1 + 1023 / 1 + 1) := by
    rw [used_empty]
    exact firstShortRound_eq (Nat.le_refl 1) (show 0 + 1 * 1 + 1023 = _ from rfl)
  obtain ⟨q, out, e, hhalt, he⟩ := leaky_estimate (P := glibc) (by decide)
  have := h glibc _ ⟨fun _ => none, 0⟩ 1 leaky_loads (Nat.le_refl 1) (by decide) hleak q out e _
    hhalt hshort
  rw [he] at this
  exact absurd this (by decide)

theorem estimate_accuracy_leaky : ∃ (q : Process glibc) (out : List Line) (e : Int32) (R : Nat),
    HaltsAfter (step (leakySetting glibc 1)) (asked (leakySetting glibc 1) + 1)
        (start (leakySetting glibc 1) ⟨fun _ => none, 0⟩)
        (.exited 1 q (out ++ [.leakConfirmed e])) ∧
      FirstShortRound glibc.PTHREAD_KEYS_MAX (used (fun _ => none : Table glibc)) 1 R ∧
      e.toInt < R := by
  obtain ⟨q, out, e, R, hhalt, hR, -, hlt, -⟩ :=
    estimate_accuracy (leaky_loads (P := glibc)) ⟨fun _ => none, 0⟩ (Nat.le_refl 1)
      (show 1 ≤ asked (leakySetting glibc 1) by decide) (leaky_leaksEach (by rw [used_empty]; decide))
  exact ⟨q, out, e, R, hhalt, hR, hlt⟩

end CrashEstimate
