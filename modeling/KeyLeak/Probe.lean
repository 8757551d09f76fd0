import KeyLeak.KeyTable

/-!
# The two exhaustion probes

`tls_used` of the detector takes every free key, counts them and gives them back;
`can_create_key` of the older driver tries to take one. Both are run on a live
process, so what they leave behind matters as much as what they return.
-/
namespace Probe

open SlotPool KeyTable CInt

variable {P : Platform}

/-- `for (;;) { if (pthread_key_create(&k, nullptr) != 0) break; keys.push_back(k); }` -/
def createLoop (A : Policy (Key P) Dtor) (p : Process P) (keys : List (Key P)) :
    List (Key P) × Process P :=
  match _hc : pthreadKeyCreate A p none with
  | (none, p') => (keys, p')
  | (some k, p') => createLoop A p' (keys ++ [k])
termination_by free p.keys
decreasing_by
  rcases pthreadKeyCreate_cases A p none with ⟨j, hj, h⟩ | ⟨-, h⟩
  · rw [h] at _hc
    cases _hc
    have := free_put p.keys k none hj
    simp only
    omega
  · rw [h] at _hc
    cases _hc

/-- `for (auto k : keys) pthread_key_delete(k);` -/
def deleteLoop (p : Process P) : List (Key P) → Process P
  | [] => p
  | k :: ks => deleteLoop (pthreadKeyDelete p k) ks

def tlsUsed (A : Policy (Key P) Dtor) (p : Process P) : Int32 × Process P :=
  let (keys, p) := createLoop A p []
  let freeN := Int32.ofNat keys.length
  let p := deleteLoop p keys
  (Int32.ofNat P.PTHREAD_KEYS_MAX - freeN, p)

def tlsTotal (P : Platform) : Int32 := Int32.ofNat P.PTHREAD_KEYS_MAX

def canCreateKey (A : Policy (Key P) Dtor) (p : Process P) : Int32 × Process P :=
  match pthreadKeyCreate A p none with
  | (some key, p) => (1, pthreadKeyDelete p key)
  | (none, p) => (0, p)

/-- The loop stops on a full table, has collected exactly what it took, and needed
one create more than that. -/
theorem createLoop_spec (A : Policy (Key P) Dtor) (p : Process P) (keys : List (Key P)) :
    ∃ taken q, createLoop A p keys = (keys ++ taken, ⟨q, p.calls + (taken.length + 1)⟩) ∧
      Acquires none p.keys taken q ∧ free q = 0 := by
  fun_induction createLoop A p keys with
  | case1 p keys p' hc =>
    rcases pthreadKeyCreate_cases A p none with ⟨k, -, h⟩ | ⟨hfull, h⟩
    · rw [h] at hc
      cases hc
    · rw [h] at hc
      cases hc
      exact ⟨[], p.keys, by simp, .nil _, hfull⟩
  | case2 p keys k p' hc ih =>
    rcases pthreadKeyCreate_cases A p none with ⟨j, hj, h⟩ | ⟨-, h⟩
    · rw [h] at hc
      cases hc
      obtain ⟨taken, q, he, ha, hq⟩ := ih
      refine ⟨k :: taken, q, ?_, .cons hj ha, hq⟩
      rw [he]
      simp only [List.append_assoc, List.singleton_append, List.length_cons, Prod.mk.injEq,
        Process.mk.injEq, true_and]
      omega
    · rw [h] at hc
      cases hc

theorem deleteLoop_eq (p : Process P) (ks : List (Key P)) :
    deleteLoop p ks = { p with keys := dropAll p.keys ks } := by
  induction ks generalizing p with
  | nil => rfl
  | cons k ks ih => simp [deleteLoop, ih]

theorem tlsTotal_toInt (P : Platform) : (tlsTotal P).toInt = P.PTHREAD_KEYS_MAX :=
  Int32.toInt_ofNat_of_lt (by have := P.fits; omega)

@[simp] theorem toInt_ofNat_used (t : Table P) : (Int32.ofNat (used t)).toInt = used t := by
  have := used_le_max t
  have := P.fits
  exact Int32.toInt_ofNat_of_lt (by omega)

/-- The probe as a whole: its result counts the allocated keys, the table is left
exactly as it was, and it issues one create more than there are free keys. -/
theorem tlsUsed_spec (A : Policy (Key P) Dtor) (p : Process P) :
    (tlsUsed A p).1.toInt = used p.keys ∧
    (tlsUsed A p).2 = ⟨p.keys, p.calls + (free p.keys + 1)⟩ := by
  obtain ⟨taken, q, he, ha, hq⟩ := createLoop_spec A p []
  have hlen : taken.length = free p.keys := by
    have := ha.free_eq
    omega
  have hmax := used_add_free_eq_max p.keys
  have hfits := P.fits
  constructor
  · have hfree : (Int32.ofNat taken.length).toInt = free p.keys := by
      rw [hlen]
      exact Int32.toInt_ofNat_of_lt (by omega)
    have hsub : (tlsTotal P - Int32.ofNat taken.length).toInt = used p.keys := by
      rw [toInt_sub] <;> rw [tlsTotal_toInt, hfree]
      · omega
      · rw [fits_iff]
        omega
    simp only [tlsUsed, he, List.nil_append]
    exact hsub
  · simp only [tlsUsed, he, List.nil_append, deleteLoop_eq, ha.dropAll_eq, hlen]

@[simp] theorem tlsUsed_toInt (A : Policy (Key P) Dtor) (p : Process P) :
    (tlsUsed A p).1.toInt = used p.keys := (tlsUsed_spec A p).1

@[simp] theorem tlsUsed_keys (A : Policy (Key P) Dtor) (p : Process P) :
    (tlsUsed A p).2.keys = p.keys := by rw [(tlsUsed_spec A p).2]

@[simp] theorem tlsUsed_calls (A : Policy (Key P) Dtor) (p : Process P) :
    (tlsUsed A p).2.calls = p.calls + (free p.keys + 1) := by rw [(tlsUsed_spec A p).2]

theorem tlsUsed_fst (A : Policy (Key P) Dtor) (p : Process P) :
    (tlsUsed A p).1 = Int32.ofNat (used p.keys) := by
  rw [← Int32.toInt_inj, tlsUsed_toInt, toInt_ofNat_used]

/-- A saturated table reads as full, and only that. -/
theorem tlsUsed_lt_tlsTotal_iff (A : Policy (Key P) Dtor) (p : Process P) :
    (tlsUsed A p).1 < tlsTotal P ↔ free p.keys ≠ 0 := by
  rw [Int32.lt_iff_toInt_lt, tlsUsed_toInt, tlsTotal_toInt]
  have := used_add_free_eq_max p.keys
  omega

theorem canCreateKey_spec (A : Policy (Key P) Dtor) (p : Process P) :
    (canCreateKey A p).2.keys = p.keys ∧
    (canCreateKey A p).1 = if free p.keys = 0 then 0 else 1 := by
  rcases pthreadKeyCreate_cases A p none with ⟨k, hk, h⟩ | ⟨hfull, h⟩
  · have := free_put p.keys k none hk
    have hne : free p.keys ≠ 0 := by omega
    simp [canCreateKey, h, drop_put p.keys k none hk, hne]
  · simp [canCreateKey, h, hfull]

/-- Both probes at once, for every table and every choice of slots: the number of
creates, the result, the table left behind, and the agreement of the two. -/
theorem probes_exact_and_agree (A B : Policy (Key P) Dtor) (p : Process P) (calls : Nat) :
    (tlsUsed A p).2.calls = p.calls + (free p.keys + 1) ∧
    (tlsUsed A p).1.toInt = used p.keys ∧
    (tlsUsed A p).2.keys = p.keys ∧
    (canCreateKey B p).2.keys = p.keys ∧
    ((canCreateKey B p).1 = 1 ↔ (tlsUsed A ⟨p.keys, calls⟩).1 < tlsTotal P) := by
  refine ⟨tlsUsed_calls A p, tlsUsed_toInt A p, tlsUsed_keys A p, (canCreateKey_spec B p).1, ?_⟩
  rw [(canCreateKey_spec B p).2, tlsUsed_lt_tlsTotal_iff]
  split <;> simp_all

end Probe
