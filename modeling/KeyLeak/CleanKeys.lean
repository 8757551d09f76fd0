import KeyLeak.CleanLib

/-!
# Whose keys the clean library touches

A create that succeeded gives the library a slot that stays its own until its own
destructor deletes it. After one that failed the static key names slot 0, and every
call of that load is made on whatever is there.
-/
namespace CleanKeys

open SlotPool KeyTable ThreadSpecific Runs CleanLib

variable {P : Platform} {τ : Type}

/-- What the create of this load obtained is still held. -/
def KeepsCreated (s : State P τ) : Prop :=
  ∀ im, s.image = some im → im.created ≠ none →
    im.created = some im.key ∧ s.world.holder im.key = some .plugin

/-- The library is loaded, and its create failed. -/
def Keyless (s : State P τ) : Prop := ∃ im, s.image = some im ∧ im.created = none

def Owned (log : List (Access P)) : Prop := ∀ a ∈ log, a.own

/-- One more call keeps the record clean when its load obtained a key. -/
theorem owned_note_iff {s : State P τ} {im : Image P} (hs : KeepsCreated s)
    (himage : s.image = some im) (call : Call) :
    Owned (s.note call im).log ↔ Owned s.log ∧ ¬ Keyless s := by
  have hown : Access.own ⟨call, im.key, im.created, s.world.holder im.key⟩ ↔ ¬ Keyless s := by
    constructor
    · rintro ⟨hcreated, -⟩ ⟨im', himage', hnone⟩
      have him : im = im' := Option.some.inj (himage.symm.trans himage')
      have hsome : im.created = some im.key := hcreated
      rw [him, hnone] at hsome
      cases hsome
    · intro hk
      exact hs im himage (fun hnone => hk ⟨im, himage, hnone⟩)
  simp only [Owned, State.note, List.mem_append, List.mem_singleton, or_imp, forall_and,
    forall_eq, hown]

theorem not_holder_of_vacant {w : World P τ} {k : Key P} (hk : w.process.keys k = none)
    (who : Party) : w.holder k ≠ some who := by simp [World.holder, hk]

theorem free_ne_zero_of_vacant {t : Table P} {k : Key P} (hk : t k = none) : free t ≠ 0 := by
  intro h
  exact (free_eq_zero_iff t).mp h k hk

theorem start_keepsCreated (keys : Table P) (values : τ → Key P → Option Nat) :
    KeepsCreated (start keys values) := by
  intro im himage
  simp [start] at himage

theorem start_not_keyless (keys : Table P) (values : τ → Key P → Option Nat) :
    ¬ Keyless (start keys values) := by
  simp [Keyless, start]

variable [NeZero P.PTHREAD_KEYS_MAX] {A : Policy (Key P) Dtor}

theorem load_full {s : State P τ} (hfull : free s.world.process.keys = 0) :
    load A s = { s with world := s.world.refuse, image := some ⟨0, true, none⟩ } := by
  rcases load_cases A s with ⟨k, hk, -⟩ | ⟨-, h⟩
  · exact absurd hfull (free_ne_zero_of_vacant hk)
  · exact h

variable [DecidableEq τ]

theorem move_keepsCreated {s s' : State P τ} {e : Event P τ} (hs : KeepsCreated s)
    (h : Move s e s') : KeepsCreated s' := by
  intro im himage' hcreated
  cases h with
  | loaded himage k hk =>
    cases himage'
    simp
  | loadedFull himage hfull =>
    cases himage'
    simp at hcreated
  | found im₁ himage t ht memory p hp => exact hs im himage' hcreated
  | stored im₁ himage t ht hp => simpa using hs im himage' hcreated
  | crashed im₁ himage t ht hp => exact hs im himage' hcreated
  | unloaded im₁ himage => simp [unload] at himage'
  | exited t ht => simpa using hs im himage' hcreated
  | hostCreated d k hk =>
    have hheld := hs im himage' hcreated
    have hne : im.key ≠ k := fun hik => not_holder_of_vacant hk .plugin (hik ▸ hheld.2)
    simpa [World.holder_allocate_other _ _ _ _ _ hne] using hheld
  | hostRefused d hfull => simpa using hs im himage' hcreated
  | hostDeleted k hk =>
    have hheld := hs im himage' hcreated
    have hne : im.key ≠ k := by
      intro hik
      rw [hik, hk] at hheld
      simp at hheld
    simpa [World.holder_delete_other _ _ _ hne] using hheld
  | hostStored t ht k hk n => simpa using hs im himage' hcreated

theorem move_keyless {s s' : State P τ} {e : Event P τ} (h : Move s e s') :
    Keyless s' ↔ (e = .load ∧ free s.world.process.keys = 0) ∨ Keyless s ∧ ¬ e = .unload := by
  cases h with
  | loaded himage k hk => simp [Keyless, himage, free_ne_zero_of_vacant hk]
  | loadedFull himage hfull => simp [Keyless, hfull]
  | unloaded im himage => simp [Keyless, unload]
  | found | stored | crashed | exited | hostCreated | hostRefused | hostDeleted | hostStored =>
    simp [Keyless, State.note]

theorem move_owned {s s' : State P τ} {e : Event P τ} (hs : KeepsCreated s) (h : Move s e s') :
    Owned s'.log ↔ Owned s.log ∧ ¬ (Keyless s ∧ e.touches = true) := by
  cases h with
  | found im himage t ht memory p hp =>
    simpa [Event.touches] using owned_note_iff hs himage .getspecific
  | stored im himage t ht hp =>
    have hfirst := owned_note_iff hs himage .getspecific
    have hsecond := owned_note_iff (s := s.note .getspecific im) hs himage .setspecific
    have hkeyless : Keyless (s.note .getspecific im) ↔ Keyless s := Iff.rfl
    rw [hfirst, hkeyless] at hsecond
    simpa [Event.touches, and_assoc] using hsecond
  | crashed im himage t ht hp =>
    simpa [Event.touches] using owned_note_iff hs himage .getspecific
  | unloaded im himage =>
    have hdelete := owned_note_iff hs himage .keyDelete
    simpa [Event.touches, unload, fini] using hdelete
  | loaded | loadedFull | exited | hostCreated | hostRefused | hostDeleted | hostStored =>
    simp [Event.touches]

/-- A load that finds the table full is the last use of the library: neither
`do_something` nor an unload comes after it. -/
def FullLoadsUnused (A : Policy (Key P) Dtor) (s₀ : State P τ) (evs : List (Event P τ)) : Prop :=
  ∀ a b u, evs = a ++ .load :: b → run (step A) s₀ a = some u →
    free u.world.process.keys = 0 → ∀ e ∈ b, e.touches = false

/-- In terms of histories: no call of the library comes in a keyless state. -/
theorem fullLoadsUnused_iff {s₀ s : State P τ} {evs : List (Event P τ)}
    (h : run (step A) s₀ evs = some s) (hstart : ¬ Keyless s₀) :
    FullLoadsUnused A s₀ evs ↔ ∀ a e b u, evs = a ++ e :: b → run (step A) s₀ a = some u →
      ¬ (Keyless u ∧ e.touches = true) := by
  have hnext : ∀ es u e v, run (step A) s₀ es = some u → step A u e = some v →
      (Keyless v ↔ (e = .load ∧ free u.world.process.keys = 0) ∨ Keyless u ∧ ¬ e = .unload) :=
    fun _ _ _ _ _ he => move_keyless (step_move he)
  have hsince : ∀ {a u}, run (step A) s₀ a = some u → (Keyless u ↔ ∃ c e d w, a = c ++ e :: d ∧
      run (step A) s₀ c = some w ∧ (e = .load ∧ free w.world.process.keys = 0) ∧
      ∀ y ∈ d, ¬ y = .unload) :=
    fun hu => (run_since hnext hu).trans (or_iff_right fun h => hstart h.1)
  constructor
  · rintro hunused a e b u rfl hu ⟨hkeyless, htouches⟩
    obtain ⟨c, _, d, w, rfl, hw, ⟨rfl, hfull⟩, -⟩ := (hsince hu).mp hkeyless
    have := hunused c (d ++ e :: b) w (by simp) hw hfull e (by simp)
    simp [htouches] at this
  · rintro hnever a b u rfl hu hfull e he
    by_contra htouches
    obtain ⟨b₁, x, b₂, rfl, hx, hb₁⟩ := exists_first he (by simpa using htouches)
    rw [← List.cons_append, ← List.append_assoc] at h
    obtain ⟨w, hw, -⟩ := run_append_some h
    have hquiet : ∀ y ∈ b₁, ¬ y = Event.unload := by
      rintro y hy rfl
      simpa [Event.touches] using hb₁ _ hy
    have hkeyless := (hsince hw).mpr ⟨a, .load, b₁, u, rfl, hu, ⟨rfl, hfull⟩, hquiet⟩
    exact hnever (a ++ .load :: b₁) x b₂ w (by simp) hw ⟨hkeyless, hx⟩

/-- Every key in the process belongs to somebody else. -/
def fullTable : Table glibc := fun _ => some none

theorem fullTable_free : free fullTable = 0 := by
  rw [free_eq_zero_iff]
  intro k
  simp [fullTable]

/-- On a full table the constructor gets no key, and the destructor deletes slot 0. -/
theorem full_table_hits_host :
    ¬ ∀ (keys : Table glibc) (values : Unit → Key glibc → Option Nat)
      (evs : List (Event glibc Unit)) (s : State glibc Unit),
      run (step (firstFit 1024 Dtor)) (start keys values) evs = some s → Owned s.log := by
  intro h
  let s₀ : State glibc Unit := start fullTable (fun _ _ => none)
  let s₁ : State glibc Unit :=
    { s₀ with world := s₀.world.refuse, image := some ⟨0, true, none⟩ }
  have hload : step (firstFit 1024 Dtor) s₀ .load = some s₁ :=
    congrArg some (load_full fullTable_free)
  have hrun : run (step (firstFit 1024 Dtor)) s₀ [.load, .unload] =
      some (unload s₁ ⟨0, true, none⟩) := by
    rw [run_cons, hload]
    rfl
  have hown := h fullTable (fun _ _ => none) [.load, .unload] _ hrun
    ⟨.keyDelete, 0, none, some .host⟩ (List.mem_singleton.mpr rfl)
  cases hown.1

/-- Over every run from any table: each call the library makes on its key is on the key
that its own create of the current load obtained, and that nobody else holds, exactly
when every load that finds the table full is left unused. -/
theorem accesses_own_iff {keys : Table P} {values : τ → Key P → Option Nat}
    {evs : List (Event P τ)} {s : State P τ}
    (h : run (step A) (start keys values) evs = some s) :
    Owned s.log ↔ FullLoadsUnused A (start keys values) evs := by
  rw [fullLoadsUnused_iff h (start_not_keyless keys values)]
  have hstart : Owned (start keys values).log := by simp [Owned, start]
  have hkeeps : ∀ {es : List (Event P τ)} {u : State P τ},
      run (step A) (start keys values) es = some u → KeepsCreated u :=
    fun hu => run_invariant (fun _ _ _ hs he => move_keepsCreated hs (step_move he))
      (start_keepsCreated keys values) hu
  have hnext : ∀ es u e v, run (step A) (start keys values) es = some u → step A u e = some v →
      (Owned v.log ↔ Owned u.log ∧ ¬ (Keyless u ∧ e.touches = true)) :=
    fun _ _ _ _ hu he => move_owned (hkeeps hu) (step_move he)
  exact run_never (R := fun s => Owned s.log) hstart hnext h

theorem accesses_own_iff_at_first_use : ∃ s : State glibc Unit,
    run (step (firstFit 1024 Dtor)) (start (fun _ => none) fun _ _ => none)
      [.load, .doSomething () true] = some s ∧
    (Owned s.log ↔ FullLoadsUnused (P := glibc) (firstFit 1024 Dtor)
      (start (fun _ => none) fun (_ : Unit) _ => none) [.load, .doSomething () true]) := by
  let s₀ : State glibc Unit := start (fun _ => none) (fun _ _ => none)
  rcases load_cases (firstFit 1024 Dtor) s₀ with ⟨k, -, h⟩ | ⟨hfull, -⟩
  · let s₁ : State glibc Unit :=
      { s₀ with world := s₀.world.allocate k .plugin dtor, image := some ⟨k, true, some k⟩ }
    have hload : step (firstFit 1024 Dtor) s₀ .load = some s₁ := congrArg some h
    have hrun : run (step (firstFit 1024 Dtor)) s₀ [.load, .doSomething () true] =
        some (doSomething s₁ ⟨k, true, some k⟩ () true) := by
      rw [run_cons, hload]
      rfl
    exact ⟨_, hrun, accesses_own_iff hrun⟩
  · exact absurd hfull (free_ne_zero_of_vacant (k := 0) rfl)

end CleanKeys
