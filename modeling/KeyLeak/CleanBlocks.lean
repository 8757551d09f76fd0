import KeyLeak.Lib.BlockLedger
import KeyLeak.CleanKeys

/-!
# The blocks of the clean library

`do_something` keeps one block per thread under the library's key. The key's destructor
frees it when the thread exits; `fini` deletes the key and frees nothing. Only the loads
whose create succeeds are looked at here, and memory never runs out.
-/
namespace CleanBlocks

open SlotPool KeyTable ThreadSpecific Runs CleanLib CleanKeys BlockLedger

variable {P : Platform} {τ : Type}

/-- The block is the value of the library's allocated key in a live thread. -/
def Stored (s : State P τ) (n : Nat) : Prop :=
  ∃ t im, t ∉ s.world.exited ∧ s.image = some im ∧ s.world.holder im.key = some .plugin ∧
    s.world.getspecific t im.key = some (.block n)

/-- Each block was freed exactly once, or it is still stored and was not freed. -/
def BlocksAccounted (s : State P τ) : Prop :=
  ∀ n, n < s.world.mallocs →
    (s.world.frees.count n = 1 ∧ ¬ Stored s n) ∨ (s.world.frees.count n = 0 ∧ Stored s n)

/-- Why a create or a `malloc` of the library fails. -/
def fails (s : State P τ) : Event P τ → Bool
  | .load => free s.world.process.keys = 0
  | .doSomething _ memory => !memory
  | _ => false

/-- Every thread that uses the library exits before the library is next unloaded. -/
def UsersExit (evs : List (Event P τ)) : Prop :=
  ∀ a t memory b c, evs = a ++ .doSomething t memory :: (b ++ .unload :: c) → .unload ∉ b →
    .threadExit t ∈ b

/-- The ledger of a state: a thread holds the block it finds under the library's key. -/
def ledger (s : State P τ) : Ledger τ where
  held t := s.image.bind (fun im => (s.world.getspecific t im.key).bind Pointer.number)
  issued := s.world.mallocs
  freed := s.world.frees

/-- Where blocks can be found at all, when every create has succeeded. -/
structure Keyed (s : State P τ) : Prop where
  key : ∀ im, s.image = some im →
    s.world.process.keys im.key = some dtor ∧ s.world.owner im.key = .plugin
  blocks : ∀ t k n, s.world.getspecific t k = some (.block n) →
    ∃ im, s.image = some im ∧ im.key = k
  onlyBlocks : ∀ im t p, s.image = some im → s.world.getspecific t im.key = some p →
    ∃ n, p = .block n
  exited : ∀ t, t ∈ s.world.exited → ∀ k, s.world.getspecific t k = none

theorem Keyed.holder {s : State P τ} (hs : Keyed s) {im : Image P} (himage : s.image = some im) :
    s.world.holder im.key = some .plugin := by
  simp [World.holder, hs.key im himage]

/-- What everybody else does stays away from the library's key. -/
theorem Keyed.ne_of_holder {s : State P τ} (hs : Keyed s) {im : Image P}
    (himage : s.image = some im) {k : Key P} (hk : s.world.holder k ≠ some .plugin) :
    im.key ≠ k := by
  rintro rfl
  exact hk (hs.holder himage)

/-- A change of the world that leaves the library's slot alone, adds foreign values
elsewhere, and lets threads exit only with all their values gone. -/
theorem Keyed.frame {s : State P τ} (hs : Keyed s) {w : World P τ}
    (hkey : ∀ im, s.image = some im →
      w.process.keys im.key = s.world.process.keys im.key ∧ w.owner im.key = s.world.owner im.key)
    (hvalue : ∀ t k p, w.getspecific t k = some p → s.world.getspecific t k = some p ∨
      (∃ n, p = .foreign n) ∧ ∀ im, s.image = some im → im.key ≠ k)
    (hexited : ∀ t, t ∈ w.exited → ∀ k, w.getspecific t k = none) :
    Keyed { s with world := w } := by
  constructor
  · intro im himage
    obtain ⟨hkeys, howner⟩ := hkey im himage
    simpa [hkeys, howner] using hs.key im himage
  · intro t k n hp
    rcases hvalue t k _ hp with hold | ⟨⟨m, hm⟩, -⟩
    · exact hs.blocks t k n hold
    · cases hm
  · intro im t p himage hp
    rcases hvalue t im.key p hp with hold | ⟨-, hne⟩
    · exact hs.onlyBlocks im t p himage hold
    · exact absurd rfl (hne im himage)
  · exact hexited

theorem ledger_frame {s : State P τ} {w : World P τ}
    (hvalue : ∀ im, s.image = some im → ∀ t,
      w.getspecific t im.key = s.world.getspecific t im.key)
    (hmallocs : w.mallocs = s.world.mallocs) (hfrees : w.frees = s.world.frees) :
    ledger { s with world := w } = ledger s := by
  cases himage : s.image with
  | none => simp [ledger, himage, hmallocs, hfrees]
  | some im => simp [ledger, himage, hmallocs, hfrees, hvalue im himage]

theorem filterMap_of_single {α β : Type} {f : α → Option β} {a : α} {l : List α} (hl : l.Nodup)
    (ha : a ∈ l) (hf : ∀ x, x ≠ a → f x = none) : l.filterMap f = (f a).toList := by
  induction l with
  | nil => simp at ha
  | cons x l ih =>
    obtain ⟨hx, hl⟩ := List.nodup_cons.mp hl
    rcases List.mem_cons.mp ha with rfl | ha
    · have hrest : l.filterMap f = [] := by
        rw [List.filterMap_eq_nil_iff]
        intro y hy
        exact hf y (fun hya => hx (hya ▸ hy))
      cases hfa : f a <;> simp [hfa, hrest]
    · have hxa : x ≠ a := fun h => hx (h ▸ ha)
      simp [hf x hxa, ih hl ha]

theorem Keyed.destroyed_eq_none {s : State P τ} (hs : Keyed s) (t : τ) {k : Key P}
    (hk : ∀ im, s.image = some im → im.key ≠ k) : s.world.destroyed t k = none := by
  cases hd : s.world.destroyed t k with
  | none => rfl
  | some n =>
    obtain ⟨im, himage, hkey⟩ := hs.blocks t k n (World.getspecific_of_destroyed hd)
    exact absurd hkey (hk im himage)

/-- An exit frees what the ledger says the thread holds. -/
theorem destroyed_eq_held {s : State P τ} (hs : Keyed s) (t : τ) :
    (List.finRange P.PTHREAD_KEYS_MAX).filterMap (s.world.destroyed t) =
      ((ledger s).held t).toList := by
  cases himage : s.image with
  | none =>
    have hnone : ∀ k, s.world.destroyed t k = none := fun k =>
      hs.destroyed_eq_none t (by simp [himage])
    simp [ledger, himage, hnone]
  | some im =>
    have hother : ∀ k, k ≠ im.key → s.world.destroyed t k = none := fun k hk =>
      hs.destroyed_eq_none t (by simpa [himage] using Ne.symm hk)
    rw [filterMap_of_single (List.nodup_finRange _) (List.mem_finRange im.key) hother,
      World.destroyed_eq (hs.key im himage).1]
    simp [ledger, himage]

/-- With the library's slot in order, the words used of a state and of its ledger agree. -/
theorem stored_iff {s : State P τ} (hs : Keyed s) (n : Nat) : Stored s n ↔ Held (ledger s) n := by
  constructor
  · rintro ⟨t, im, -, himage, -, hp⟩
    exact ⟨t, by simp [ledger, himage, hp, Pointer.number]⟩
  · rintro ⟨t, ht⟩
    simp only [ledger, Option.bind_eq_some_iff] at ht
    obtain ⟨im, himage, p, hp, hn⟩ := ht
    obtain ⟨m, rfl⟩ := hs.onlyBlocks im t p himage hp
    cases hn
    have hlive : t ∉ s.world.exited := fun ht => by simp [hs.exited t ht im.key] at hp
    exact ⟨t, im, hlive, himage, hs.holder himage, hp⟩

theorem blocksAccounted_iff {s : State P τ} (hs : Keyed s) :
    BlocksAccounted s ↔ Accounted (ledger s) := by
  simp only [BlocksAccounted, Accounted, stored_iff hs]
  rfl

theorem start_keyed (keys : Table P) (values : τ → Key P → Option Nat) :
    Keyed (start keys values) := by
  constructor
  · simp [start]
  · intro t k n hp
    by_cases hk : keys k = none <;> simp [start, World.getspecific, hk] at hp
  · simp [start]
  · simp [start]

theorem start_ledger (keys : Table P) (values : τ → Key P → Option Nat) :
    ledger (start keys values) = opening := rfl

variable [DecidableEq τ]

/-- What an event means for the ledger. -/
def entry (l : Ledger τ) : Event P τ → Ledger τ
  | .doSomething t _ => acquire l t
  | .unload => forget l
  | .threadExit t => release l t
  | _ => l

theorem entry_sound {l : Ledger τ} (hl : Sound l) (e : Event P τ) : Sound (entry l e) := by
  cases e with
  | doSomething t memory => exact acquire_sound hl t
  | unload => exact forget_sound hl
  | threadExit t => exact release_sound hl t
  | load | hostCreate | hostDelete | hostSet => exact hl

/-- Only an unload loses blocks, and it loses all that are held. -/
theorem entry_accounted_iff {l : Ledger τ} (hl : Sound l) (e : Event P τ) :
    Accounted (entry l e) ↔ Accounted l ∧ ¬ (e = .unload ∧ ∃ t, l.held t ≠ none) := by
  cases e with
  | doSomething t memory => simp [entry, acquire_accounted_iff hl t]
  | unload => simp [entry, forget_accounted_iff hl]
  | threadExit t => simp [entry, release_accounted_iff hl t]
  | load | hostCreate | hostDelete | hostSet => simp [entry]

/-- A thread comes to hold a block by `do_something`, and holds it until it exits or the
library is unloaded. -/
theorem entry_held_iff (l : Ledger τ) (e : Event P τ) (t : τ) :
    (entry l e).held t ≠ none ↔
      (∃ memory, e = .doSomething t memory) ∨
      l.held t ≠ none ∧ ¬ (e = .unload ∨ e = .threadExit t) := by
  cases e with
  | doSomething u memory =>
    by_cases hut : t = u
    · simp [entry, hut, acquire_held_same]
    · simp [entry, acquire_held_other l hut, Ne.symm hut]
  | unload => simp [entry, forget]
  | threadExit u =>
    by_cases hut : t = u
    · simp [entry, hut, release_held_same]
    · simp [entry, release_held_other l hut, Ne.symm hut]
  | load | hostCreate | hostDelete | hostSet => simp [entry]

variable [NeZero P.PTHREAD_KEYS_MAX] {A : Policy (Key P) Dtor}

/-- The machine restricted to the events whose creates and `malloc` succeed. -/
def stepOk (A : Policy (Key P) Dtor) (s : State P τ) (e : Event P τ) : Option (State P τ) :=
  if fails s e then none else step A s e

theorem stepOk_move {s s' : State P τ} {e : Event P τ} (h : stepOk A s e = some s') :
    fails s e = false ∧ Move s e s' := by
  by_cases hf : fails s e = true
  · simp [stepOk, hf] at h
  · simp only [stepOk, hf] at h
    exact ⟨by simpa using hf, step_move h⟩

theorem move_keyed {s s' : State P τ} {e : Event P τ} (hs : Keyed s) (hf : fails s e = false)
    (h : Move s e s') : Keyed s' := by
  cases h with
  | loaded himage k hk =>
    have hnone : ∀ t j n, s.world.getspecific t j ≠ some (.block n) := by
      intro t j n hp
      obtain ⟨im, him, -⟩ := hs.blocks t j n hp
      simp [himage] at him
    constructor
    · rintro im ⟨⟩
      simp [World.allocate]
    · intro t j n hp
      by_cases hj : j = k
      · exact ⟨_, rfl, hj.symm⟩
      · simp [hj, hnone] at hp
    · rintro im t p ⟨⟩ hp
      simp at hp
    · intro t ht j
      simpa using fun _ => hs.exited t ht j
  | loadedFull himage hfull => simp [fails, hfull] at hf
  | found im himage t ht memory p hp => exact ⟨hs.key, hs.blocks, hs.onlyBlocks, hs.exited⟩
  | stored im himage t ht hp =>
    have hkey : s.world.process.keys im.key ≠ none := by simp [(hs.key im himage).1]
    obtain ⟨howner, -, -, hexited⟩ :=
      s.world.malloc.2.setspecific_frame t im.key s.world.malloc.1
    have hvalue : ∀ u j p,
        (s.world.malloc.2.setspecific t im.key s.world.malloc.1).getspecific u j = some p →
          (j = im.key ∧ p = .block s.world.mallocs) ∨ s.world.getspecific u j = some p := by
      intro u j p hp
      rw [s.world.getspecific_store t u j hkey] at hp
      by_cases huj : u = t ∧ j = im.key
      · exact .inl ⟨huj.2, by simpa [huj, eq_comm] using hp⟩
      · exact .inr (by simpa [huj] using hp)
    constructor
    · intro im' himage'
      obtain ⟨hkeys, hplugin⟩ := hs.key im' himage'
      exact ⟨by simpa [World.malloc] using hkeys, (congrFun howner im'.key).trans hplugin⟩
    · intro u j n hp
      rcases hvalue u j _ hp with ⟨hj, -⟩ | hold
      · exact ⟨im, himage, hj.symm⟩
      · exact hs.blocks u j n hold
    · intro im' u p himage' hp
      rcases hvalue u im'.key p hp with ⟨-, hblock⟩ | hold
      · exact ⟨_, hblock⟩
      · exact hs.onlyBlocks im' u p himage' hold
    · intro u hu j
      have hu' : u ∈ s.world.exited := hexited ▸ hu
      have hut : ¬ (u = t ∧ j = im.key) := fun h => ht (h.1 ▸ hu')
      simpa [s.world.getspecific_store t u j hkey, hut] using hs.exited u hu' j
  | crashed im himage t ht hp => simp [fails] at hf
  | unloaded im himage =>
    have hgone : ∀ t j n, (s.world.delete im.key).getspecific t j ≠ some (.block n) := by
      intro t j n hp
      simp only [World.getspecific_delete, Option.ite_none_left_eq_some] at hp
      obtain ⟨im', himage', hj⟩ := hs.blocks t j n hp.2
      rw [himage] at himage'
      cases himage'
      exact hp.1 hj.symm
    constructor
    · simp [unload]
    · intro t j n hp
      exact absurd hp (hgone t j n)
    · simp [unload]
    · intro t ht j
      simpa [unload, fini] using fun _ => hs.exited t ht j
  | exited t ht =>
    refine hs.frame (fun im himage => ⟨rfl, rfl⟩) (fun u k p hp => ?_) (fun u hu k => ?_)
    · simp only [World.getspecific_threadExit, Option.ite_none_left_eq_some] at hp
      exact .inl hp.2
    · rcases List.mem_cons.mp hu with rfl | hu
      · simp
      · simpa using fun _ => hs.exited u hu k
  | hostCreated d k hk =>
    have hne : ∀ im, s.image = some im → im.key ≠ k := fun im himage =>
      hs.ne_of_holder himage (not_holder_of_vacant hk .plugin)
    refine hs.frame (fun im himage => ?_) (fun t j p hp => ?_) (fun t ht j => ?_)
    · simp [World.allocate, hne im himage]
    · simp only [World.getspecific_allocate, Option.ite_none_left_eq_some] at hp
      exact .inl hp.2
    · simpa using fun _ => hs.exited t ht j
  | hostRefused d hfull => exact ⟨hs.key, hs.blocks, hs.onlyBlocks, hs.exited⟩
  | hostDeleted k hk =>
    have hne : ∀ im, s.image = some im → im.key ≠ k := fun im himage =>
      hs.ne_of_holder himage (by simp [hk])
    refine hs.frame (fun im himage => ?_) (fun t j p hp => ?_) (fun t ht j => ?_)
    · simp [World.delete, hne im himage]
    · simp only [World.getspecific_delete, Option.ite_none_left_eq_some] at hp
      exact .inl hp.2
    · simpa using fun _ => hs.exited t ht j
  | hostStored t ht k hk n =>
    have hne : ∀ im, s.image = some im → im.key ≠ k := fun im himage =>
      hs.ne_of_holder himage (by simp [hk])
    have hkey : s.world.process.keys k ≠ none := fun hnone => by simp [World.holder, hnone] at hk
    obtain ⟨howner, -, -, hexited⟩ := s.world.setspecific_frame t k (.foreign n)
    refine hs.frame (fun im himage => ?_) (fun u j p hp => ?_) (fun u hu j => ?_)
    · simp [howner]
    · rw [World.getspecific_setspecific _ _ _ _ _ hkey] at hp
      by_cases huj : u = t ∧ j = k
      · exact .inr ⟨⟨n, by simpa [huj, eq_comm] using hp⟩, fun im himage => huj.2 ▸ hne im himage⟩
      · exact .inl (by simpa [huj] using hp)
    · rw [hexited] at hu
      have hut : ¬ (u = t ∧ j = k) := fun h => ht (h.1 ▸ hu)
      simpa [World.getspecific_setspecific _ _ _ _ _ hkey, hut] using hs.exited u hu j

theorem move_ledger {s s' : State P τ} {e : Event P τ} (hs : Keyed s) (hf : fails s e = false)
    (h : Move s e s') : ledger s' = entry (ledger s) e := by
  cases h with
  | loaded himage k hk =>
    simp only [ledger, entry, himage, Option.bind_some, Option.bind_none,
      World.getspecific_allocate, if_true]
    rfl
  | loadedFull himage hfull => simp [fails, hfull] at hf
  | found im himage t ht memory p hp =>
    obtain ⟨n, rfl⟩ := hs.onlyBlocks im t p himage hp
    have hheld : (ledger s).held t = some n := by simp [ledger, himage, hp, Pointer.number]
    simp only [entry, acquire, hheld]
    rfl
  | stored im himage t ht hp =>
    have hheld : (ledger s).held t = none := by simp [ledger, himage, hp]
    have hkey : s.world.process.keys im.key ≠ none := by simp [(hs.key im himage).1]
    obtain ⟨-, hmallocs, hfrees, -⟩ :=
      s.world.malloc.2.setspecific_frame t im.key s.world.malloc.1
    have hentry : entry (P := P) (ledger s) (.doSomething t true) =
        ⟨fun u => if u = t then some s.world.mallocs else (ledger s).held u,
          s.world.mallocs + 1, s.world.frees⟩ := by
      simp only [entry, acquire, hheld]
      rfl
    rw [hentry]
    simp only [ledger, State.note, himage, Option.bind_some,
      fun u => s.world.getspecific_store t u im.key hkey, hmallocs, hfrees, Ledger.mk.injEq]
    refine ⟨?_, rfl, rfl⟩
    funext u
    by_cases hut : u = t
    · simp [hut, Pointer.number]
    · simp [hut]
  | crashed im himage t ht hp => simp [fails] at hf
  | unloaded im himage => rfl
  | exited t ht =>
    have hfrees := destroyed_eq_held hs t
    simp only [entry, release, ← hfrees]
    simp only [ledger, World.getspecific_threadExit, Ledger.mk.injEq]
    refine ⟨?_, rfl, rfl⟩
    funext u
    cases himage : s.image with
    | none => simp
    | some im => by_cases hut : u = t <;> simp [hut]
  | hostCreated d k hk =>
    refine ledger_frame (fun im himage t => ?_) rfl rfl
    have hne := hs.ne_of_holder himage (not_holder_of_vacant hk .plugin)
    simp [hne]
  | hostRefused d hfull => rfl
  | hostDeleted k hk =>
    refine ledger_frame (fun im himage t => ?_) rfl rfl
    have hne : im.key ≠ k := hs.ne_of_holder himage (by simp [hk])
    simp [hne]
  | hostStored t ht k hk n =>
    have hkey : s.world.process.keys k ≠ none := fun hnone => by simp [World.holder, hnone] at hk
    obtain ⟨-, hmallocs, hfrees, -⟩ := s.world.setspecific_frame t k (.foreign n)
    refine ledger_frame (fun im himage u => ?_) hmallocs hfrees
    have hne : im.key ≠ k := hs.ne_of_holder himage (by simp [hk])
    simp [World.getspecific_setspecific _ _ _ _ _ hkey, hne]

/-- The two invariants of every run in which the creates and `malloc` succeed. -/
theorem run_keyed {keys : Table P} {values : τ → Key P → Option Nat} {evs : List (Event P τ)}
    {s : State P τ} (h : run (stepOk A) (start keys values) evs = some s) :
    Keyed s ∧ Sound (ledger s) := by
  have hnext : ∀ (s : State P τ) (e : Event P τ) s', (Keyed s ∧ Sound (ledger s)) →
      stepOk A s e = some s' →
      Keyed s' ∧ Sound (ledger s') := by
    rintro s e s' ⟨hs, hl⟩ he
    obtain ⟨hf, hmove⟩ := stepOk_move he
    exact ⟨move_keyed hs hf hmove, move_ledger hs hf hmove ▸ entry_sound hl e⟩
  exact run_invariant (I := fun s => Keyed s ∧ Sound (ledger s)) hnext
    ⟨start_keyed keys values, opening_sound⟩ h

/-- A thread holds a block exactly when it has used the library since its last load and
has not exited. -/
theorem run_held_iff {keys : Table P} {values : τ → Key P → Option Nat} {evs : List (Event P τ)}
    {s : State P τ} (h : run (stepOk A) (start keys values) evs = some s) (t : τ) :
    (ledger s).held t ≠ none ↔ ∃ a memory b, evs = a ++ .doSomething t memory :: b ∧
      .unload ∉ b ∧ .threadExit t ∉ b := by
  have hnext : ∀ es u e v, run (stepOk A) (start keys values) es = some u →
      stepOk A u e = some v → ((ledger v).held t ≠ none ↔
        (∃ memory, e = .doSomething t memory) ∨
        (ledger u).held t ≠ none ∧ ¬ (e = .unload ∨ e = .threadExit t)) := by
    intro es u e v hu he
    obtain ⟨hf, hmove⟩ := stepOk_move he
    rw [move_ledger (run_keyed hu).1 hf hmove]
    exact entry_held_iff (ledger u) e t
  have hstart : ¬ (ledger (start keys values)).held t ≠ none := by simp [start_ledger, opening]
  rw [run_since (Q := fun s => (ledger s).held t ≠ none) hnext h, or_iff_right fun h => hstart h.1]
  constructor
  · rintro ⟨a, e, b, u, hevs, -, ⟨memory, rfl⟩, hb⟩
    exact ⟨a, memory, b, hevs, fun hx => hb _ hx (.inl rfl), fun hx => hb _ hx (.inr rfl)⟩
  · rintro ⟨a, memory, b, rfl, hunload, hexit⟩
    obtain ⟨u, hu, -⟩ := run_append_some h
    refine ⟨a, _, b, u, rfl, hu, ⟨memory, rfl⟩, ?_⟩
    rintro y hy (rfl | rfl)
    · exact hunload hy
    · exact hexit hy

/-- A block is lost by the first unload that finds a thread holding one. -/
theorem run_accounted_iff {keys : Table P} {values : τ → Key P → Option Nat}
    {evs : List (Event P τ)} {s : State P τ}
    (h : run (stepOk A) (start keys values) evs = some s) :
    Accounted (ledger s) ↔ ∀ a e b u, evs = a ++ e :: b →
      run (stepOk A) (start keys values) a = some u →
        ¬ (e = .unload ∧ ∃ t, (ledger u).held t ≠ none) := by
  have hnext : ∀ es u e v, run (stepOk A) (start keys values) es = some u →
      stepOk A u e = some v → (Accounted (ledger v) ↔
        Accounted (ledger u) ∧ ¬ (e = .unload ∧ ∃ t, (ledger u).held t ≠ none)) := by
    intro es u e v hu he
    obtain ⟨hf, hmove⟩ := stepOk_move he
    obtain ⟨hs, hl⟩ := run_keyed hu
    rw [move_ledger hs hf hmove]
    exact entry_accounted_iff hl e
  have hstart : Accounted (ledger (start keys values)) := opening_accounted
  exact run_never (R := fun s => Accounted (ledger s)) hstart hnext h

/-- A thread that still runs when the library is unloaded takes its block with it. -/
theorem run_use_unload (A : Policy (Key P) Dtor) {keys : Table P} (hfree : free keys ≠ 0)
    (values : τ → Key P → Option Nat) (t : τ) :
    ∃ s, run (stepOk A) (start keys values) [.load, .doSomething t true, .unload] = some s ∧
      s.image = none ∧ s.world.mallocs = 1 ∧ s.world.frees = [] := by
  let s₀ := start keys values
  rcases load_cases A s₀ with ⟨k, -, h⟩ | ⟨hfull, -⟩
  · let im : Image P := ⟨k, true, some k⟩
    let s₁ : State P τ := { s₀ with world := s₀.world.allocate k .plugin dtor, image := some im }
    have hload : stepOk A s₀ .load = some s₁ := by
      have hok : fails s₀ .load = false := by simpa [fails, s₀, start] using hfree
      simp only [stepOk, hok]
      exact congrArg some h
    have hnone : s₁.world.getspecific t im.key = none := by simp [s₁, im]
    obtain ⟨-, hmallocs, hfrees, -⟩ :=
      s₁.world.malloc.2.setspecific_frame t im.key s₁.world.malloc.1
    let s₂ : State P τ := { (s₁.note .getspecific im).note .setspecific im with
      world := s₁.world.malloc.2.setspecific t im.key s₁.world.malloc.1 }
    have huse : stepOk A s₁ (.doSomething t true) = some s₂ := by
      have hact : stepOk A s₁ (.doSomething t true) = some (doSomething s₁ im t true) := rfl
      rw [hact, doSomething, hnone]
      rfl
    refine ⟨unload s₂ im, ?_, rfl, hmallocs, hfrees⟩
    rw [run_cons, hload, Option.bind_some, run_cons, huse]
    rfl
  · exact absurd hfull hfree

/-- Over every run in which every create and `malloc` succeeds: each block is accounted
for exactly when the threads that use the library exit before it is unloaded. -/
theorem blocksAccounted_iff_usersExit {keys : Table P} {values : τ → Key P → Option Nat}
    {evs : List (Event P τ)} {s : State P τ}
    (h : run (stepOk A) (start keys values) evs = some s) : BlocksAccounted s ↔ UsersExit evs := by
  rw [blocksAccounted_iff (run_keyed h).1, run_accounted_iff h]
  constructor
  · intro hnever a t memory b c hevs hb
    by_contra hexit
    have hsplit : evs = (a ++ .doSomething t memory :: b) ++ .unload :: c := by simp [hevs]
    obtain ⟨u, hu, -⟩ := run_append_some (hsplit ▸ h)
    have hheld := (run_held_iff hu t).mpr ⟨a, memory, b, rfl, hb, hexit⟩
    exact hnever _ _ c u hsplit hu ⟨rfl, t, hheld⟩
  · rintro husers a e c u rfl hu ⟨rfl, t, hheld⟩
    obtain ⟨a, memory, b, rfl, hb, hexit⟩ := (run_held_iff hu t).mp hheld
    exact hexit (husers a t memory b c (by simp) hb)

theorem empty_free : free (fun _ => none : Table glibc) ≠ 0 :=
  free_ne_zero_of_vacant (k := 0) rfl

/-- One thread, one use, and an unload before the thread exits: its block is gone. -/
theorem unload_loses_block :
    ¬ ∀ (keys : Table glibc) (values : Unit → Key glibc → Option Nat)
      (evs : List (Event glibc Unit)) (s : State glibc Unit),
      run (stepOk (firstFit 1024 Dtor)) (start keys values) evs = some s → BlocksAccounted s := by
  intro h
  obtain ⟨s, hrun, himage, hmallocs, hfrees⟩ :=
    run_use_unload (firstFit 1024 Dtor) empty_free (fun _ _ => none) ()
  rcases h _ _ _ s hrun 0 (by omega) with ⟨hcount, -⟩ | ⟨-, t, im, -, him, -⟩
  · simp [hfrees] at hcount
  · simp [himage] at him

theorem blocksAccounted_iff_usersExit_at_one_use : ∃ s : State glibc Unit,
    run (stepOk (firstFit 1024 Dtor)) (start (fun _ => none) fun _ _ => none)
      [.load, .doSomething () true, .unload] = some s ∧
    (BlocksAccounted s ↔ UsersExit [.load, .doSomething (P := glibc) () true, .unload]) := by
  obtain ⟨s, hrun, -⟩ := run_use_unload (firstFit 1024 Dtor) empty_free (fun _ _ => none) ()
  exact ⟨s, hrun, blocksAccounted_iff_usersExit hrun⟩

end CleanBlocks
