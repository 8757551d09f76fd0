import KeyLeak.CleanKeys
import KeyLeak.ReloadDriver

/-!
# The two reference libraries under the reload driver

`leak.cpp` creates a key in every call of `do_something` and never deletes one; it
relies on the driver to stop before a create fails. `clean.cpp` gives its key back at
every unload. Only the driver's thread runs, and `dlopen`, `dlsym` and `malloc` succeed. The
cycle counter that the driver prints wraps; the driver runs on.
-/
namespace ReloadLibraries

open SlotPool KeyTable Probe ThreadSpecific Runs ReloadDriver

variable {P : Platform} {τ : Type} [DecidableEq τ]

/-- The process of `leak.cpp`, and what each create of a key gave so far. -/
structure LeakState (P : Platform) (τ : Type) where
  world : World P τ
  creates : List (Option (Key P))

/-- `free` of the C library. -/
def libcFree : Dtor := some (.host, 0)

/-- `do_something` of `leak.cpp`. When the create fails, the local variable `key` keeps
whatever was on the stack. -/
def leakDoSomething (A : Policy (Key P) Dtor) (garbage : World P τ → Key P) (t : τ)
    (s : LeakState P τ) : LeakState P τ :=
  let (created, w) := s.world.create A .plugin libcFree
  let key := created.getD (garbage w)
  let (data, w) := w.malloc
  { world := w.setspecific t key data, creates := s.creates ++ [created] }

def leakLibrary (A : Policy (Key P) Dtor) (garbage : World P τ → Key P) (t : τ) :
    Library P (LeakState P τ) where
  openError _ := none
  constructors s := s
  hasSymbol _ := true
  doSomething s := (none, leakDoSomething A garbage t s)
  destructors s := s
  process s := s.world.process
  setProcess s p := { s with world := { s.world with process := p } }

/-- `libclean.so` as the loader and the driver see it. -/
def cleanLibrary [NeZero P.PTHREAD_KEYS_MAX] (A : Policy (Key P) Dtor) (t : τ) :
    Library P (CleanLib.State P τ) where
  openError _ := none
  constructors s := CleanLib.load A s
  hasSymbol _ := true
  doSomething s :=
    match s.image with
    | some im => (none, CleanLib.doSomething s im t true)
    | none => (none, s)
  destructors s :=
    match s.image with
    | some im => CleanLib.unload s im
    | none => s
  process s := s.world.process
  setProcess s p := { s with world := { s.world with process := p } }

variable (A : Policy (Key P) Dtor) (garbage : World P τ → Key P) (t : τ)

/-- The head of the loop of a leaking run: the keys still free, and what was done. -/
structure LeakHead (s : Loop (LeakState P τ)) (left cycles : Nat) : Prop where
  running : s.returned = false
  refs : s.refs = 0
  left : free s.sys.world.process.keys = left
  cycle : s.cycle = Int32.ofNat cycles
  creates : s.sys.creates.length = cycles
  obtained : none ∉ s.sys.creates

/-- A call with a free key takes one, and its create succeeds. -/
theorem leakDoSomething_spec (s : LeakState P τ) (hfree : free s.world.process.keys ≠ 0) :
    free (leakDoSomething A garbage t s).world.process.keys + 1 = free s.world.process.keys ∧
    ∃ k, (leakDoSomething A garbage t s).creates = s.creates ++ [some k] := by
  rcases s.world.create_cases A .plugin libcFree with ⟨k, hk, h⟩ | ⟨hfull, -⟩
  · constructor
    · simp [leakDoSomething, h, World.malloc, World.allocate, free_put _ _ _ hk]
    · exact ⟨k, by simp [leakDoSomething, h]⟩
  · exact absurd hfull hfree

/-- What one call leaves behind, at a head with a free key. -/
theorem leak_call {s : Loop (LeakState P τ)} {left cycles : Nat}
    (hs : LeakHead s (left + 1) cycles) :
    free (leakDoSomething A garbage t s.sys).world.process.keys = left ∧
    (leakDoSomething A garbage t s.sys).creates.length = cycles + 1 ∧
    none ∉ (leakDoSomething A garbage t s.sys).creates ∧
    (leakLibrary A garbage t).doSomething (dlopen (leakLibrary A garbage t) s).sys =
      (none, leakDoSomething A garbage t s.sys) := by
  obtain ⟨hfree, k, hcreates⟩ :=
    leakDoSomething_spec A garbage t s.sys (by rw [hs.left]; omega)
  have hsys : (dlopen (leakLibrary A garbage t) s).sys = s.sys := by simp [dlopen, leakLibrary]
  refine ⟨?_, ?_, ?_, ?_⟩
  · have := hs.left
    omega
  · simp [hcreates, hs.creates]
  · simp [hcreates, hs.obtained]
  · rw [hsys]
    rfl

/-- While two keys are free the iteration ends at the head again, with one key less. -/
theorem leak_next {s : Loop (LeakState P τ)} {left cycles : Nat}
    (hs : LeakHead s (left + 2) cycles) :
    ∃ s', step A (leakLibrary A garbage t) s = some s' ∧ LeakHead s' (left + 1) (cycles + 1) := by
  obtain ⟨hleft, hlength, hobtained, hcall⟩ := leak_call A garbage t hs
  obtain ⟨-, hiter⟩ := iteration_keysLeft (A := A) rfl rfl hcall (by
    simp only [leakLibrary]
    omega)
  refine ⟨iteration A (leakLibrary A garbage t) s, by simp [step, hs.running], ?_⟩
  rw [hiter]
  constructor
  · simp [dlclose, asked, dlopen, Loop.print, hs.running]
  · simp [dlclose, asked, dlopen, Loop.print, hs.refs]
  · simp [dlclose, asked, dlopen, Loop.print, leakLibrary, hleft, (canCreateKey_spec A _).1]
  · simp [dlclose, asked, dlopen, Loop.print, hs.cycle]
  · simp [dlclose, asked, dlopen, Loop.print, leakLibrary, hlength]
  · simpa [dlclose, asked, dlopen, Loop.print, leakLibrary] using hobtained

/-- With the last free key the call succeeds, and the driver stops behind it. -/
theorem leak_last {s : Loop (LeakState P τ)} {cycles : Nat} (hs : LeakHead s 1 cycles) :
    ∃ s', step A (leakLibrary A garbage t) s = some s' ∧ s'.returned = true ∧
      s'.sys.creates.length = cycles + 1 ∧ none ∉ s'.sys.creates ∧
      s'.cycle = Int32.ofNat (cycles + 1) ∧ s'.out.getLast? = some (.keysExhausted s'.cycle) := by
  obtain ⟨hleft, hlength, hobtained, hcall⟩ := leak_call A garbage t hs
  obtain ⟨-, hiter⟩ := iteration_keysExhausted (A := A) rfl rfl hcall hleft
  refine ⟨iteration A (leakLibrary A garbage t) s, by simp [step, hs.running], ?_⟩
  rw [hiter]
  refine ⟨rfl, hlength, hobtained, ?_, ?_⟩
  · simp [asked, Loop.print, hs.cycle]
  · simp [asked, Loop.print]

/-- By induction on the free keys at the head: one cycle for each of them. -/
theorem leak_halts {left cycles : Nat} {s : Loop (LeakState P τ)}
    (hs : LeakHead s (left + 1) cycles) :
    ∃ s', HaltsAfter (step A (leakLibrary A garbage t)) (left + 1) s s' ∧
      s'.sys.creates.length = cycles + (left + 1) ∧ none ∉ s'.sys.creates ∧
      s'.cycle = Int32.ofNat (cycles + (left + 1)) ∧
      s'.out.getLast? = some (.keysExhausted s'.cycle) := by
  induction left generalizing cycles s with
  | zero =>
    obtain ⟨s', hstep, hreturned, hrest⟩ := leak_last A garbage t hs
    exact ⟨s', ⟨by simp [iter, hstep], by simp [step, hreturned]⟩, hrest⟩
  | succ left ih =>
    obtain ⟨u, hstep, hu⟩ := leak_next A garbage t hs
    obtain ⟨s', ⟨hiter, hhalt⟩, hrest⟩ := ih hu
    have hcount : cycles + 1 + (left + 1) = cycles + (left + 1 + 1) := by omega
    rw [hcount] at hrest
    exact ⟨s', ⟨by rw [iter, hstep]; exact hiter, hhalt⟩, hrest⟩

section Clean

variable [NeZero P.PTHREAD_KEYS_MAX]

/-- The head of the loop of a clean run: unloaded, over the table of the start. -/
structure CleanHead (s : Loop (CleanLib.State P τ)) (keys : Table P) : Prop where
  running : s.returned = false
  refs : s.refs = 0
  image : s.sys.image = none
  keys : s.sys.world.process.keys = keys

omit [NeZero P.PTHREAD_KEYS_MAX] in
/-- A call changes no key and unmaps nothing. -/
theorem doSomething_frame (s : CleanLib.State P τ) (im : CleanLib.Image P) :
    (CleanLib.doSomething s im t true).world.process = s.world.process ∧
    (CleanLib.doSomething s im t true).image = s.image := by
  cases hp : s.world.getspecific t im.key with
  | some p => simp [CleanLib.doSomething, hp, CleanLib.State.note]
  | none => simp [CleanLib.doSomething, hp, CleanLib.State.note, World.malloc]

/-- Every cycle takes one key, finds another one free, and gives its own back. -/
theorem clean_next {s : Loop (CleanLib.State P τ)} {keys : Table P} (hs : CleanHead s keys)
    (hfree : 2 ≤ free keys) :
    outcome (cleanLibrary A t) s = .keysLeft ∧
    ∃ s', step A (cleanLibrary A t) s = some s' ∧ CleanHead s' keys := by
  rcases CleanLib.load_cases A s.sys with ⟨k, hk, hload⟩ | ⟨hfull, -⟩
  · let im : CleanLib.Image P := ⟨k, true, some k⟩
    let loaded : CleanLib.State P τ :=
      { s.sys with world := s.sys.world.allocate k .plugin CleanLib.dtor, image := some im }
    have hsys : (dlopen (cleanLibrary A t) s).sys = loaded := by
      simp [dlopen, hs.refs, cleanLibrary, hload, loaded, im]
    have hcall : (cleanLibrary A t).doSomething (dlopen (cleanLibrary A t) s).sys =
        (none, CleanLib.doSomething loaded im t true) := by
      rw [hsys]
      rfl
    obtain ⟨hprocess, himage⟩ := doSomething_frame t loaded im
    have hkeys : (CleanLib.doSomething loaded im t true).world.process.keys =
        put keys k CleanLib.dtor := by
      rw [hprocess]
      simp [loaded, World.allocate, hs.keys]
    have hvacant : keys k = none := hs.keys ▸ hk
    have hleft : free ((cleanLibrary A t).process
        (CleanLib.doSomething loaded im t true)).keys ≠ 0 := by
      have := free_put keys k CleanLib.dtor hvacant
      simp only [cleanLibrary, hkeys]
      omega
    obtain ⟨hout, hiter⟩ := iteration_keysLeft (A := A) rfl rfl hcall hleft
    refine ⟨hout, iteration A (cleanLibrary A t) s, by simp [step, hs.running], ?_⟩
    rw [hiter]
    constructor
    · simp [dlclose, asked, dlopen, Loop.print, hs.running]
    · simp [dlclose, asked, dlopen, Loop.print, hs.refs]
    · simp [dlclose, asked, dlopen, Loop.print, hs.refs, cleanLibrary, himage, loaded,
        CleanLib.unload]
    · simp [dlclose, asked, dlopen, Loop.print, hs.refs, cleanLibrary, himage, loaded,
        CleanLib.unload, CleanLib.fini, CleanLib.State.note, World.delete, (canCreateKey_spec A _).1,
        hkeys, im, drop_put keys k CleanLib.dtor hvacant]
  · rw [hs.keys] at hfull
    omega

theorem clean_runs {s : Loop (CleanLib.State P τ)} {keys : Table P} (hs : CleanHead s keys)
    (hfree : 2 ≤ free keys) (n : Nat) :
    ∃ s', iter (step A (cleanLibrary A t)) n s = some s' ∧ CleanHead s' keys := by
  induction n with
  | zero => exact ⟨s, rfl, hs⟩
  | succ n ih =>
    obtain ⟨u, hu, hhead⟩ := ih
    obtain ⟨-, s', hstep, hnext⟩ := clean_next A t hhead hfree
    exact ⟨s', by rw [iter_succ, hu]; exact hstep, hnext⟩

/-- From any table with `f` free keys the leaking library is called exactly `f` times,
each of its creates succeeds, and the driver stops on the exhaustion branch in cycle `f`.
With two free keys or more the clean library never takes that branch, and each cycle
starts from the table of the start. -/
theorem leak_stops_clean_goes_on (A : Policy (Key P) Dtor) (garbage : World P τ → Key P) (t : τ)
    (w : World P τ) :
    (∀ f, 1 ≤ f → free w.process.keys = f →
      ∃ s, HaltsAfter (step A (leakLibrary A garbage t)) f (start ⟨w, []⟩) s ∧
        s.sys.creates.length = f ∧ none ∉ s.sys.creates ∧
        s.out.getLast? = some (.keysExhausted s.cycle) ∧ s.cycle.toInt = f) ∧
    (2 ≤ free w.process.keys → ∀ n,
      ∃ s, iter (step A (cleanLibrary A t)) n (start ⟨w, none, [], false⟩) = some s ∧
        outcome (cleanLibrary A t) s = .keysLeft ∧
        s.sys.world.process.keys = w.process.keys) := by
  constructor
  · intro f hf hfree
    obtain ⟨left, rfl⟩ : ∃ left, f = left + 1 := ⟨f - 1, by omega⟩
    have hhead : LeakHead (start ⟨w, []⟩ : Loop (LeakState P τ)) (left + 1) 0 := by
      constructor <;> simp [start, hfree]
    obtain ⟨s, hhalt, hlength, hobtained, hcycle, hlast⟩ :=
      leak_halts A garbage t hhead
    rw [Nat.zero_add] at hlength hcycle
    have hmax := used_add_free_eq_max w.process.keys
    have hfits := P.fits
    exact ⟨s, hhalt, hlength, hobtained, hlast, hcycle ▸ Int32.toInt_ofNat_of_lt (by omega)⟩
  · intro hfree n
    have hhead : CleanHead (start ⟨w, none, [], false⟩ : Loop (CleanLib.State P τ))
        w.process.keys := by
      constructor <;> rfl
    obtain ⟨s, hs, hn⟩ := clean_runs A t hhead hfree n
    exact ⟨s, hs, (clean_next A t hn hfree).1, hn.keys⟩

end Clean

/-- A process in which no key is allocated. -/
def emptyWorld : World glibc Unit := ⟨⟨fun _ => none, 0⟩, fun _ => .host, fun _ _ => none, 0, [], []⟩

theorem emptyWorld_free : free emptyWorld.process.keys = glibc.PTHREAD_KEYS_MAX := by
  have hused : used emptyWorld.process.keys = 0 := by simp [emptyWorld, used, held]
  have hmax := used_add_free_eq_max emptyWorld.process.keys
  omega

theorem leak_stops_clean_goes_on_from_empty :
    (∃ s, HaltsAfter (step (firstFit _ Dtor) (leakLibrary (firstFit _ Dtor) (fun _ => 0) ()))
        glibc.PTHREAD_KEYS_MAX (start ⟨emptyWorld, []⟩) s ∧
      s.sys.creates.length = glibc.PTHREAD_KEYS_MAX ∧ none ∉ s.sys.creates ∧
      s.out.getLast? = some (.keysExhausted s.cycle) ∧ s.cycle.toInt = glibc.PTHREAD_KEYS_MAX) ∧
    ∃ s, iter (step (firstFit _ Dtor) (cleanLibrary (firstFit _ Dtor) ())) 2000
        (start ⟨emptyWorld, none, [], false⟩) = some s ∧
      outcome (cleanLibrary (firstFit _ Dtor) ()) s = .keysLeft ∧
      s.sys.world.process.keys = emptyWorld.process.keys :=
  have h := leak_stops_clean_goes_on (firstFit _ Dtor) (fun _ => 0) () emptyWorld
  ⟨h.1 glibc.PTHREAD_KEYS_MAX (by decide) emptyWorld_free,
    h.2 (by rw [emptyWorld_free]; decide) 2000⟩

end ReloadLibraries
