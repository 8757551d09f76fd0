import KeyLeak.Lib.Runs
import KeyLeak.Probe

/-!
# The reload driver

`main` of the older driver opens a library, calls its `do_something`, asks whether a key
can still be created, closes the library, and starts again until something fails. The
loader counts references: constructors run when the count leaves zero, destructors when
it comes back to it. One step is one iteration of the loop; leaving the loop ends `main`.

The cycle counter wraps here. It is only printed.
-/
namespace ReloadDriver

open SlotPool KeyTable Probe Runs

variable {P : Platform} {σ : Type}

/-- What `main` prints. -/
inductive Line where
  | hello
  | openFailed (reason : String)
  | symbolNotFound
  | keysLeft (cycle : Int32)
  | keysExhausted (cycle : Int32)
  | unloaded
  | caught (what : String)
  deriving DecidableEq, Repr

/-- What `main` asks of the loader: a `dlopen` that returns a handle or null, and a
`dlclose` of the handle obtained last. -/
inductive LoaderCall where
  | opened | refused | closed
  deriving DecidableEq, Repr

/-- The library behind `lib_name`, and how it and the rest of the process behave in a
state of the system. -/
structure Library (P : Platform) (σ : Type) where
  /-- The text of `dlerror()` when `dlopen` fails. -/
  openError : σ → Option String
  constructors : σ → σ
  hasSymbol : σ → Bool
  /-- The call, with the `what()` of a `std::exception` that it throws. -/
  doSomething : σ → Option String × σ
  destructors : σ → σ
  process : σ → Process P
  setProcess : σ → Process P → σ

structure Loop (σ : Type) where
  refs : Nat
  cycle : Int32
  sys : σ
  calls : List LoaderCall
  out : List Line
  returned : Bool

def start (sys : σ) : Loop σ := ⟨0, 0, sys, [], [.hello], false⟩

def Loop.print (s : Loop σ) (line : Line) : Loop σ := { s with out := s.out ++ [line] }

/-- A successful `dlopen(lib_name, RTLD_LAZY)` -/
def dlopen (L : Library P σ) (s : Loop σ) : Loop σ :=
  { s with
    refs := s.refs + 1
    sys := if s.refs = 0 then L.constructors s.sys else s.sys
    calls := s.calls ++ [.opened] }

/-- `dlclose(handle);` -/
def dlclose (L : Library P σ) (s : Loop σ) : Loop σ :=
  { s with
    refs := s.refs - 1
    sys := if s.refs = 1 then L.destructors s.sys else s.sys
    calls := s.calls ++ [.closed] }

/-- The body of `while (1)`; what `func()` throws is caught and printed. -/
def iteration (A : Policy (Key P) Dtor) (L : Library P σ) (s : Loop σ) : Loop σ :=
  match L.openError s.sys with
  | some reason =>
    { s.print (.openFailed reason) with calls := s.calls ++ [.refused], returned := true }
  | none =>
    let s := dlopen L s
    if L.hasSymbol s.sys then
      match L.doSomething s.sys with
      | (some what, sys) => { s.print (.caught what) with sys := sys }
      | (none, sys) =>
        let (canCreate, p) := canCreateKey A (L.process sys)
        let s := { s with sys := L.setProcess sys p, cycle := s.cycle + 1 }
        if canCreate ≠ 0 then (dlclose L (s.print (.keysLeft s.cycle))).print .unloaded
        else { s.print (.keysExhausted s.cycle) with returned := true }
    else { dlclose L (s.print .symbolNotFound) with returned := true }

def step (A : Policy (Key P) Dtor) (L : Library P σ) (s : Loop σ) : Option (Loop σ) :=
  if s.returned then none else some (iteration A L s)

/-- The five ways through an iteration. -/
inductive Outcome where
  | openFailed | noSymbol | keysLeft | keysExhausted | threw
  deriving DecidableEq, Repr

/-- Which way the library and the table lead. -/
def outcome (L : Library P σ) (s : Loop σ) : Outcome :=
  match L.openError s.sys with
  | some _ => .openFailed
  | none =>
    let sys := (dlopen L s).sys
    if L.hasSymbol sys then
      match L.doSomething sys with
      | (some _, _) => .threw
      | (none, sys) => if free (L.process sys).keys = 0 then .keysExhausted else .keysLeft
    else .noSymbol

/-- The two ways that leave an iteration without `dlclose`. -/
def Outcome.keepsHandle : Outcome → Bool
  | .keysExhausted | .threw => true
  | _ => false

def Outcome.returns : Outcome → Bool
  | .keysLeft | .threw => false
  | _ => true

/-- What the loader is asked for on each way. -/
def Outcome.calls : Outcome → List LoaderCall
  | .openFailed => [.refused]
  | .noSymbol | .keysLeft => [.opened, .closed]
  | .keysExhausted | .threw => [.opened]

/-- Every handle is closed exactly once, before the next `dlopen` and before the end. -/
def Balanced : List LoaderCall → Prop
  | [] => True
  | .refused :: cs => Balanced cs
  | .opened :: .closed :: cs => Balanced cs
  | _ => False

theorem canCreateKey_eq_zero_iff (A : Policy (Key P) Dtor) (p : Process P) :
    (canCreateKey A p).1 = 0 ↔ free p.keys = 0 := by
  rw [(canCreateKey_spec A p).2]
  by_cases h : free p.keys = 0 <;> simp [h]

/-- The loop after a call that returned and the question whether a key is left. -/
def asked (A : Policy (Key P) Dtor) (L : Library P σ) (s : Loop σ) (sys : σ) : Loop σ :=
  { dlopen L s with
    sys := L.setProcess sys (canCreateKey A (L.process sys)).2, cycle := s.cycle + 1 }

section Ways

variable {A : Policy (Key P) Dtor} {L : Library P σ} {s : Loop σ}

theorem iteration_keysLeft {sys : σ} (hopen : L.openError s.sys = none)
    (hsym : L.hasSymbol (dlopen L s).sys = true)
    (hcall : L.doSomething (dlopen L s).sys = (none, sys)) (hfree : free (L.process sys).keys ≠ 0) :
    outcome L s = .keysLeft ∧
    iteration A L s =
      (dlclose L ((asked A L s sys).print (.keysLeft (s.cycle + 1)))).print .unloaded := by
  have hcan := (canCreateKey_eq_zero_iff A (L.process sys)).not.mpr hfree
  constructor
  · simp only [outcome, hopen, hsym, hcall, hfree, if_true, if_false]
  · simp only [iteration, hopen, hsym, hcall, if_true, ne_eq, hcan, not_false_eq_true]
    rfl

theorem iteration_keysExhausted {sys : σ} (hopen : L.openError s.sys = none)
    (hsym : L.hasSymbol (dlopen L s).sys = true)
    (hcall : L.doSomething (dlopen L s).sys = (none, sys)) (hfull : free (L.process sys).keys = 0) :
    outcome L s = .keysExhausted ∧
    iteration A L s =
      { (asked A L s sys).print (.keysExhausted (s.cycle + 1)) with returned := true } := by
  have hcan := (canCreateKey_eq_zero_iff A (L.process sys)).mpr hfull
  constructor
  · simp only [outcome, hopen, hsym, hcall, hfull, if_true]
  · simp only [iteration, hopen, hsym, hcall, if_true, ne_eq, hcan, not_true_eq_false, if_false]
    rfl

end Ways

/-- All an iteration can do to the handles, by the way it takes. -/
theorem iteration_spec (A : Policy (Key P) Dtor) (L : Library P σ) (s : Loop σ) :
    (iteration A L s).calls = s.calls ++ (outcome L s).calls ∧
    (iteration A L s).refs = s.refs + (outcome L s).keepsHandle.toNat ∧
    (iteration A L s).returned = (s.returned || (outcome L s).returns) := by
  cases hopen : L.openError s.sys with
  | some reason =>
    simp [iteration, outcome, hopen, Loop.print, Outcome.calls, Outcome.keepsHandle,
      Outcome.returns]
  | none =>
    by_cases hsym : L.hasSymbol (dlopen L s).sys
    · cases hcall : L.doSomething (dlopen L s).sys with
      | mk thrown sys =>
        cases thrown with
        | some what =>
          simp only [iteration, outcome, hopen, hsym, hcall, if_true]
          simp [dlopen, Loop.print, Outcome.calls, Outcome.keepsHandle, Outcome.returns]
        | none =>
          by_cases hfull : free (L.process sys).keys = 0
          · obtain ⟨hout, hiter⟩ := iteration_keysExhausted (A := A) hopen hsym hcall hfull
            rw [hout, hiter]
            simp [asked, dlopen, Loop.print, Outcome.calls, Outcome.keepsHandle, Outcome.returns]
          · obtain ⟨hout, hiter⟩ := iteration_keysLeft (A := A) hopen hsym hcall hfull
            rw [hout, hiter]
            simp [asked, dlopen, dlclose, Loop.print, Outcome.calls, Outcome.keepsHandle,
              Outcome.returns]
    · simp only [iteration, outcome, hopen, hsym]
      simp [dlopen, dlclose, Loop.print, Outcome.calls, Outcome.keepsHandle, Outcome.returns]

theorem balanced_append {a : List LoaderCall} (ha : Balanced a) (b : List LoaderCall) :
    Balanced (a ++ b) ↔ Balanced b := by
  fun_induction Balanced a with
  | case1 => simp
  | case2 cs ih => simpa [Balanced] using ih ha
  | case3 cs ih => simpa [Balanced] using ih ha
  | case4 => exact absurd ha id

/-- Only a way that keeps its handle is unbalanced. -/
theorem balanced_calls_iff (o : Outcome) : Balanced o.calls ↔ o.keepsHandle = false := by
  cases o <;> simp [Outcome.calls, Outcome.keepsHandle, Balanced]

theorem step_eq {A : Policy (Key P) Dtor} {L : Library P σ} {s t : Loop σ}
    (h : step A L s = some t) : s.returned = false ∧ t = iteration A L s := by
  by_cases hr : s.returned
  · simp [step, hr] at h
  · simp only [step, hr] at h
    exact ⟨by simpa using hr, (Option.some.inj h).symm⟩

/-- While no reference is held, every handle obtained so far has been closed. -/
theorem balanced_of_refs {A : Policy (Key P) Dtor} {L : Library P σ} {sys : σ} {n : Nat}
    {s : Loop σ} (h : iter (step A L) n (start sys) = some s) (hrefs : s.refs = 0) :
    Balanced s.calls := by
  induction n generalizing s with
  | zero =>
    cases h
    trivial
  | succ n ih =>
    rw [iter_succ] at h
    obtain ⟨u, hu, hstep⟩ := Option.bind_eq_some_iff.mp h
    obtain ⟨-, rfl⟩ := step_eq hstep
    obtain ⟨hcalls, hrefs', -⟩ := iteration_spec A L u
    have hu₀ : u.refs = 0 := by omega
    have hkeeps : (outcome L u).keepsHandle = false := by
      simpa [hu₀, hrefs] using hrefs'.symm
    rw [hcalls, balanced_append (ih hu hu₀)]
    exact (balanced_calls_iff _).mpr hkeeps

/-- A library whose `do_something` throws. -/
def throwing : Library glibc (Process glibc) where
  openError _ := none
  constructors p := p
  hasSymbol _ := true
  doSomething p := (some "std::exception", p)
  destructors p := p
  process p := p
  setProcess _ p := p

/-- The `catch` clause prints and goes on; the handle of that iteration is never closed. -/
theorem throw_keeps_handle :
    ¬ ∀ (L : Library glibc (Process glibc)) (sys : Process glibc) (n : Nat)
      (s : Loop (Process glibc)),
      iter (step (firstFit 1024 Dtor) L) n (start sys) = some s →
        Balanced s.calls ∧ s.refs = 0 := by
  intro h
  have hthrow := h throwing ⟨fun _ => none, 0⟩ 1 _ rfl
  exact absurd hthrow.2 (by decide)

/-- Over runs of any length, wherever they stop: every handle has been closed exactly
once and the library's reference count is zero, exactly when in no iteration before
`do_something` threw or left the table full. -/
theorem handles_balanced_iff {A : Policy (Key P) Dtor} {L : Library P σ} {sys : σ} {n : Nat}
    {s : Loop σ} (h : iter (step A L) n (start sys) = some s) :
    (Balanced s.calls ∧ s.refs = 0) ↔
      ∀ m u, m < n → iter (step A L) m (start sys) = some u →
        ¬ (outcome L u = .threw ∨ outcome L u = .keysExhausted) := by
  have hnext : ∀ u v, step A L u = some v →
      (v.refs = 0 ↔ u.refs = 0 ∧ ¬ (outcome L u = .threw ∨ outcome L u = .keysExhausted)) := by
    intro u v hstep
    obtain ⟨-, rfl⟩ := step_eq hstep
    rw [(iteration_spec A L u).2.1]
    cases outcome L u <;> simp [Outcome.keepsHandle]
  rw [← iter_never (R := fun s => s.refs = 0) rfl hnext h]
  constructor
  · intro hs
    exact hs.2
  · intro hrefs
    exact ⟨balanced_of_refs h hrefs, hrefs⟩

theorem handles_balanced_iff_at_one_throw : ∃ s : Loop (Process glibc),
    iter (step (firstFit 1024 Dtor) throwing) 1 (start ⟨fun _ => none, 0⟩) = some s ∧
    ((Balanced s.calls ∧ s.refs = 0) ↔
      ∀ m u, m < 1 → iter (step (firstFit 1024 Dtor) throwing) m (start ⟨fun _ => none, 0⟩) = some u →
        ¬ (outcome throwing u = .threw ∨ outcome throwing u = .keysExhausted)) :=
  ⟨_, rfl, handles_balanced_iff (show iter (step (firstFit 1024 Dtor) throwing) 1
    (start ⟨fun _ => none, 0⟩) = some _ from rfl)⟩

end ReloadDriver
