import KeyLeak.ReloadDriver
import KeyLeak.RunPlugin
import KeyLeak.SyncWait

/-!
# The library that throws

`do_something` of this library waits for a task that calls a function, prints what the function
throws, and throws it again. The exception travels through the receiver of `then` and the state
of `sync_wait`, which throws it in `do_something`.
-/
namespace ThrowLib

open Runs RunPlugin SyncWait

inductive Line where
  | caughtInside
  | caughtOutside (what : String)
  | caughtUnknown
  deriving DecidableEq, Repr

def func : Except Thrown Unit := .error (.stdException "test exception from C++")

/-- The function that `make_task` gives to `then`, called with `f`. -/
def task (f : Except Thrown Unit) : List Line × Except Thrown Unit :=
  match f with
  | .ok () => ([], .ok ())
  | .error ex => ([.caughtInside], .error ex)

/-- `__set_value_invoke` of a function that returns nothing -/
def setValueInvoke : Except Thrown Unit → Completion Unit Thrown
  | .ok () => .setValue ()
  | .error ex => .setError ex

/-- In the order in which `do_something` tries them. -/
def catchClauses : List CatchClause := [.stdException, .any]

/-- `do_something` from the end of `sync_wait` on: what it prints, and what leaves it. -/
def doSomething (printed : List Line) (outcome : Outcome Unit Thrown) :
    List Line × Option Thrown :=
  match outcome with
  | .returned _ => (printed, none)
  | .threw ex =>
    match catchClauses.find? (fun clause => clause.catches ex), ex with
    | some .stdException, .stdException what => (printed ++ [.caughtOutside what], none)
    | some _, _ => (printed ++ [.caughtUnknown], none)
    | none, ex => (printed, some ex)

/-- What the outer catch clauses print. -/
def outside : Thrown → Line
  | .stdException what => .caughtOutside what
  | .other => .caughtUnknown

theorem doSomething_eq (f : Except Thrown Unit) :
    doSomething (task f).1 (setValueInvoke (task f).2).outcome =
      (match f with
        | .ok () => []
        | .error ex => [.caughtInside, outside ex], none) := by
  cases f with
  | ok u => rfl
  | error ex => cases ex <;> rfl

section Wait

variable {ι Task : Type} [DecidableEq ι] [DecidableEq Task]
  {es : List (Event ι Task Unit Thrown)} {s : State ι Task Unit Thrown}

/-- Whatever the function throws, `do_something` prints it twice and returns. -/
theorem do_something_contains {f : Except Thrown Unit} {o : Outcome Unit Thrown}
    (h : run step (SyncWait.start ι Task Unit Thrown) es = some s)
    (hlaw : Throughout step Event.Lawful (SyncWait.start ι Task Unit Thrown) es)
    (hes : ∀ a c, .complete a c ∈ es → c = setValueInvoke (task f).2)
    (ho : s.caller = .returned o) :
    (doSomething (task f).1 o).2 = none ∧
    (f = .ok () → (doSomething (task f).1 o).1 = []) ∧
    ∀ ex, f = .error ex → (doSomething (task f).1 o).1 = [.caughtInside, outside ex] := by
  obtain ⟨a, c, hc, rfl⟩ := run_outcome h hlaw ho
  rw [hes a c hc, doSomething_eq]
  refine ⟨rfl, ?_, ?_⟩
  · rintro rfl
    rfl
  · rintro ex rfl
    rfl

/-- The function of the library completes its operation while `sync_wait` starts it. -/
theorem do_something_contains_func : ∃ s : State Unit Nat Unit Thrown,
    run step (SyncWait.start Unit Nat Unit Thrown)
      [.complete none (setValueInvoke (task func).2), .thread none, .thread none, .thread none,
        .thread none, .caller, .caller, .caller, .caller] = some s ∧
    (doSomething (task func).1 (.threw (.stdException "test exception from C++"))).1 =
      [.caughtInside, .caughtOutside "test exception from C++"] := by
  obtain ⟨s, hs, hcaller⟩ : ∃ s : State Unit Nat Unit Thrown,
      run step (SyncWait.start Unit Nat Unit Thrown)
        [.complete none (setValueInvoke (task func).2), .thread none, .thread none, .thread none,
          .thread none, .caller, .caller, .caller, .caller] = some s ∧
      s.caller = .returned (.threw (.stdException "test exception from C++")) := ⟨_, rfl, rfl⟩
  refine ⟨s, hs, (do_something_contains hs (by decide) ?_ hcaller).2.2 _ rfl⟩
  intro a c hc
  obtain ⟨-, rfl⟩ : a = none ∧ c = setValueInvoke (task func).2 := by simpa using hc
  rfl

end Wait

section Reload

open SlotPool KeyTable Probe ReloadDriver

variable {P : Platform} {σ : Type} {A : Policy (Key P) Dtor} {L : Library P σ}
  {f : Except Thrown Unit} {sys : σ} {n : Nat} {s : Loop σ}

/-- What a `catch (std::exception &e)` of the caller prints; another object ends `main`. -/
def what : Thrown → Option String
  | .stdException what => some what
  | .other => none

end Reload

end ThrowLib
