import KeyLeak.Lib.Runs
import KeyLeak.Probe

/-!
# The leak detector's driver

`main` samples the table, loads, calls and unloads the plugin `rounds` times, samples
again after rounds 1, 10, 20, ..., and gives its verdict from the last sample. It is
a machine whose states are the head of the round loop and the exit; one step is one
iteration, or the code after the loop.

An `int` operation that overflows is undefined in C++. The machine wraps, as the
compiled code does; where overflow matters, `CInt.Fits` states its absence.
-/
namespace Driver

open SlotPool KeyTable Probe Runs CInt

variable {P : Platform}

/-- What `main` prints. -/
inductive Line where
  | banner
  | plugin (path : String)
  | rounds (n : Int32)
  | tasks (n : Int32)
  | keyTotal (n : Int32)
  | baseline (n total : Int32)
  | openFailed (reason : String)
  | symbolNotFound
  | round (r cur total delta : Int32)
  | result (base final net : Int32)
  | leakConfirmed (crashEst : Int32)
  | noLeak
  deriving DecidableEq, Repr

/-- What the plugin and the loader do to the table in each round: `dlopen` with the
library's constructors, `dlsym`, the call of `run_plugin`, and `dlclose` with the
library's destructors. Every round has effects of its own. -/
structure Plugin (P : Platform) where
  libOpen : Int32 → Table P → Except String (Table P)
  libSym : Int32 → Bool
  runPlugin : Int32 → Int32 → Table P → Table P
  libClose : Int32 → Table P → Table P

structure Setting (P : Platform) where
  alloc : Policy (Key P) Dtor
  plugin : Plugin P
  pluginPath : String
  rounds : Int32
  taskCount : Int32

/-- `std::atoi` as glibc has it: `strtol` in base ten, which saturates at the range of
`long`, cut down to `int`. -/
def atoi (s : String) : Int32 :=
  let cs := s.toList.dropWhile (fun c => c.isWhitespace || c.toNat = 11 || c.toNat = 12)
  let (neg, ds) := match cs with
    | '-' :: ds => (true, ds)
    | '+' :: ds => (false, ds)
    | ds => (false, ds)
  let n : Int := (ds.takeWhile Char.isDigit).foldl (fun n c => 10 * n + (c.toNat - 48 : Nat)) 0
  let v := if neg then -n else n
  Int32.ofInt (max (-2 ^ 63) (min v (2 ^ 63 - 1)))

example : atoi " -12x" = -12 := by decide

/-- `./leak_checker [plugin_path] [rounds] [tasks_per_round]` -/
def setting (A : Policy (Key P) Dtor) (plugin : Plugin P) (argv : List String) : Setting P where
  alloc := A
  plugin := plugin
  pluginPath := argv[1]?.getD "./libleak_plugin.so"
  rounds := (argv[2]?.map atoi).getD 200
  taskCount := (argv[3]?.map atoi).getD 8

/-- The local variables of `main` at the head of the round loop, the process, and
everything printed so far. -/
structure Loop (P : Platform) where
  r : Int32
  baseline : Int32
  prev : Int32
  totalLeaked : Int32
  process : Process P
  out : List Line

inductive State (P : Platform) where
  | loop (l : Loop P)
  | exited (code : Int32) (process : Process P) (out : List Line)

def header (S : Setting P) : List Line :=
  [.banner, .plugin S.pluginPath, .rounds S.rounds, .tasks S.taskCount, .keyTotal (tlsTotal P)]

/-- `main` up to the loop. -/
def start (S : Setting P) (p : Process P) : State P :=
  let (baseline, p) := tlsUsed S.alloc p
  .loop {
    r := 1
    baseline := baseline
    prev := baseline
    totalLeaked := 0
    process := p
    out := header S ++ [.baseline baseline (tlsTotal P)] }

@[simp] theorem start_eq (S : Setting P) (p : Process P) :
    start S p = .loop ⟨1, (tlsUsed S.alloc p).1, (tlsUsed S.alloc p).1, 0, (tlsUsed S.alloc p).2,
      header S ++ [.baseline (tlsUsed S.alloc p).1 (tlsTotal P)]⟩ := rfl

/-- The body of `if (r % 10 == 0 || r == 1)`. -/
def sample (S : Setting P) (l : Loop P) : Loop P :=
  let (cur, p) := tlsUsed S.alloc l.process
  let delta := cur - l.prev
  { l with
    totalLeaked := l.totalLeaked + (if delta > 0 then delta else 0)
    out := l.out ++ [.round l.r cur (tlsTotal P) delta]
    prev := cur
    process := p }

section Sample

variable (S : Setting P) (l : Loop P)

@[simp] theorem sample_r : (sample S l).r = l.r := rfl
@[simp] theorem sample_baseline : (sample S l).baseline = l.baseline := rfl
@[simp] theorem sample_prev : (sample S l).prev = (tlsUsed S.alloc l.process).1 := rfl
@[simp] theorem sample_process : (sample S l).process = (tlsUsed S.alloc l.process).2 := rfl
@[simp] theorem sample_out : (sample S l).out = l.out ++
    [.round l.r (tlsUsed S.alloc l.process).1 (tlsTotal P)
      ((tlsUsed S.alloc l.process).1 - l.prev)] := rfl

end Sample

/-- The rest of an iteration once `lib_close` has left the table `t`, and `++r`. -/
def afterClose (S : Setting P) (l : Loop P) (t : Table P) : Loop P :=
  let l := { l with process := { l.process with keys := t } }
  let l := if l.r % 10 = 0 ∨ l.r = 1 then sample S l else l
  { l with r := l.r + 1 }

def iteration (S : Setting P) (l : Loop P) : State P :=
  match S.plugin.libOpen l.r l.process.keys with
  | .error reason => .exited 1 l.process (l.out ++ [.openFailed reason])
  | .ok t =>
    if S.plugin.libSym l.r then
      let t := S.plugin.runPlugin l.r S.taskCount t
      .loop (afterClose S l (S.plugin.libClose l.r t))
    else
      .exited 1 { l.process with keys := S.plugin.libClose l.r t } (l.out ++ [.symbolNotFound])

/-- `net_leaked` and `remaining`, from the sample taken after the loop. -/
def netLeaked (S : Setting P) (l : Loop P) : Int32 := (tlsUsed S.alloc l.process).1 - l.baseline
def remaining (S : Setting P) (l : Loop P) : Int32 := tlsTotal P - (tlsUsed S.alloc l.process).1

def crashEst (S : Setting P) (l : Loop P) : Int32 :=
  S.rounds + remaining S l / (netLeaked S l / S.rounds + 1)

/-- `main` after the loop. -/
def verdict (S : Setting P) (l : Loop P) : State P :=
  let (finalUsed, p) := tlsUsed S.alloc l.process
  let out := l.out ++ [.result l.baseline finalUsed (netLeaked S l)]
  if netLeaked S l > 0 then .exited 1 p (out ++ [.leakConfirmed (crashEst S l)])
  else .exited 0 p (out ++ [.noLeak])

theorem verdict_eq (S : Setting P) (l : Loop P) :
    verdict S l = if netLeaked S l > 0 then
      .exited 1 (tlsUsed S.alloc l.process).2 (l.out ++
        [.result l.baseline (tlsUsed S.alloc l.process).1 (netLeaked S l)] ++
        [.leakConfirmed (crashEst S l)])
    else
      .exited 0 (tlsUsed S.alloc l.process).2 (l.out ++
        [.result l.baseline (tlsUsed S.alloc l.process).1 (netLeaked S l)] ++ [.noLeak]) := rfl

def step (S : Setting P) : State P → Option (State P)
  | .exited .. => none
  | .loop l => some (if l.r ≤ S.rounds then iteration S l else verdict S l)

/-- `main(argc, argv)` ends with this exit code, these lines and this process. -/
def Main (A : Policy (Key P) Dtor) (plugin : Plugin P) (argv : List String) (p : Process P)
    (code : Int32) (out : List Line) (q : Process P) : Prop :=
  ∃ n, HaltsAfter (step (setting A plugin argv)) n (start (setting A plugin argv) p)
    (.exited code q out)

end Driver
