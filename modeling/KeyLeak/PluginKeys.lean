import KeyLeak.Lib.Runs
import KeyLeak.KeyTable

/-!
# Key interception in the plugin

In `fix` mode the linker sends every `pthread_key_create` of the plugin, those of
the embedded C++ runtime included, to `__wrap_pthread_key_create`, which records
each created key. `plugin_fini` deletes the recorded keys at unload.
`pthread_key_delete` is not wrapped, and the host's own calls reach neither.

The wrapper takes its lock only after the real create has returned, so one call is
two steps, and steps of other threads may come between them.
-/
namespace PluginKeys

open SlotPool KeyTable Runs

variable {P : Platform}

/-- What an allocated slot remembers: who allocated it, and the destructor. -/
structure Entry where
  owner : Party
  dtor : Dtor
  deriving DecidableEq, Repr

/-- The state of one loaded image of the plugin. `inFlight` holds the keys of the
wrapped calls whose real create has returned but which are not yet recorded. -/
structure Life (P : Platform) where
  keys : Pool (Key P) Entry
  gTrackedKeys : List (Key P)
  inFlight : List (Key P)

/-- The process-wide table, which does not know owners. -/
def Life.table (s : Life P) : Table P := relabel Entry.dtor s.keys

inductive Event (P : Platform) where
  /-- `__real_pthread_key_create` stored this key and returned 0. -/
  | realCreate (k : Key P) (dtor : Dtor)
  /-- `__real_pthread_key_create` failed; the wrapper returns its result. -/
  | realCreateFails
  /-- Under the lock: `g_tracked_keys.push_back(*key)`. -/
  | pushBack (k : Key P)
  /-- Plugin code deletes a key of its own. -/
  | pluginDelete (k : Key P)
  | hostCreate (k : Key P) (dtor : Dtor)
  | hostDelete (k : Key P)
  deriving DecidableEq

def ownedBy (o : Party) (v : Option Entry) : Prop := v.map Entry.owner = some o

instance (o : Party) (v : Option Entry) : Decidable (ownedBy o v) :=
  inferInstanceAs (Decidable (_ = _))

/-- A create may return any vacant slot, also one freed earlier; a delete frees the
slot whoever allocated it. -/
def step (s : Life P) : Event P → Option (Life P)
  | .realCreate k d =>
    if s.keys k = none then
      some { s with keys := put s.keys k ⟨.plugin, d⟩, inFlight := k :: s.inFlight }
    else none
  | .realCreateFails => some s
  | .pushBack k =>
    if k ∈ s.inFlight then
      some { s with gTrackedKeys := s.gTrackedKeys ++ [k], inFlight := s.inFlight.erase k }
    else none
  | .pluginDelete k =>
    if ownedBy .plugin (s.keys k) then some { s with keys := drop s.keys k } else none
  | .hostCreate k d =>
    if s.keys k = none then some { s with keys := put s.keys k ⟨.host, d⟩ } else none
  | .hostDelete k => some { s with keys := drop s.keys k }

/-- `EAGAIN` -/
def EAGAIN : Int32 := 11

/-- `__wrap_pthread_key_create` called with no other thread in between. -/
def wrapPthreadKeyCreate (A : Policy (Key P) Dtor) (calls : Nat) (s : Life P) (dtor : Dtor) :
    Int32 × Life P :=
  match (pthreadKeyCreate A ⟨s.table, calls⟩ dtor).1 with
  | some key => (0, { s with
      keys := put s.keys key ⟨.plugin, dtor⟩, gTrackedKeys := s.gTrackedKeys ++ [key] })
  | none => (EAGAIN, s)

/-- `__attribute__((constructor)) plugin_init` -/
def pluginInit (s : Life P) : Life P := { s with gTrackedKeys := [] }

/-- The deletion loop, with what each `pthread_key_delete(k)` found in its slot. -/
def finiLoop (t : Pool (Key P) Entry) : List (Key P) →
    List (Key P × Option Entry) × Pool (Key P) Entry
  | [] => ([], t)
  | k :: ks =>
    let (deletes, t') := finiLoop (drop t k) ks
    ((k, t k) :: deletes, t')

structure Fini (P : Platform) where
  deletes : List (Key P × Option Entry)
  /-- `[plugin] fini: deleted %zu pthread keys` -/
  reported : Nat
  life : Life P

/-- `__attribute__((destructor)) plugin_fini` -/
def pluginFini (s : Life P) : Fini P :=
  let (deletes, keys) := finiLoop s.keys s.gTrackedKeys
  { deletes := deletes
    reported := s.gTrackedKeys.length
    life := { s with keys := keys, gTrackedKeys := [] } }

/-- The slots that the deletions really gave back. -/
def Fini.returned (f : Fini P) : Nat := f.deletes.countP (fun d => d.2.isSome)

/-- At `dlopen` every allocated key is somebody else's. -/
def load (t : Table P) : Life P := ⟨relabel (Entry.mk .host) t, [], []⟩

/-- Just after `plugin_init`: nothing is recorded; the table is arbitrary. -/
def afterInit (keys : Pool (Key P) Entry) : Life P := ⟨keys, [], []⟩

/-- One load: what happens before `plugin_init` (constructors ordered earlier, and
whatever runs beside them), the constructor itself, and all that comes after it. -/
def lifetime (t : Table P) (pre post : List (Event P)) : Option (Life P) :=
  (run step (load t) pre).bind (fun s => run step (pluginInit s) post)

/-- The slot an event allocates, and for whom. -/
def Event.creates : Event P → Option (Key P × Entry)
  | .realCreate k d => some (k, ⟨.plugin, d⟩)
  | .hostCreate k d => some (k, ⟨.host, d⟩)
  | _ => none

def Event.deletes : Event P → Option (Key P)
  | .pluginDelete k | .hostDelete k => some k
  | _ => none

/-- The key that `__real_pthread_key_create` hands to a wrapped call. -/
def Event.obtains : Event P → Option (Key P)
  | .realCreate k _ => some k
  | _ => none

def Event.pushes : Event P → Option (Key P)
  | .pushBack k => some k
  | _ => none

/-- The event is one of the plugin's own. -/
def Event.byPlugin : Event P → Prop
  | .hostCreate _ _ | .hostDelete _ => False
  | _ => True

/-- What an event does to the content of one slot. -/
def Event.after (e : Event P) (j : Key P) (v : Option Entry) : Option Entry :=
  match e.creates, e.deletes with
  | some (k, x), _ => if j = k then some x else v
  | none, some k => if j = k then none else v
  | none, none => v

/-- All a step can do: the slots change as the event says, a create needs a vacant
slot, an own delete needs an own key, and recording moves one key from the calls in
flight to the end of the list. -/
structure Stepped (s : Life P) (e : Event P) (t : Life P) : Prop where
  keys : ∀ j, t.keys j = e.after j (s.keys j)
  vacant : ∀ k x, e.creates = some (k, x) → s.keys k = none
  own : ∀ k, e = .pluginDelete k → ownedBy .plugin (s.keys k)
  tracked : t.gTrackedKeys = s.gTrackedKeys ++ e.pushes.toList
  inFlight : ∀ k, t.inFlight.count k + e.pushes.toList.count k =
    s.inFlight.count k + e.obtains.toList.count k

theorem step_spec {s t : Life P} {e : Event P} (h : step s e = some t) : Stepped s e t := by
  cases e with
  | realCreate k d =>
    simp only [step] at h
    split at h
    · rename_i hv
      cases h
      refine ⟨fun j => by simp [Event.after, Event.creates, put], ?_, by simp, by simp [Event.pushes], ?_⟩
      · rintro j x hj
        cases hj
        exact hv
      · intro j
        simp [Event.pushes, Event.obtains, List.count_cons]
    · cases h
  | realCreateFails =>
    cases h
    constructor <;> simp [Event.after, Event.creates, Event.deletes, Event.pushes, Event.obtains]
  | pushBack k =>
    simp only [step] at h
    split at h
    · rename_i hk
      cases h
      refine ⟨by simp [Event.after, Event.creates, Event.deletes], by simp [Event.creates], by simp,
        by simp [Event.pushes], ?_⟩
      intro j
      have hpos := List.count_pos_iff.mpr hk
      by_cases hj : j = k
      · subst hj
        simp only [List.count_erase_self, Event.pushes, Event.obtains, Option.toList_some,
          Option.toList_none, List.count_singleton_self, List.count_nil]
        omega
      · have hjk : k ≠ j := fun h => hj h.symm
        simp [Event.pushes, Event.obtains, List.count_erase_of_ne hj, hjk]
    · cases h
  | pluginDelete k =>
    simp only [step] at h
    split at h
    · rename_i ho
      cases h
      refine ⟨fun j => by simp [Event.after, Event.creates, Event.deletes, drop],
        by simp [Event.creates], ?_, by simp [Event.pushes], by simp [Event.pushes, Event.obtains]⟩
      rintro j hj
      cases hj
      exact ho
    · cases h
  | hostCreate k d =>
    simp only [step] at h
    split at h
    · rename_i hv
      cases h
      refine ⟨fun j => by simp [Event.after, Event.creates, put], ?_, by simp, by simp [Event.pushes],
        by simp [Event.pushes, Event.obtains]⟩
      rintro j x hj
      cases hj
      exact hv
    · cases h
  | hostDelete k =>
    cases h
    exact ⟨fun j => by simp [Event.after, Event.creates, Event.deletes, drop],
      by simp [Event.creates], by simp, by simp [Event.pushes], by simp [Event.pushes, Event.obtains]⟩

/-- Only a wrapped call allocates for the plugin, only the host's own for the host. -/
theorem creates_for_plugin {e : Event P} {k : Key P} {x : Entry} (h : e.creates = some (k, x))
    (ho : x.owner = .plugin) : e = .realCreate k x.dtor := by
  cases e <;> simp [Event.creates] at h
  · obtain ⟨rfl, rfl⟩ := h
    rfl
  · obtain ⟨rfl, rfl⟩ := h
    cases ho

theorem creates_for_host {e : Event P} {k : Key P} {x : Entry} (h : e.creates = some (k, x))
    (ho : x.owner ≠ .plugin) : e = .hostCreate k x.dtor := by
  cases e <;> simp [Event.creates] at h
  · obtain ⟨rfl, rfl⟩ := h
    exact absurd rfl ho
  · obtain ⟨rfl, rfl⟩ := h
    rfl

/-- What the plugin's own events allocate is the plugin's. -/
theorem creates_byPlugin {e : Event P} {k : Key P} {x : Entry} (h : e.creates = some (k, x))
    (hp : e.byPlugin) : e = .realCreate k x.dtor := by
  apply creates_for_plugin h
  by_contra ho
  rw [creates_for_host h ho] at hp
  exact hp

theorem after_of_creates {e : Event P} {k : Key P} {x : Entry} (h : e.creates = some (k, x))
    (v : Option Entry) : e.after k v = some x := by
  simp [Event.after, h]

theorem after_of_deletes {e : Event P} {k : Key P} (h : e.deletes = some k) (v : Option Entry) :
    e.after k v = none := by
  cases e <;> simp_all [Event.after, Event.creates, Event.deletes]

/-- The frame of an event: it touches one slot at most. -/
theorem after_other {e : Event P} {k : Key P} (hc : ∀ x, e.creates ≠ some (k, x))
    (hd : e.deletes ≠ some k) (v : Option Entry) : e.after k v = v := by
  unfold Event.after
  cases hce : e.creates with
  | some c =>
    obtain ⟨j, x⟩ := c
    have hne : k ≠ j := by
      rintro rfl
      exact hc x hce
    simp [hne]
  | none =>
    cases hde : e.deletes with
    | some j =>
      have hne : k ≠ j := by
        rintro rfl
        exact hd hde
      simp [hne]
    | none => rfl

/-- Keys handed to wrapped calls, and keys recorded, over a run. -/
def obtained (evs : List (Event P)) : List (Key P) := evs.filterMap Event.obtains
def pushed (evs : List (Event P)) : List (Key P) := evs.filterMap Event.pushes

theorem obtained_snoc (es : List (Event P)) (e : Event P) :
    obtained (es ++ [e]) = obtained es ++ e.obtains.toList := by
  cases h : e.obtains <;> simp [obtained, h]

theorem pushed_snoc (es : List (Event P)) (e : Event P) :
    pushed (es ++ [e]) = pushed es ++ e.pushes.toList := by
  cases h : e.pushes <;> simp [pushed, h]

theorem mem_obtained {evs : List (Event P)} {k : Key P} :
    k ∈ obtained evs ↔ ∃ d, .realCreate k d ∈ evs := by
  unfold obtained
  rw [List.mem_filterMap]
  constructor
  · rintro ⟨e, he, hk⟩
    cases e <;> simp [Event.obtains] at hk
    subst hk
    exact ⟨_, he⟩
  · rintro ⟨d, hd⟩
    exact ⟨_, hd, rfl⟩

theorem mem_pushed {evs : List (Event P)} {k : Key P} : k ∈ pushed evs ↔ .pushBack k ∈ evs := by
  unfold pushed
  rw [List.mem_filterMap]
  constructor
  · rintro ⟨e, he, hk⟩
    cases e <;> simp [Event.pushes] at hk
    subst hk
    exact he
  · intro h
    exact ⟨_, h, rfl⟩

/-- The list is the record of every key pushed, in order, and of nothing else: a
delete never shortens it. -/
theorem run_tracked {s t : Life P} {evs : List (Event P)} (h : run step s evs = some t) :
    t.gTrackedKeys = s.gTrackedKeys ++ pushed evs := by
  refine run_induction (motive := fun es u => u.gTrackedKeys = s.gTrackedKeys ++ pushed es)
    (by simp [pushed]) ?_ h
  intro es u e v _ ih he
  rw [(step_spec he).tracked, ih, pushed_snoc, List.append_assoc]

/-- Every call in flight ends by recording its key: none is lost, none is invented. -/
theorem run_inFlight {s t : Life P} {evs : List (Event P)} (h : run step s evs = some t)
    (k : Key P) : t.inFlight.count k + (pushed evs).count k =
      s.inFlight.count k + (obtained evs).count k := by
  refine run_induction (motive := fun es u => u.inFlight.count k + (pushed es).count k =
    s.inFlight.count k + (obtained es).count k) (by simp [pushed, obtained]) ?_ h
  intro es u e v _ ih he
  have := (step_spec he).inFlight k
  rw [pushed_snoc, obtained_snoc, List.count_append, List.count_append]
  omega

theorem tracked_afterInit {keys : Pool (Key P) Entry} {evs : List (Event P)} {s : Life P}
    (h : run step (afterInit keys) evs = some s) : s.gTrackedKeys = pushed evs := by
  simpa [afterInit] using run_tracked h

/-- A recorded key was obtained by a wrapped call of the same load. -/
theorem obtained_of_pushed {keys : Pool (Key P) Entry} {evs : List (Event P)} {s : Life P}
    (h : run step (afterInit keys) evs = some s) {k : Key P} (hk : k ∈ pushed evs) :
    k ∈ obtained evs := by
  have hc := run_inFlight h k
  have hpos := List.count_pos_iff.mpr hk
  simp only [afterInit, List.count_nil] at hc
  exact List.count_pos_iff.mp (by omega)

/-- Once all wrapped calls have returned, every obtained key is recorded. -/
theorem pushed_of_obtained {s t : Life P} {evs : List (Event P)} (h : run step s evs = some t)
    (hdone : t.inFlight = []) {k : Key P} (hk : k ∈ obtained evs) : k ∈ pushed evs := by
  have hpos := List.count_pos_iff.mpr hk
  have hflow := run_inFlight h k
  rw [hdone, List.count_nil] at hflow
  exact List.count_pos_iff.mp (by omega)

/-- A held slot is given to nobody. -/
theorem Stepped.creates_ne {s t : Life P} {e : Event P} (h : Stepped s e t) {k : Key P} {x : Entry}
    (hx : s.keys k = some x) (y : Entry) : e.creates ≠ some (k, y) := by
  intro hy
  rw [h.vacant k y hy] at hx
  cases hx

/-- An allocation lasts until somebody deletes its slot, and until then nobody else
is given the slot. -/
theorem run_persists {s t : Life P} {evs : List (Event P)} {k : Key P} {x : Entry}
    (h : run step s evs = some t) (hx : s.keys k = some x)
    (hd : ∀ e ∈ evs, e.deletes ≠ some k) :
    t.keys k = some x ∧ ∀ e ∈ evs, ∀ y, e.creates ≠ some (k, y) := by
  revert hd
  refine run_induction (motive := fun es u => (∀ e ∈ es, e.deletes ≠ some k) →
    u.keys k = some x ∧ ∀ e ∈ es, ∀ y, e.creates ≠ some (k, y)) (fun _ => ⟨hx, by simp⟩) ?_ h
  intro es u e v _ ih he hd
  obtain ⟨hu, hc⟩ := ih (fun y hy => hd y (List.mem_append_left _ hy))
  have hce := (step_spec he).creates_ne hu
  refine ⟨?_, ?_⟩
  · rw [(step_spec he).keys, after_other hce (hd e (by simp)), hu]
  · intro y hy
    rcases List.mem_append.mp hy with hy | hy
    · exact hc y hy
    · rw [List.mem_singleton] at hy
      exact hy ▸ hce

/-- An event leaves a slot to a holder by allocating it, or by not deleting it. -/
theorem step_keys_iff {s t : Life P} {e : Event P} (h : step s e = some t) (k : Key P)
    (x : Entry) : t.keys k = some x ↔
      e.creates = some (k, x) ∨ s.keys k = some x ∧ ¬ e.deletes = some k := by
  rw [(step_spec h).keys]
  by_cases hc : ∃ y, e.creates = some (k, y)
  · obtain ⟨y, hy⟩ := hc
    have hvacant := (step_spec h).vacant k y hy
    rw [after_of_creates hy, hy, hvacant]
    simp
  · have hnone : ∀ y, e.creates ≠ some (k, y) := fun y hy => hc ⟨y, hy⟩
    by_cases hd : e.deletes = some k
    · simp [after_of_deletes hd, hnone x, hd]
    · simp [after_other hnone hd, hnone x, hd]

/-- Why a slot is held: its holder was there at the start, or some event of the run
allocated it, and in both cases nobody has deleted the slot since. -/
theorem run_history {s t : Life P} {evs : List (Event P)} {k : Key P} {x : Entry}
    (h : run step s evs = some t) (hx : t.keys k = some x) :
    (s.keys k = some x ∧ ∀ e ∈ evs, e.deletes ≠ some k) ∨
    ∃ a e b, evs = a ++ e :: b ∧ e.creates = some (k, x) ∧ ∀ y ∈ b, y.deletes ≠ some k := by
  have hsince := run_since (Q := fun s => s.keys k = some x)
    (fun _ _ _ _ _ he => step_keys_iff he k x) h
  rcases hsince.mp hx with hstart | ⟨a, e, b, -, hevs, -, hc, hb⟩
  · exact .inl hstart
  · exact .inr ⟨a, e, b, hevs, hc, hb⟩

/-- The converse: an allocation that nobody deletes is there at the end. -/
theorem run_created {s t : Life P} {a b : List (Event P)} {e : Event P} {k : Key P} {x : Entry}
    (h : run step s (a ++ e :: b) = some t) (he : e.creates = some (k, x))
    (hb : ∀ y ∈ b, y.deletes ≠ some k) : t.keys k = some x := by
  obtain ⟨u, hu, -⟩ := run_append_some h
  have hsince := run_since (Q := fun s => s.keys k = some x)
    (fun _ _ _ _ _ he => step_keys_iff he k x) h
  exact hsince.mpr (.inr ⟨a, e, b, u, rfl, hu, he, hb⟩)

end PluginKeys
