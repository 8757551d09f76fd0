import Mathlib.Data.List.Induction

/-!
# Runs of partial step functions

A labelled machine is a function `σ → ε → Option σ`; `none` means that the event
was not enabled. An unlabelled machine is a function `σ → Option σ`; `none` means
that it has halted. Both are run from left to right, and both carry one induction
rule whose motive sees the history that led to the state.
-/
namespace Runs

variable {σ ε : Type}

/-- Feed a word of events to a labelled machine. -/
def run (step : σ → ε → Option σ) : σ → List ε → Option σ
  | s, [] => some s
  | s, e :: es => (step s e).bind (fun t => run step t es)

@[simp] theorem run_nil (step : σ → ε → Option σ) (s : σ) : run step s [] = some s := rfl
@[simp] theorem run_cons (step : σ → ε → Option σ) (s : σ) (e : ε) (es : List ε) :
    run step s (e :: es) = (step s e).bind (fun t => run step t es) := rfl

theorem run_append (step : σ → ε → Option σ) (s : σ) (es fs : List ε) :
    run step s (es ++ fs) = (run step s es).bind (fun t => run step t fs) := by
  induction es generalizing s with
  | nil => rfl
  | cons e es ih =>
    cases he : step s e with
    | none => simp [he]
    | some t => simp [he, ih]

/-- A run over a concatenation passes through a state in the middle. -/
theorem run_append_some {step : σ → ε → Option σ} {s t : σ} {es fs : List ε}
    (h : run step s (es ++ fs) = some t) :
    ∃ u, run step s es = some u ∧ run step u fs = some t := by
  rw [run_append] at h
  exact Option.bind_eq_some_iff.mp h

theorem run_snoc_some {step : σ → ε → Option σ} {s t : σ} {es : List ε} {e : ε}
    (h : run step s (es ++ [e]) = some t) :
    ∃ u, run step s es = some u ∧ step u e = some t := by
  obtain ⟨u, hu, ht⟩ := run_append_some h
  refine ⟨u, hu, ?_⟩
  cases he : step u e with
  | none => simp [he] at ht
  | some v => simpa [he] using ht

/-- A fact about a history and the state it led to holds at the end of every run
when it holds of the empty history and each enabled event preserves it. -/
theorem run_induction {step : σ → ε → Option σ} {s : σ} {motive : List ε → σ → Prop}
    (start : motive [] s)
    (next : ∀ es t e u, run step s es = some t → motive es t → step t e = some u →
      motive (es ++ [e]) u)
    {es : List ε} {t : σ} (h : run step s es = some t) : motive es t := by
  induction es using List.reverseRecOn generalizing t with
  | nil =>
    cases h
    exact start
  | append_singleton es e ih =>
    obtain ⟨u, hu, he⟩ := run_snoc_some h
    exact next es u e t hu (ih hu) he

/-- The rule without a history: an invariant of every event is one of every run. -/
theorem run_invariant {step : σ → ε → Option σ} {I : σ → Prop}
    (next : ∀ s e t, I s → step s e = some t → I t)
    {s t : σ} {es : List ε} (hs : I s) (h : run step s es = some t) : I t :=
  run_induction (motive := fun _ u => I u) hs (fun _ u e v _ hu he => next u e v hu he) h

/-- Each event of a word has the property in the state in which it comes. -/
def Throughout (step : σ → ε → Option σ) (P : σ → ε → Prop) : σ → List ε → Prop
  | _, [] => True
  | s, e :: es => P s e ∧ (step s e).elim True fun t => Throughout step P t es

instance Throughout.decidable (step : σ → ε → Option σ) (P : σ → ε → Prop)
    [∀ s e, Decidable (P s e)] : ∀ s es, Decidable (Throughout step P s es)
  | _, [] => .isTrue trivial
  | s, e :: es =>
    have : Decidable ((step s e).elim True fun t => Throughout step P t es) :=
      match step s e with
      | none => .isTrue trivial
      | some t => Throughout.decidable step P t es
    inferInstanceAs (Decidable (P s e ∧ _))

theorem Throughout.and {step : σ → ε → Option σ} {P Q : σ → ε → Prop} {s : σ} {es : List ε}
    (hP : Throughout step P s es) (hQ : Throughout step Q s es) :
    Throughout step (fun u e => P u e ∧ Q u e) s es := by
  induction es generalizing s with
  | nil => trivial
  | cons e es ih =>
    refine ⟨⟨hP.1, hQ.1⟩, ?_⟩
    cases hstep : step s e with
    | none => trivial
    | some t => exact ih (by simpa [hstep] using hP.2) (by simpa [hstep] using hQ.2)

/-- An invariant of the events that have a property is one of the runs in which all have it. -/
theorem run_invariant_of {step : σ → ε → Option σ} {P : σ → ε → Prop} {I : σ → Prop}
    (next : ∀ s e t, I s → P s e → step s e = some t → I t)
    {s t : σ} {es : List ε} (hs : I s) (hP : Throughout step P s es)
    (h : run step s es = some t) : I t := by
  induction es generalizing s with
  | nil =>
    cases h
    exact hs
  | cons e es ih =>
    obtain ⟨u, hu, hrun⟩ := Option.bind_eq_some_iff.mp h
    obtain ⟨he, hrest⟩ := hP
    rw [hu] at hrest
    exact ih (next s e u hs he hu) hrest hrun

/-- What the events of a word cost, each in the state in which it comes. -/
def cost (step : σ → ε → Option σ) (c : σ → ε → Nat) : σ → List ε → Nat
  | _, [] => 0
  | s, e :: es => c s e + (step s e).elim 0 fun t => cost step c t es

/-- If every event brings an end one step nearer, but for what it costs, then a run is no longer
than the way to the end and the costs together. -/
theorem run_length_le {step : σ → ε → Option σ} {c : σ → ε → Nat} {Left : σ → Nat → Prop}
    {p : ε → Prop}
    (next : ∀ s e t n, p e → Left s n → step s e = some t → ∃ m, Left t m ∧ m + 1 ≤ n + c s e)
    {s t : σ} {es : List ε} {n : Nat} (hs : Left s n) (hp : ∀ e ∈ es, p e)
    (h : run step s es = some t) :
    ∃ m, Left t m ∧ es.length + m ≤ n + cost step c s es := by
  induction es generalizing s n with
  | nil =>
    cases h
    exact ⟨n, hs, by simp [cost]⟩
  | cons e es ih =>
    obtain ⟨u, hu, hrun⟩ := Option.bind_eq_some_iff.mp h
    obtain ⟨m, hm, hle⟩ := next s e u n (hp e List.mem_cons_self) hs hu
    obtain ⟨k, hk, hrest⟩ := ih hm (fun x hx => hp x (List.mem_cons_of_mem e hx)) hrun
    refine ⟨k, hk, ?_⟩
    simp only [List.length_cons, cost, hu, Option.elim_some]
    omega

/-- Simulation: if every event of one machine is matched by the other, so is every run. -/
theorem run_simulation {τ : Type} {step : σ → ε → Option σ} {step' : τ → ε → Option τ}
    {R : σ → τ → Prop}
    (next : ∀ s t e s', R s t → step s e = some s' → ∃ t', step' t e = some t' ∧ R s' t')
    {s s' : σ} {t : τ} {es : List ε} (hst : R s t) (h : run step s es = some s') :
    ∃ t', run step' t es = some t' ∧ R s' t' := by
  refine run_induction (motive := fun es s' => ∃ t', run step' t es = some t' ∧ R s' t')
    ⟨t, rfl, hst⟩ ?_ h
  rintro es u e v _ ⟨t', ht', hR⟩ hv
  obtain ⟨t'', ht'', hR'⟩ := next u t' e v hR hv
  exact ⟨t'', by simp [run_append, ht', ht''], hR'⟩

/-- An event of a longer word is the last one or one of those before it. -/
theorem snoc_split {es a b : List ε} {e x : ε} (h : es ++ [e] = a ++ x :: b) :
    (es = a ∧ e = x ∧ b = []) ∨ ∃ b', es = a ++ x :: b' ∧ b = b' ++ [e] := by
  rcases List.eq_nil_or_concat b with rfl | ⟨b', y, rfl⟩
  · obtain ⟨hes, he⟩ := List.append_inj' h rfl
    exact .inl ⟨hes, List.singleton_inj.mp he, rfl⟩
  · rw [List.concat_eq_append, ← List.cons_append, ← List.append_assoc] at h
    obtain ⟨hes, he⟩ := List.append_inj' h rfl
    exact .inr ⟨b', hes, by rw [List.concat_eq_append, he]⟩

/-- The first event of a kind in a word that has one. -/
theorem exists_first {p : ε → Bool} {es : List ε} {x : ε} (hx : x ∈ es) (hp : p x = true) :
    ∃ a e b, es = a ++ e :: b ∧ p e = true ∧ ∀ y ∈ a, p y = false := by
  cases hf : es.find? p with
  | none =>
    have := List.find?_eq_none.mp hf x hx
    exact absurd hp this
  | some e =>
    obtain ⟨he, a, b, hes, ha⟩ := List.find?_eq_some_iff_append.mp hf
    exact ⟨a, e, b, hes, he, by simpa using ha⟩

/-- A fact that some events establish and others destroy holds after a run exactly when
it held at the start or an event established it, and none has destroyed it since. -/
theorem run_since {step : σ → ε → Option σ} {s : σ} {Q : σ → Prop} {sets : σ → ε → Prop}
    {clears : ε → Prop}
    (next : ∀ es u e v, run step s es = some u → step u e = some v →
      (Q v ↔ sets u e ∨ Q u ∧ ¬ clears e))
    {es : List ε} {t : σ} (h : run step s es = some t) :
    Q t ↔ (Q s ∧ ∀ y ∈ es, ¬ clears y) ∨
      ∃ a e b u, es = a ++ e :: b ∧ run step s a = some u ∧ sets u e ∧ ∀ y ∈ b, ¬ clears y := by
  have hsnoc : ∀ (b : List ε) e, (∀ y ∈ b ++ [e], ¬ clears y) ↔
      (∀ y ∈ b, ¬ clears y) ∧ ¬ clears e := by
    intro b e
    simp [or_imp, forall_and]
  refine run_induction (motive := fun es t => Q t ↔ (Q s ∧ ∀ y ∈ es, ¬ clears y) ∨
    ∃ a e b u, es = a ++ e :: b ∧ run step s a = some u ∧ sets u e ∧
      ∀ y ∈ b, ¬ clears y) ?_ ?_ h
  · simp
  · intro es u e v hu ih he
    rw [next es u e v hu he]
    constructor
    · rintro (hset | ⟨hq, hc⟩)
      · exact .inr ⟨es, e, [], u, rfl, hu, hset, by simp⟩
      · rcases ih.mp hq with ⟨hstart, hes⟩ | ⟨a, x, b, w, rfl, hw, hset, hb⟩
        · exact .inl ⟨hstart, (hsnoc es e).mpr ⟨hes, hc⟩⟩
        · exact .inr ⟨a, x, b ++ [e], w, by simp, hw, hset, (hsnoc b e).mpr ⟨hb, hc⟩⟩
    · rintro (⟨hstart, hes⟩ | ⟨a, x, b, w, hsplit, hw, hset, hb⟩)
      · obtain ⟨hes, hc⟩ := (hsnoc es e).mp hes
        exact .inr ⟨ih.mpr (.inl ⟨hstart, hes⟩), hc⟩
      · rcases snoc_split hsplit with ⟨rfl, rfl, -⟩ | ⟨b', hes, rfl⟩
        · rw [hu] at hw
          cases hw
          exact .inl hset
        · obtain ⟨hb, hc⟩ := (hsnoc b' e).mp hb
          exact .inr ⟨ih.mpr (.inr ⟨a, x, b', w, hes, hw, hset, hb⟩), hc⟩

/-- A fact that is lost for good at the first bad event holds after a run exactly when
no event of the run was bad in the state it came in. -/
theorem run_never {step : σ → ε → Option σ} {s : σ} {R : σ → Prop} {bad : σ → ε → Prop}
    (start : R s)
    (next : ∀ es u e v, run step s es = some u → step u e = some v → (R v ↔ R u ∧ ¬ bad u e))
    {es : List ε} {t : σ} (h : run step s es = some t) :
    R t ↔ ∀ a e b u, es = a ++ e :: b → run step s a = some u → ¬ bad u e := by
  refine run_induction (motive := fun es t => R t ↔ ∀ a e b u, es = a ++ e :: b →
    run step s a = some u → ¬ bad u e) ?_ ?_ h
  · simp [start]
  · intro es u e v hu ih he
    rw [next es u e v hu he, ih]
    constructor
    · rintro ⟨hall, hlast⟩ a x b w hsplit hw
      rcases snoc_split hsplit with ⟨rfl, rfl, -⟩ | ⟨b', hes, rfl⟩
      · rw [hu] at hw
        cases hw
        exact hlast
      · exact hall a x b' w hes hw
    · intro hall
      exact ⟨fun a x b w hes hw => hall a x (b ++ [e]) w (by simp [hes]) hw,
        hall es e [] u rfl hu⟩

/-- Run exactly `n` transitions of an unlabelled machine. -/
def iter (step : σ → Option σ) : Nat → σ → Option σ
  | 0, s => some s
  | n + 1, s => (step s).bind (iter step n)

@[simp] theorem iter_zero (step : σ → Option σ) (s : σ) : iter step 0 s = some s := rfl

theorem iter_add (step : σ → Option σ) (m n : Nat) (s : σ) :
    iter step (m + n) s = (iter step m s).bind (iter step n) := by
  induction m generalizing s with
  | zero => simp
  | succ m ih =>
    rw [Nat.succ_add]
    cases hs : step s with
    | none => simp [iter, hs]
    | some t => simp [iter, hs, ih]

theorem iter_succ (step : σ → Option σ) (n : Nat) (s : σ) :
    iter step (n + 1) s = (iter step n s).bind step := by
  rw [iter_add]
  congr 1
  funext t
  cases ht : step t <;> simp [iter, ht]

/-- Every prefix of a run exists. -/
theorem iter_prefix {step : σ → Option σ} {m n : Nat} {s t : σ} (hmn : m ≤ n)
    (h : iter step n s = some t) : ∃ u, iter step m s = some u := by
  obtain ⟨k, rfl⟩ := Nat.exists_eq_add_of_le hmn
  rw [iter_add] at h
  obtain ⟨u, hu, -⟩ := Option.bind_eq_some_iff.mp h
  exact ⟨u, hu⟩

/-- The unlabelled form of `run_never`. -/
theorem iter_never {step : σ → Option σ} {s : σ} {R bad : σ → Prop} (start : R s)
    (next : ∀ u v, step u = some v → (R v ↔ R u ∧ ¬ bad u)) {n : Nat} {t : σ}
    (h : iter step n s = some t) :
    R t ↔ ∀ m u, m < n → iter step m s = some u → ¬ bad u := by
  induction n generalizing t with
  | zero =>
    cases h
    simp [start]
  | succ n ih =>
    rw [iter_succ] at h
    obtain ⟨u, hu, hstep⟩ := Option.bind_eq_some_iff.mp h
    rw [next u t hstep, ih hu]
    constructor
    · rintro ⟨hall, hlast⟩ m v hm hv
      by_cases hmn : m = n
      · rw [hmn, hu] at hv
        cases hv
        exact hlast
      · exact hall m v (by omega) hv
    · intro hall
      exact ⟨fun m v hm hv => hall m v (by omega) hv, hall n u (by omega) hu⟩

/-- The machine halts in `t` after exactly `n` transitions. -/
def HaltsAfter (step : σ → Option σ) (n : Nat) (s t : σ) : Prop :=
  iter step n s = some t ∧ step t = none

/-- A machine has one halting time and one halting state. -/
theorem haltsAfter_unique {step : σ → Option σ} {m n : Nat} {s t u : σ}
    (ht : HaltsAfter step m s t) (hu : HaltsAfter step n s u) : m = n ∧ t = u := by
  have later : ∀ {i j v w}, HaltsAfter step i s v → HaltsAfter step j s w → ¬ i < j := by
    intro i j v w hv hw hij
    obtain ⟨x, hx⟩ := iter_prefix (Nat.succ_le_of_lt hij) hw.1
    rw [iter_succ, hv.1] at hx
    simp [hv.2] at hx
  have hmn : m = n := by
    have h₁ := later ht hu
    have h₂ := later hu ht
    omega
  subst hmn
  exact ⟨rfl, Option.some.inj (ht.1.symm.trans hu.1)⟩

end Runs
