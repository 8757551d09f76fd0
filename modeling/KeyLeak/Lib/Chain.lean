import Mathlib.Data.List.Nodup
import Mathlib.Logic.Function.Basic

/-!
# Chains of linked nodes

A memory gives each node its successor. A path lists the nodes met from a link on; a path to
the null link is determined by where it starts. Several lists share one memory as long as they
are apart, and then a write to a node of one list leaves the paths of the others alone.
-/
namespace Chain

variable {N : Type}

/-- From the link `a` on come the nodes of the list, and then `b`. -/
def Path (next : N → Option N) : Option N → List N → Option N → Prop
  | a, [], b => a = b
  | a, x :: l, b => a = some x ∧ Path next (next x) l b

variable {next next' : N → Option N} {a b c : Option N} {l m : List N} {x : N}

@[simp] theorem path_nil : Path next a [] b ↔ a = b := Iff.rfl
@[simp] theorem path_cons : Path next a (x :: l) b ↔ a = some x ∧ Path next (next x) l b := Iff.rfl

theorem path_append : Path next a (l ++ m) c ↔ ∃ b, Path next a l b ∧ Path next b m c := by
  induction l generalizing a with
  | nil => simp
  | cons x l ih => simp [ih, and_assoc]

/-- A path is empty where it starts at its end, if that end is the null link. -/
theorem Path.eq_nil_iff (h : Path next a l none) : l = [] ↔ a = none := by
  cases l with
  | nil => simpa using h
  | cons x l => simp [h.1]

/-- A node can start only one path to the null link. -/
theorem Path.unique (h : Path next a l none) (h' : Path next a m none) : l = m := by
  induction l generalizing a m with
  | nil => exact (h'.eq_nil_iff.mpr h).symm
  | cons x l ih =>
    obtain ⟨rfl, hl⟩ := h
    cases m with
    | nil => cases h'
    | cons y m =>
      obtain ⟨hxy, hm⟩ := h'
      cases hxy
      rw [ih hl hm]

/-- No node comes twice on a path to the null link. -/
theorem Path.nodup (h : Path next a l none) : l.Nodup := by
  induction l generalizing a with
  | nil => exact List.nodup_nil
  | cons x l ih =>
    refine List.nodup_cons.mpr ⟨fun hx => ?_, ih h.2⟩
    obtain ⟨u, v, rfl⟩ := List.append_of_mem hx
    obtain ⟨b, -, hb⟩ := path_append.mp h.2
    have hlength := congrArg List.length (hb.2.unique h.2)
    simp only [List.length_append, List.length_cons] at hlength
    omega

/-- Only what is written on the nodes of a path matters. -/
theorem Path.congr (h : Path next a l b) (hframe : ∀ y ∈ l, next' y = next y) :
    Path next' a l b := by
  induction l generalizing a with
  | nil => exact h
  | cons x l ih =>
    refine ⟨h.1, ?_⟩
    rw [hframe x List.mem_cons_self]
    exact ih h.2 fun y hy => hframe y (List.mem_cons_of_mem x hy)

section Write

variable [DecidableEq N]

theorem Path.write_other (h : Path next a l b) (hx : x ∉ l) (v : Option N) :
    Path (Function.update next x v) a l b := by
  apply h.congr
  intro y hy
  rw [Function.update_of_ne (ne_of_mem_of_not_mem hy hx)]

/-- A node that is linked to the start of a path comes before it. -/
theorem Path.push (h : Path next a l b) (hx : x ∉ l) :
    Path (Function.update next x a) (some x) (x :: l) b := by
  refine ⟨rfl, ?_⟩
  rw [Function.update_self]
  exact h.write_other hx a

/-- Writing the last node redirects the path. -/
theorem Path.redirect (h : Path next a (l ++ [x]) b) (hx : x ∉ l) (c : Option N) :
    Path (Function.update next x c) a (l ++ [x]) c := by
  obtain ⟨d, hl, hd, -⟩ := path_append.mp h
  refine path_append.mpr ⟨d, hl.write_other hx c, hd, ?_⟩
  simp

end Write

section Apart

variable {P : Type}

/-- No node is in two of the lists or twice in one. -/
structure Apart (lists : P → List N) : Prop where
  nodup : ∀ p, (lists p).Nodup
  same : ∀ {p q x}, x ∈ lists p → x ∈ lists q → p = q

variable {lists lists' : P → List N} {p q : P}

theorem apart_empty : Apart fun _ : P => ([] : List N) :=
  ⟨fun _ => List.nodup_nil, fun h => absurd h List.not_mem_nil⟩

theorem Apart.shrink (h : Apart lists) (hsub : ∀ p, (lists' p).Sublist (lists p)) :
    Apart lists' :=
  ⟨fun p => (h.nodup p).sublist (hsub p),
    fun hp hq => h.same ((hsub _).subset hp) ((hsub _).subset hq)⟩

variable [DecidableEq P]

/-- A new node enters one of the lists. -/
theorem Apart.insert (h : Apart lists) (hx : ∀ p, x ∉ lists p) (hl : l.Perm (x :: lists p)) :
    Apart (Function.update lists p l) := by
  have hmem : ∀ {q y}, y ∈ Function.update lists p l q → y = x ∧ q = p ∨ y ∈ lists q := by
    intro q y hy
    by_cases hq : q = p
    · subst hq
      rw [Function.update_self] at hy
      exact (List.mem_cons.mp (hl.mem_iff.mp hy)).imp_left fun heq => ⟨heq, rfl⟩
    · rw [Function.update_of_ne hq] at hy
      exact .inr hy
  constructor
  · intro q
    by_cases hq : q = p
    · subst hq
      rw [Function.update_self]
      exact hl.nodup_iff.mpr (List.nodup_cons.mpr ⟨hx q, h.nodup q⟩)
    · rw [Function.update_of_ne hq]
      exact h.nodup q
  · intro q r y hq hr
    rcases hmem hq with ⟨rfl, rfl⟩ | hq
    · rcases hmem hr with ⟨-, rfl⟩ | hr
      · rfl
      · exact absurd hr (hx r)
    · rcases hmem hr with ⟨rfl, -⟩ | hr
      · exact absurd hq (hx q)
      · exact h.same hq hr

/-- One of the lists goes into another. -/
theorem Apart.move (h : Apart lists) (hpq : p ≠ q) (hl : l.Perm (lists p ++ lists q)) :
    Apart (Function.update (Function.update lists p []) q l) := by
  have hmem : ∀ {r y}, y ∈ Function.update (Function.update lists p []) q l r →
      r = q ∧ y ∈ lists p ∨ r ≠ p ∧ y ∈ lists r := by
    intro r y hy
    by_cases hr : r = q
    · subst hr
      rw [Function.update_self] at hy
      exact (List.mem_append.mp (hl.mem_iff.mp hy)).imp (fun hp => ⟨rfl, hp⟩)
        fun hq => ⟨hpq.symm, hq⟩
    · rw [Function.update_of_ne hr] at hy
      by_cases hrp : r = p
      · subst hrp
        simp at hy
      · rw [Function.update_of_ne hrp] at hy
        exact .inr ⟨hrp, hy⟩
  constructor
  · intro r
    by_cases hr : r = q
    · subst hr
      rw [Function.update_self, hl.nodup_iff]
      refine (h.nodup p).append (h.nodup r) fun y hp hq => ?_
      exact hpq (h.same hp hq)
    · rw [Function.update_of_ne hr]
      by_cases hrp : r = p
      · simp [hrp]
      · rw [Function.update_of_ne hrp]
        exact h.nodup r
  · intro r s y hr hs
    rcases hmem hr with ⟨hrq, hy⟩ | ⟨hrp, hy⟩ <;> rcases hmem hs with ⟨hsq, hz⟩ | ⟨hsp, hz⟩
    · exact hrq.trans hsq.symm
    · exact absurd (h.same hy hz).symm hsp
    · exact absurd (h.same hy hz) hrp
    · exact h.same hy hz

end Apart

end Chain
