import KeyLeak.Lib.DoubleLink
import KeyLeak.Lib.Runs

/-!
# The list of local objects

The modules that `dlopen` has loaded with `RTLD_LOCAL` are kept in a doubly linked list behind a
static object whose handle is null. Objects come from `malloc` and go back to `free`. A read or a
write of an object that is not allocated is undefined, and so is a loop that does not end: both
are `none` here.
-/
namespace LocalObjects

open DoubleLink Runs

/-- Null is 0. -/
abbrev HMODULE := UInt64

/-- The static `first_object`, or a block that `malloc` has returned. -/
inductive Addr (N : Type) where
  | first
  | block (a : N)
  deriving DecidableEq

structure LocalObject (N : Type) where
  hModule : HMODULE
  previous : Option (Addr N)
  next : Option (Addr N)

/-- The objects, and the blocks that have not been freed. -/
structure Heap (N : Type) where
  object : Addr N → LocalObject N
  blocks : List N

variable {N : Type}

def start (N : Type) : Heap N := ⟨fun _ => ⟨0, none, none⟩, []⟩

section Code

variable [DecidableEq N]

def Heap.valid (heap : Heap N) : Addr N → Bool
  | .first => true
  | .block a => decide (a ∈ heap.blocks)

def Heap.read (heap : Heap N) (p : Addr N) : Option (LocalObject N) :=
  if heap.valid p then some (heap.object p) else none

def Heap.set (heap : Heap N) (p : Addr N) (f : LocalObject N → LocalObject N) : Heap N :=
  { heap with object := Function.update heap.object p (f (heap.object p)) }

def Heap.write (heap : Heap N) (p : Addr N) (f : LocalObject N → LocalObject N) :
    Option (Heap N) :=
  if heap.valid p then some (heap.set p f) else none

def Heap.free (heap : Heap N) : Addr N → Option (Heap N)
  | .first => none
  | .block a => if a ∈ heap.blocks then some { heap with blocks := heap.blocks.erase a } else none

/-- `for( pobject = …; pobject; pobject = pobject->next )` of `local_search` -/
def Heap.find (heap : Heap N) (hModule : HMODULE) :
    Nat → Option (Addr N) → Option (Option (Addr N))
  | _, none => some none
  | 0, some _ => none
  | fuel + 1, some p => do
    let pobject ← heap.read p
    if pobject.hModule = hModule then some (some p) else heap.find hModule fuel pobject.next

/-- `for( pobject = …; pobject->next; pobject = pobject->next );` of `local_add` -/
def Heap.last (heap : Heap N) : Nat → Addr N → Option (Addr N)
  | 0, _ => none
  | fuel + 1, p => do
    let pobject ← heap.read p
    match pobject.next with
    | none => some p
    | some q => heap.last fuel q

/-- No loop goes further than through all objects once. -/
def Heap.fuel (heap : Heap N) : Nat := heap.blocks.length + 1

def localSearch (heap : Heap N) (hModule : HMODULE) : Option (Option (Addr N)) :=
  if hModule = 0 then some none else heap.find hModule heap.fuel (some .first)

/-- `malloc` is its answer, if it is called. -/
def localAdd (heap : Heap N) (hModule : HMODULE) (malloc : Option N) : Option (Bool × Heap N) :=
  if hModule = 0 then
    some (true, heap)
  else do
    let pobject ← localSearch heap hModule
    if pobject.isSome then
      some (true, heap)
    else
      let p ← heap.last heap.fuel .first
      match malloc with
      | none => some (false, heap)
      | some a =>
        let heap := { heap with blocks := a :: heap.blocks }
        let heap ← heap.write p fun pobject => { pobject with next := some (.block a) }
        let heap ← heap.write (.block a) fun _ => ⟨hModule, some p, none⟩
        some (true, heap)

/-- A write through a link that may be null. -/
def Heap.writeLink (heap : Heap N) (link : Option (Addr N)) (f : LocalObject N → LocalObject N) :
    Option (Heap N) :=
  match link with
  | some q => heap.write q f
  | none => some heap

def localRem (heap : Heap N) (hModule : HMODULE) : Option (Heap N) :=
  if hModule = 0 then
    some heap
  else do
    match ← localSearch heap hModule with
    | none => some heap
    | some p =>
      let pobject ← heap.read p
      let heap ← heap.writeLink pobject.next fun next => { next with previous := pobject.previous }
      let pobject ← heap.read p
      let heap ← heap.writeLink pobject.previous fun previous =>
        { previous with next := pobject.next }
      heap.free p

end Code

def Heap.next (heap : Heap N) (p : Addr N) : Option (Addr N) := (heap.object p).next

def Heap.previous (heap : Heap N) (p : Addr N) : Option (Addr N) := (heap.object p).previous

def Heap.hModule (heap : Heap N) (p : Addr N) : HMODULE := (heap.object p).hModule

/-- The handles on the list, in its order. -/
def Heap.handles (heap : Heap N) (nodes : List N) : List HMODULE :=
  nodes.map fun a => heap.hModule (.block a)

/-- The objects on the list, and no others, are allocated, and no handle is on it twice. -/
structure Listed (heap : Heap N) (nodes : List N) : Prop where
  linked : Linked heap.next heap.previous .first (nodes.map .block)
  blocks : heap.blocks.Perm nodes
  first : heap.hModule .first = 0
  handles : (0 :: heap.handles nodes).Nodup

theorem listed_start : Listed (start N) [] :=
  ⟨⟨seg_nil, rfl, List.nodup_singleton _⟩, List.Perm.refl [], rfl, List.nodup_singleton 0⟩

section Set

variable [DecidableEq N] {heap : Heap N} {p : Addr N} {f : LocalObject N → LocalObject N}

@[simp] theorem set_blocks : (heap.set p f).blocks = heap.blocks := rfl
@[simp] theorem set_next :
    (heap.set p f).next = Function.update heap.next p (f (heap.object p)).next :=
  Function.comp_update LocalObject.next heap.object p _
@[simp] theorem set_previous :
    (heap.set p f).previous = Function.update heap.previous p (f (heap.object p)).previous :=
  Function.comp_update LocalObject.previous heap.object p _
@[simp] theorem set_hModule :
    (heap.set p f).hModule = Function.update heap.hModule p (f (heap.object p)).hModule :=
  Function.comp_update LocalObject.hModule heap.object p _

theorem read_eq (hp : heap.valid p = true) : heap.read p = some (heap.object p) := if_pos hp

theorem write_eq (hp : heap.valid p = true) : heap.write p f = some (heap.set p f) := if_pos hp

/-- What `local_add` writes: the new object behind `p`. -/
def Heap.append (heap : Heap N) (h : HMODULE) (a : N) (p : Addr N) : Heap N :=
  ({ heap with blocks := a :: heap.blocks }.set p
    fun pobject => { pobject with next := some (.block a) }).set (.block a) fun _ => ⟨h, some p, none⟩

variable {h : HMODULE} {a : N}

theorem valid_grow (hp : heap.valid p = true) :
    ({ heap with blocks := a :: heap.blocks } : Heap N).valid p = true := by
  cases p with
  | first => rfl
  | block b => exact decide_eq_true (List.mem_cons_of_mem a (of_decide_eq_true hp))

theorem append_next : (heap.append h a p).next =
    Function.update (Function.update heap.next p (some (.block a))) (.block a) none := by
  rw [Heap.append, set_next, set_next]
  rfl

theorem append_previous :
    (heap.append h a p).previous = Function.update heap.previous (.block a) (some p) := by
  rw [Heap.append, set_previous, set_previous]
  exact congrArg (Function.update · _ _) (Function.update_eq_self p heap.previous)

theorem append_hModule :
    (heap.append h a p).hModule = Function.update heap.hModule (.block a) h := by
  rw [Heap.append, set_hModule, set_hModule]
  exact congrArg (Function.update · _ _) (Function.update_eq_self p heap.hModule)

/-- What a write through a link does where the link is not broken. -/
def Heap.setLink (heap : Heap N) (link : Option (Addr N)) (f : LocalObject N → LocalObject N) :
    Heap N := link.elim heap fun q => heap.set q f

theorem writeLink_eq {link : Option (Addr N)} (hlink : ∀ q, link = some q → heap.valid q = true) :
    heap.writeLink link f = some (heap.setLink link f) := by
  cases link with
  | none => rfl
  | some q => exact write_eq (hlink q rfl)

/-- What `local_rem` writes: the neighbours of `p` are linked to each other. -/
def Heap.unlink (heap : Heap N) (p : Addr N) : Heap N :=
  (heap.setLink (heap.next p) fun next => { next with previous := heap.previous p }).setLink
    (heap.previous p) fun previous => { previous with next := heap.next p }

section SetLink

variable {link v : Option (Addr N)} {q : Addr N}

@[simp] theorem setLink_blocks : (heap.setLink link f).blocks = heap.blocks := by cases link <;> rfl

theorem setLink_valid : (heap.setLink link f).valid q = heap.valid q := by
  cases q <;> simp [Heap.valid]

theorem setLink_object (hlink : link ≠ some q) :
    (heap.setLink link f).object q = heap.object q := by
  cases link with
  | none => rfl
  | some r => exact Function.update_of_ne (fun h => hlink (congrArg some h.symm)) ..

theorem setLink_hModule (hf : ∀ pobject, (f pobject).hModule = pobject.hModule) :
    (heap.setLink link f).hModule = heap.hModule := by
  cases link with
  | none => rfl
  | some q =>
    refine set_hModule.trans ?_
    rw [hf]
    exact Function.update_eq_self q heap.hModule

theorem setLink_keeps_next (hf : ∀ pobject, (f pobject).next = pobject.next) :
    (heap.setLink link f).next = heap.next := by
  cases link with
  | none => rfl
  | some q =>
    refine set_next.trans ?_
    rw [hf]
    exact Function.update_eq_self q heap.next

theorem setLink_keeps_previous (hf : ∀ pobject, (f pobject).previous = pobject.previous) :
    (heap.setLink link f).previous = heap.previous := by
  cases link with
  | none => rfl
  | some q =>
    refine set_previous.trans ?_
    rw [hf]
    exact Function.update_eq_self q heap.previous

theorem setLink_next (hf : ∀ pobject, (f pobject).next = v) :
    (heap.setLink link f).next = link.elim heap.next fun q => Function.update heap.next q v := by
  cases link with
  | none => rfl
  | some q => exact set_next.trans (by rw [hf]; rfl)

theorem setLink_previous (hf : ∀ pobject, (f pobject).previous = v) :
    (heap.setLink link f).previous =
      link.elim heap.previous fun q => Function.update heap.previous q v := by
  cases link with
  | none => rfl
  | some q => exact set_previous.trans (by rw [hf]; rfl)

end SetLink

theorem unlink_next : (heap.unlink p).next =
    (heap.previous p).elim heap.next fun q => Function.update heap.next q (heap.next p) := by
  rw [Heap.unlink, setLink_next (v := heap.next p), setLink_keeps_next]
  · exact fun _ => rfl
  · exact fun _ => rfl

theorem unlink_previous : (heap.unlink p).previous =
    (heap.next p).elim heap.previous fun q =>
      Function.update heap.previous q (heap.previous p) := by
  rw [Heap.unlink, setLink_keeps_previous, setLink_previous]
  · exact fun _ => rfl
  · exact fun _ => rfl

@[simp] theorem unlink_blocks : (heap.unlink p).blocks = heap.blocks := by simp [Heap.unlink]

theorem unlink_hModule : (heap.unlink p).hModule = heap.hModule := by
  rw [Heap.unlink, setLink_hModule, setLink_hModule]
  · exact fun _ => rfl
  · exact fun _ => rfl

end Set

theorem handles_mem {heap : Heap N} {nodes : List N} {h : HMODULE} :
    h ∈ heap.handles nodes ↔ ∃ a ∈ nodes, heap.hModule (.block a) = h := by
  simp [Heap.handles]

theorem handles_congr {heap heap' : Heap N} {nodes : List N}
    (heq : ∀ a ∈ nodes, heap'.hModule (.block a) = heap.hModule (.block a)) :
    heap'.handles nodes = heap.handles nodes := List.map_congr_left heq

theorem Listed.length_lt {heap : Heap N} {nodes : List N} (hl : Listed heap nodes) :
    (nodes.map Addr.block).length < heap.fuel := by
  rw [List.length_map, Heap.fuel, hl.blocks.length_eq]
  exact Nat.lt_add_one _

section Loops

variable [DecidableEq N] {heap : Heap N} {nodes : List N} {h : HMODULE} {p : Addr N}
  {l : List (Addr N)} {fuel : Nat}

@[simp] theorem find_none : heap.find h fuel none = some none := by cases fuel <;> rfl

theorem find_some (hp : heap.valid p = true) : heap.find h (fuel + 1) (some p) =
    if heap.hModule p = h then some (some p) else heap.find h fuel (heap.next p) := by
  rw [Heap.find, read_eq hp]
  rfl

theorem last_end (hp : heap.valid p = true) (hnext : heap.next p = none) :
    heap.last (fuel + 1) p = some p := by
  rw [Heap.last, read_eq hp, Option.bind_eq_bind, Option.bind_some]
  simp only [show (heap.object p).next = none from hnext]

theorem last_more {q : Addr N} (hp : heap.valid p = true) (hnext : heap.next p = some q) :
    heap.last (fuel + 1) p = heap.last fuel q := by
  rw [Heap.last, read_eq hp, Option.bind_eq_bind, Option.bind_some]
  simp only [show (heap.object p).next = some q from hnext]

theorem find_spec (hseg : Seg heap.next heap.previous p l) (hlast : heap.next (l.getLastD p) = none)
    (hvalid : ∀ q ∈ p :: l, heap.valid q = true) (hfuel : l.length < fuel) :
    heap.find h fuel (some p) = some ((p :: l).find? fun q => decide (heap.hModule q = h)) := by
  induction l generalizing p fuel with
  | nil =>
    obtain ⟨fuel, rfl⟩ := Nat.exists_eq_add_one.mpr hfuel
    have hnext : heap.next p = none := hlast
    rw [find_some (hvalid p List.mem_cons_self), hnext]
    by_cases hp : heap.hModule p = h <;> simp [hp]
  | cons q l ih =>
    obtain ⟨fuel, rfl⟩ := Nat.exists_eq_add_one.mpr (Nat.zero_lt_of_lt hfuel)
    obtain ⟨hnext, -, hrest⟩ := seg_cons.mp hseg
    rw [List.getLastD_cons] at hlast
    have hfound := ih hrest hlast (fun r hr => hvalid r (List.mem_cons_of_mem p hr))
      (Nat.lt_of_succ_lt_succ hfuel)
    rw [find_some (hvalid p List.mem_cons_self), hnext, hfound]
    by_cases hp : heap.hModule p = h <;> simp [hp]

theorem last_spec (hseg : Seg heap.next heap.previous p l) (hlast : heap.next (l.getLastD p) = none)
    (hvalid : ∀ q ∈ p :: l, heap.valid q = true) (hfuel : l.length < fuel) :
    heap.last fuel p = some (l.getLastD p) := by
  induction l generalizing p fuel with
  | nil =>
    obtain ⟨fuel, rfl⟩ := Nat.exists_eq_add_one.mpr hfuel
    exact last_end (hvalid p List.mem_cons_self) hlast
  | cons q l ih =>
    obtain ⟨fuel, rfl⟩ := Nat.exists_eq_add_one.mpr (Nat.zero_lt_of_lt hfuel)
    obtain ⟨hnext, -, hrest⟩ := seg_cons.mp hseg
    rw [List.getLastD_cons] at hlast ⊢
    rw [last_more (hvalid p List.mem_cons_self) hnext]
    exact ih hrest hlast (fun r hr => hvalid r (List.mem_cons_of_mem p hr))
      (Nat.lt_of_succ_lt_succ hfuel)

theorem Listed.valid (hl : Listed heap nodes) :
    ∀ q ∈ (.first :: nodes.map .block : List (Addr N)), heap.valid q = true := by
  intro q hq
  rcases List.mem_cons.mp hq with rfl | hq
  · rfl
  · obtain ⟨a, ha, rfl⟩ := List.mem_map.mp hq
    exact decide_eq_true (hl.blocks.mem_iff.mpr ha)

/-- The object with a handle on the list is found, and otherwise none. -/
theorem localSearch_spec (hl : Listed heap nodes) (hh : h ≠ 0) :
    localSearch heap h = some ((nodes.find? fun a =>
      decide (heap.hModule (.block a) = h)).map .block) := by
  rw [localSearch, if_neg hh, find_spec hl.linked.seg hl.linked.last hl.valid hl.length_lt,
    List.find?_cons_of_neg, List.find?_map]
  · rfl
  · simpa [hl.first] using hh.symm

/-- The same as a question whether the handle is on the list. -/
theorem localSearch_cases (hl : Listed heap nodes) (hh : h ≠ 0) :
    (h ∉ heap.handles nodes ∧ localSearch heap h = some none) ∨
      ∃ a ∈ nodes, heap.hModule (.block a) = h ∧
        localSearch heap h = some (some (.block a)) := by
  rw [localSearch_spec hl hh]
  cases hfind : nodes.find? fun a => decide (heap.hModule (.block a) = h) with
  | none =>
    left
    refine ⟨fun hin => ?_, rfl⟩
    obtain ⟨a, ha, hah⟩ := handles_mem.mp hin
    simpa [hah] using List.find?_eq_none.mp hfind a ha
  | some a =>
    right
    have hah := List.find?_some hfind
    exact ⟨a, List.mem_of_find?_eq_some hfind, by simpa using hah, rfl⟩

theorem localAdd_present (hl : Listed heap nodes) {malloc : Option N}
    (hh : h = 0 ∨ h ∈ heap.handles nodes) : localAdd heap h malloc = some (true, heap) := by
  by_cases hz : h = 0
  · exact if_pos hz
  · rcases localSearch_cases hl hz with ⟨habsent, -⟩ | ⟨a, -, -, hfound⟩
    · exact absurd (hh.resolve_left hz) habsent
    · rw [localAdd, if_neg hz, hfound]
      rfl

theorem localAdd_refused (hl : Listed heap nodes) (hz : h ≠ 0) (hh : h ∉ heap.handles nodes) :
    localAdd heap h none = some (false, heap) := by
  rcases localSearch_cases hl hz with ⟨-, hnone⟩ | ⟨a, ha, hah, -⟩
  · rw [localAdd, if_neg hz, hnone, last_spec hl.linked.seg hl.linked.last hl.valid hl.length_lt]
    rfl
  · exact absurd (handles_mem.mpr ⟨a, ha, hah⟩) hh

/-- A new object comes to the end of the list. -/
theorem localAdd_linked (hl : Listed heap nodes) (hz : h ≠ 0) (hh : h ∉ heap.handles nodes) {a : N}
    (ha : a ∉ heap.blocks) :
    ∃ heap', localAdd heap h (some a) = some (true, heap') ∧ Listed heap' (nodes ++ [a]) ∧
      heap'.handles (nodes ++ [a]) = heap.handles nodes ++ [h] := by
  set p := (nodes.map Addr.block).getLastD .first with hp
  have hnew : Addr.block a ∉ Addr.first :: nodes.map .block := by
    simpa [hl.blocks.mem_iff] using ha
  have hhandles : (heap.append h a p).handles (nodes ++ [a]) = heap.handles nodes ++ [h] := by
    have hsame : (heap.append h a p).handles nodes = heap.handles nodes := by
      refine handles_congr fun b hb => ?_
      rw [append_hModule, Function.update_of_ne]
      exact ne_of_mem_of_not_mem (List.mem_cons_of_mem _ (List.mem_map_of_mem hb)) hnew
    rw [← hsame, Heap.handles, Heap.handles, List.map_append, List.map_singleton, append_hModule,
      Function.update_self]
  refine ⟨heap.append h a p, ?_, ⟨?_, ?_, ?_, ?_⟩, hhandles⟩
  · rcases localSearch_cases hl hz with ⟨-, hnone⟩ | ⟨b, hb, hbh, -⟩
    · have hend := last_spec hl.linked.seg hl.linked.last hl.valid hl.length_lt
      have hvalid := valid_grow (a := a) (hl.valid p List.getLastD_mem_cons)
      rw [localAdd, if_neg hz, hnone, Option.bind_eq_bind, Option.bind_some, hend]
      simp only [Option.isSome_none, Option.bind_eq_bind, Option.bind_some, Bool.false_eq_true,
        if_false]
      rw [write_eq hvalid, Option.bind_some, write_eq (by simp [Heap.valid]), Option.bind_some]
      rfl
    · exact absurd (handles_mem.mpr ⟨b, hb, hbh⟩) hh
  · rw [append_next, append_previous, List.map_append]
    exact hl.linked.snoc hnew
  · exact (hl.blocks.cons a).trans (List.perm_append_singleton a nodes).symm
  · rw [append_hModule, Function.update_of_ne (by simp), hl.first]
  · rw [hhandles, ← List.cons_append, ← List.concat_eq_append, List.nodup_concat]
    exact ⟨by simpa [hz] using hh, hl.handles⟩

theorem localRem_absent (hl : Listed heap nodes) (hh : h = 0 ∨ h ∉ heap.handles nodes) :
    localRem heap h = some heap := by
  by_cases hz : h = 0
  · exact if_pos hz
  · rcases localSearch_cases hl hz with ⟨-, hnone⟩ | ⟨a, ha, hah, -⟩
    · rw [localRem, if_neg hz, hnone]
      rfl
    · exact absurd (handles_mem.mpr ⟨a, ha, hah⟩) (hh.resolve_left hz)

theorem localRem_eq (hz : h ≠ 0) (hfound : localSearch heap h = some (some p))
    (hp : heap.valid p = true)
    (hnext : ∀ q, heap.next p = some q → heap.valid q = true ∧ q ≠ p)
    (hprevious : ∀ q, heap.previous p = some q → heap.valid q = true) :
    localRem heap h = (heap.unlink p).free p := by
  have hother : (heap.object p).next ≠ some p := fun h => (hnext p h).2 rfl
  have hvalid : ∀ q, (heap.object p).next = some q → heap.valid q = true :=
    fun q hq => (hnext q hq).1
  rw [localRem, if_neg hz, hfound]
  simp only [Option.bind_eq_bind, Option.bind_some]
  rw [read_eq hp, Option.bind_some, writeLink_eq hvalid, Option.bind_some,
    read_eq (setLink_valid.trans hp), Option.bind_some, setLink_object hother, writeLink_eq,
    Option.bind_some]
  · rfl
  · exact fun q hq => setLink_valid.trans (hprevious q hq)

/-- The object with the handle is taken out of the list and freed. -/
theorem localRem_linked {a : N} {m : List N} (hl : Listed heap (nodes ++ a :: m))
    (ha : heap.hModule (.block a) = h) (hz : h ≠ 0) :
    ∃ heap', localRem heap h = some heap' ∧ Listed heap' (nodes ++ m) ∧
      heap'.handles (nodes ++ m) = heap.handles (nodes ++ m) := by
  have hlinked : Linked heap.next heap.previous .first
      (nodes.map .block ++ .block a :: m.map .block) := by simpa using hl.linked
  obtain ⟨-, -, hprevious, hnext, -⟩ := hlinked.split
  have hblock : heap.valid (.block a) = true := hl.valid _ (by simp)
  have hfound : localSearch heap h = some (some (.block a)) := by
    rcases localSearch_cases hl hz with ⟨hnone, -⟩ | ⟨b, hb, hbh, hfound⟩
    · exact absurd (handles_mem.mpr ⟨a, by simp, ha⟩) hnone
    · rw [hfound, List.inj_on_of_nodup_map (List.nodup_cons.mp hl.handles).2 hb (by simp)
        (hbh.trans ha.symm)]
  have hlinks : ∀ q, heap.next (.block a) = some q → heap.valid q = true ∧ q ≠ .block a := by
    intro q hq
    have hin := List.mem_of_mem_head? (hnext ▸ hq)
    refine ⟨hl.valid q (by simp at hin; simp; tauto), ?_⟩
    rintro rfl
    have hnodup := (List.nodup_append.mp (List.nodup_cons.mp hlinked.nodup).2).2.1
    exact (List.nodup_cons.mp hnodup).1 hin
  have hlast : ∀ q, heap.previous (.block a) = some q → heap.valid q = true := by
    intro q hq
    rw [hprevious] at hq
    cases hq
    rcases List.mem_cons.mp List.getLastD_mem_cons with hfirst | hin
    · rw [hfirst]
      rfl
    · refine hl.valid _ (List.mem_cons_of_mem _ ?_)
      rw [List.map_append]
      exact List.mem_append_left _ hin
  have hhandles : ({ heap.unlink (.block a) with blocks := heap.blocks.erase a } : Heap N).handles
      (nodes ++ m) = heap.handles (nodes ++ m) :=
    handles_congr fun b _ => congrFun unlink_hModule (.block b)
  refine ⟨{ heap.unlink (.block a) with blocks := heap.blocks.erase a }, ?_, ⟨?_, ?_, ?_, ?_⟩,
    hhandles⟩
  · rw [localRem_eq hz hfound hblock hlinks hlast, Heap.free, unlink_blocks,
      if_pos (of_decide_eq_true hblock)]
  · have hunlinked := hlinked.unlink
    rw [hprevious] at hunlinked
    change Linked (heap.unlink (.block a)).next (heap.unlink (.block a)).previous _ _
    rw [unlink_next, unlink_previous, hprevious, List.map_append]
    exact hunlinked
  · have hperm := (hl.blocks.trans List.perm_middle).erase a
    rwa [List.erase_cons_head] at hperm
  · exact (congrFun unlink_hModule _).trans hl.first
  · rw [hhandles]
    refine hl.handles.sublist (List.Sublist.cons_cons 0 (List.Sublist.map _ ?_))
    exact List.Sublist.append_left (List.sublist_cons_self a m) nodes

end Loops

section Runs

variable [DecidableEq N] {heap : Heap N} {nodes : List N} {h : HMODULE} {malloc : Option N}

/-- `malloc` returns no block that is in use. -/
def Fresh (heap : Heap N) (malloc : Option N) : Prop := ∀ a, malloc = some a → a ∉ heap.blocks

instance : Decidable (Fresh heap malloc) :=
  match malloc with
  | none => .isTrue nofun
  | some a => decidable_of_iff (a ∉ heap.blocks) (by simp [Fresh])

/-- `local_add` on a list without repetitions; the second argument is whether `malloc` fails. -/
def addHandle (handles : List HMODULE) (full : Bool) (h : HMODULE) : Bool × List HMODULE :=
  if h = 0 ∨ h ∈ handles then (true, handles)
  else if full then (false, handles)
  else (true, handles ++ [h])

theorem localAdd_spec (hl : Listed heap nodes) (hfresh : Fresh heap malloc) :
    ∃ heap' nodes', localAdd heap h malloc =
        some ((addHandle (heap.handles nodes) malloc.isNone h).1, heap') ∧
      Listed heap' nodes' ∧
      heap'.handles nodes' = (addHandle (heap.handles nodes) malloc.isNone h).2 := by
  by_cases hh : h = 0 ∨ h ∈ heap.handles nodes
  · exact ⟨heap, nodes, by simp [addHandle, hh, localAdd_present hl hh], hl, by simp [addHandle, hh]⟩
  · obtain ⟨hz, habsent⟩ := not_or.mp hh
    cases malloc with
    | none =>
      exact ⟨heap, nodes, by simp [addHandle, hh, localAdd_refused hl hz habsent], hl,
        by simp [addHandle, hh]⟩
    | some a =>
      obtain ⟨heap', hadd, hl', hhandles⟩ := localAdd_linked hl hz habsent (hfresh a rfl)
      exact ⟨heap', nodes ++ [a], by simp [addHandle, hh, hadd], hl', by simp [addHandle, hh, hhandles]⟩

theorem localRem_spec (hl : Listed heap nodes) :
    ∃ heap' nodes', localRem heap h = some heap' ∧ Listed heap' nodes' ∧
      heap'.handles nodes' = (heap.handles nodes).erase h := by
  by_cases hh : h ∈ heap.handles nodes
  · obtain ⟨a, ha, hah⟩ := handles_mem.mp hh
    obtain ⟨l, m, rfl⟩ := List.append_of_mem ha
    have hz : h ≠ 0 := ne_of_mem_of_not_mem hh (List.nodup_cons.mp hl.handles).1
    obtain ⟨heap', hrem, hl', hhandles⟩ := localRem_linked hl hah hz
    refine ⟨heap', l ++ m, hrem, hl', hhandles.trans ?_⟩
    have hsplit : heap.handles (l ++ a :: m) = heap.handles l ++ h :: heap.handles m := by
      simp [Heap.handles, hah]
    have hnodup := (List.nodup_cons.mp hl.handles).2
    rw [hsplit] at hnodup ⊢
    have hbefore : h ∉ heap.handles l := fun hin =>
      (List.nodup_append.mp hnodup).2.2 h hin h List.mem_cons_self rfl
    rw [List.erase_append_right _ hbefore, List.erase_cons_head]
    exact List.map_append
  · refine ⟨heap, nodes, localRem_absent hl (.inr hh), hl, ?_⟩
    rw [List.erase_of_not_mem hh]

inductive Op (N : Type) where
  | search (h : HMODULE)
  | add (h : HMODULE) (malloc : Option N)
  | rem (h : HMODULE)
  deriving DecidableEq, Repr

/-- A call, with whether it finds or adds the handle. -/
def Op.call (heap : Heap N) : Op N → Option (Bool × Heap N)
  | .search h => (localSearch heap h).map fun found => (found.isSome, heap)
  | .add h malloc => localAdd heap h malloc
  | .rem h => (localRem heap h).map fun heap => (true, heap)

/-- The same on a list. -/
def Op.abstract (handles : List HMODULE) : Op N → Bool × List HMODULE
  | .search h => (decide (h ∈ handles), handles)
  | .add h malloc => addHandle handles malloc.isNone h
  | .rem h => (true, handles.erase h)

def Op.Fresh (heap : Heap N) : Op N → Prop
  | .add _ malloc => LocalObjects.Fresh heap malloc
  | _ => True

instance (heap : Heap N) : (op : Op N) → Decidable (op.Fresh heap)
  | .add _ malloc => inferInstanceAs (Decidable (LocalObjects.Fresh heap malloc))
  | .search _ | .rem _ => .isTrue trivial

theorem Op.call_spec (hl : Listed heap nodes) {op : Op N} (hfresh : op.Fresh heap) :
    ∃ heap' nodes', op.call heap = some ((op.abstract (heap.handles nodes)).1, heap') ∧
      Listed heap' nodes' ∧ heap'.handles nodes' = (op.abstract (heap.handles nodes)).2 := by
  cases op with
  | search h =>
    refine ⟨heap, nodes, ?_, hl, rfl⟩
    by_cases hz : h = 0
    · have hnot : (0 : HMODULE) ∉ heap.handles nodes := (List.nodup_cons.mp hl.handles).1
      simp [Op.call, localSearch, Op.abstract, hz, hnot]
    · rcases localSearch_cases hl hz with ⟨habsent, hnone⟩ | ⟨a, ha, hah, hfound⟩
      · simp [Op.call, Op.abstract, hnone, habsent]
      · simp [Op.call, Op.abstract, hfound, handles_mem.mpr ⟨a, ha, hah⟩]
  | add h malloc => exact localAdd_spec hl hfresh
  | rem h =>
    obtain ⟨heap', nodes', hrem, hl', hhandles⟩ := localRem_spec (h := h) hl
    exact ⟨heap', nodes', by simp [Op.call, hrem, Op.abstract], hl', hhandles⟩

/-- The list, and the answers given so far. -/
def step (s : Heap N × List Bool) (op : Op N) : Option (Heap N × List Bool) :=
  if op.Fresh s.1 then (op.call s.1).map fun r => (r.2, s.2 ++ [r.1]) else none

def abstractStep (s : List HMODULE × List Bool) (op : Op N) : List HMODULE × List Bool :=
  ((op.abstract s.1).2, s.2 ++ [(op.abstract s.1).1])

/-- Whatever is called in whatever order, and whether or not there is memory: the calls answer
like calls on a list without repetitions, the allocated objects are those on the list, and no
call touches a freed object or loops for ever. -/
theorem objects_are_listed {ops : List (Op N)} {s : Heap N × List Bool}
    (hrun : run step (start N, []) ops = some s) :
    ∃ nodes, Listed s.1 nodes ∧ (s.1.handles nodes, s.2) = ops.foldl abstractStep ([], []) ∧
      ∀ op : Op N, op.Fresh s.1 → ∃ r, op.call s.1 = some r := by
  have hkept : ∃ nodes, Listed s.1 nodes ∧
      (s.1.handles nodes, s.2) = ops.foldl abstractStep ([], []) := by
    refine run_induction (motive := fun ops s => ∃ nodes, Listed s.1 nodes ∧
      (s.1.handles nodes, s.2) = ops.foldl abstractStep ([], [])) ⟨[], listed_start, rfl⟩ ?_ hrun
    rintro ops u op v - ⟨nodes, hl, habstract⟩ hstep
    unfold step at hstep
    split at hstep
    · next hfresh =>
      obtain ⟨heap', nodes', hcall, hl', hhandles⟩ := op.call_spec hl hfresh
      rw [hcall] at hstep
      cases hstep
      refine ⟨nodes', hl', ?_⟩
      rw [List.foldl_append, ← habstract, List.foldl_cons, List.foldl_nil, abstractStep, hhandles]
    · cases hstep
  obtain ⟨nodes, hl, habstract⟩ := hkept
  refine ⟨nodes, hl, habstract, fun op hfresh => ?_⟩
  obtain ⟨heap', nodes', hcall, -⟩ := op.call_spec hl hfresh
  exact ⟨_, hcall⟩

/-- A handle is added twice, another cannot be added, and the block of the first is used again. -/
theorem objects_are_listed_again : ∃ s, run step (start Nat, [])
      [.add 7 (some 0), .add 7 (some 1), .add 9 none, .rem 7, .add 9 (some 0), .search 7] = some s ∧
    ∃ nodes, Listed s.1 nodes ∧ (s.1.handles nodes, s.2) =
      ([9], [true, true, false, true, true, false]) := by
  obtain ⟨s, hs⟩ : ∃ s, run step (start Nat, [])
      [.add 7 (some 0), .add 7 (some 1), .add 9 none, .rem 7, .add 9 (some 0), .search 7] = some s :=
    ⟨_, rfl⟩
  obtain ⟨nodes, hl, habstract, -⟩ := objects_are_listed hs
  exact ⟨s, hs, nodes, hl, habstract⟩

end Runs

end LocalObjects
