import KeyLeak.LifoDeque
import KeyLeak.LifoOnce

/-!
# Whole operations are runs of accesses

When no access of another thread comes between its own, an operation is the one step of
`LifoQueue`, and its counters may wrap. So every run of whole operations is one of the accesses.
-/
namespace LifoSteps

open Runs
open LifoQueue (Block Queue)

variable {ι α : Type} {k : Nat}

/-- The state in which the ring is `q`, its counters wrapped, and the owner is at `owner`. -/
def State.whole (s : State ι α k) (q : Queue α) (owner : Owner α) : State ι α k :=
  { s with
    ownerBlock := UInt64.ofNat q.ownerBlock
    thiefBlock := UInt64.ofNat q.thiefBlock
    blocks := fun i => q.blocks i
    owner := owner }

section Ring

variable {q : Queue α} {s : State ι α k} {owner : Owner α}

theorem index_ofNat (hk : k < 63) (hq : q.size = size k) (c : Nat) :
    (index k (UInt64.ofNat c) : Nat) = q.index c := by
  rw [index_val hk, UInt64.toNat_ofNat', Nat.mod_mod_of_dvd _ (size_dvd hk),
    Queue.index_eq ⟨k + 1, hq⟩, hq]

theorem whole_block (hk : k < 63) (hq : q.size = size k) (c : Nat) :
    (s.whole q owner).block (UInt64.ofNat c) = q.block c :=
  congrArg q.blocks (index_ofNat hk hq c)

theorem whole_setBlock (c : UInt64) (b : Block α) :
    (s.whole q owner).setBlock c b =
      s.whole { q with blocks := Function.update q.blocks (index k c) b } owner := by
  have hblocks : Function.update (fun i : Fin (size k) => q.blocks i) (index k c) b =
      fun i : Fin (size k) => Function.update q.blocks (index k c) b i := by
    funext i
    by_cases hi : i = index k c
    · rw [hi, Function.update_self, Function.update_self]
    · rw [Function.update_of_ne hi, Function.update_of_ne fun h => hi (Fin.ext h)]
  simp only [State.setBlock, State.whole, hblocks]

theorem whole_setBlock_ofNat (hk : k < 63) (hq : q.size = size k) (c : Nat) (b : Block α) :
    (s.whole q owner).setBlock (UInt64.ofNat c) b = s.whole (q.setBlock c b) owner := by
  rw [whole_setBlock, index_ofNat hk hq]
  rfl

/-- Counters less than 2^64 apart stay apart when they wrap. -/
theorem ofNat_inj {a b : Nat} (hle : a ≤ b) (hlt : b < a + 2 ^ 64) :
    UInt64.ofNat a = UInt64.ofNat b ↔ a = b := by
  rw [UInt64.ofNat_eq_iff_mod_eq_toNat, UInt64.toNat_ofNat']
  omega

@[simp] theorem whole_owner : (s.whole q owner).owner = owner := rfl
@[simp] theorem whole_ownerBlock : (s.whole q owner).ownerBlock = UInt64.ofNat q.ownerBlock := rfl
@[simp] theorem whole_thiefBlock : (s.whole q owner).thiefBlock = UInt64.ofNat q.thiefBlock := rfl
@[simp] theorem whole_thief : (s.whole q owner).thief = s.thief := rfl

end Ring

section Reaches

variable [DecidableEq ι] {s s' s'' : State ι α k} {values : List α}

/-- A run that hands in `values`. -/
def Reaches (s : State ι α k) (values : List α) (s' : State ι α k) : Prop :=
  ∃ es, run step s es = some s' ∧ es.flatMap Event.values = values

theorem Reaches.refl : Reaches s [] s := ⟨[], rfl, rfl⟩

theorem Reaches.step {e : Event ι α} (he : step s e = some s') (h : Reaches s' values s'') :
    Reaches s (e.values ++ values) s'' := by
  obtain ⟨es, hes, hvalues⟩ := h
  refine ⟨e :: es, ?_, congrArg (e.values ++ ·) hvalues⟩
  rw [run_cons, he]
  exact hes

theorem Reaches.owner (he : ownerStep s = some s') (h : Reaches s' values s'') :
    Reaches s values s'' := .step (e := .owner) he h

theorem Reaches.thief {t : ι} (he : thiefStep s t = some s') (h : Reaches s' values s'') :
    Reaches s values s'' := .step (e := .thief t) he h

theorem Reaches.trans {values' : List α} (h : Reaches s values s') (h' : Reaches s' values' s'') :
    Reaches s (values ++ values') s'' := by
  obtain ⟨es, hes, rfl⟩ := h
  obtain ⟨fs, hfs, rfl⟩ := h'
  refine ⟨es ++ fs, ?_, List.flatMap_append⟩
  rw [run_append, hes]
  exact hfs

end Reaches

section Owner

variable {q q' : Queue α} {s : State ι α k} (hk : k < 63) (hq : q.size = size k)
include hk hq

theorem getting_found {value : Option α} {b : Block α}
    (hget : (q.block q.ownerBlock).get = (⟨.success, value⟩, b)) :
    ownerStep (s.whole q .getting) = some
      ({ s with taken := s.taken ++ [value] }.whole (q.setBlock q.ownerBlock b) .idle) := by
  simp only [ownerStep, whole_owner, whole_ownerBlock, whole_block hk hq,
    whole_setBlock_ofNat hk hq, hget]
  rfl

theorem getting_empty
    (hget : (q.block q.ownerBlock).get = (⟨.empty, none⟩, q.block q.ownerBlock)) :
    ownerStep (s.whole q .getting) = some (s.whole q .takingOver) := by
  simp only [ownerStep, whole_owner, whole_ownerBlock, whole_block hk hq,
    whole_setBlock_ofNat hk hq, hget, Queue.setBlock_self]
  rfl

omit hk hq in
theorem ofNat_pred (hpos : 1 ≤ q.ownerBlock) :
    UInt64.ofNat q.ownerBlock - 1 = UInt64.ofNat (q.ownerBlock - 1) :=
  (UInt64.ofNat_sub hpos).symm

omit hk in
theorem adopting_turn [DecidableEq ι] (hordered : q.thiefBlock < q.ownerBlock)
    (hthief : q.thiefBlock = q.ownerBlock - 1) :
    Reaches (s.whole q .adopting) [] (s.whole { q with
      ownerBlock := q.ownerBlock - 1 + q.size, thiefBlock := q.thiefBlock + (q.size - 1) }
      .getting) := by
  have hpred := ofNat_pred (Nat.one_le_of_lt hordered)
  have hpos : 1 ≤ q.size := Nat.le_add_left 1 q.mask
  have hturn : UInt64.ofNat q.thiefBlock + (UInt64.ofNat (size k) - 1) =
      UInt64.ofNat (q.thiefBlock + (q.size - 1)) := by
    rw [UInt64.ofNat_add, UInt64.ofNat_sub hpos, hq]
    rfl
  have hload : ownerStep (s.whole q .adopting) = some
      (s.whole q (.shifting (UInt64.ofNat (q.thiefBlock + (q.size - 1))))) := by
    simp only [ownerStep, whole_owner, whole_ownerBlock, whole_thiefBlock, hpred,
      if_pos (congrArg UInt64.ofNat hthief), hturn]
    rfl
  refine .owner hload (.owner ?_ .refl)
  simp only [ownerStep, whole_owner, whole_ownerBlock, hpred, ← hq, ← UInt64.ofNat_add]
  rfl

/-- The counters are less than one turn apart, so they differ when they are wrapped, too. -/
theorem adopting_back [DecidableEq ι] (hordered : q.thiefBlock < q.ownerBlock)
    (hwindow : q.ownerBlock < q.thiefBlock + q.size) (hthief : q.thiefBlock ≠ q.ownerBlock - 1) :
    Reaches (s.whole q .adopting) []
      (s.whole { q with ownerBlock := q.ownerBlock - 1 } .getting) := by
  have hpow : size k ≤ 2 ^ 63 := Nat.pow_le_pow_right (by omega) (by omega)
  have hpred := ofNat_pred (Nat.one_le_of_lt hordered)
  have hne : UInt64.ofNat q.thiefBlock ≠ UInt64.ofNat (q.ownerBlock - 1) := fun heq =>
    hthief ((ofNat_inj (by omega) (by omega)).mp heq)
  refine .owner ?_ .refl
  simp only [ownerStep, whole_owner, whole_ownerBlock, whole_thiefBlock, hpred, if_neg hne]
  rfl

theorem advanceGetIndex_reaches [DecidableEq ι] (hwf : q.Wf) :
    q.advanceGetIndex.2.size = size k ∧ Reaches (s.whole q .takingOver) []
      (s.whole q.advanceGetIndex.2 (if q.advanceGetIndex.1 then .getting else .idle)) := by
  have hpred := ofNat_pred (Nat.one_le_of_lt hwf.ordered)
  have htake : ownerStep (s.whole q .takingOver) = some
      (s.whole (q.setBlock (q.ownerBlock - 1) (q.block (q.ownerBlock - 1)).takeover.2)
        (if (q.block (q.ownerBlock - 1)).takeover.1.front ≠
          (q.block (q.ownerBlock - 1)).takeover.1.back then .adopting else .idle)) := by
    simp only [ownerStep, whole_owner, whole_ownerBlock, hpred, whole_block hk hq,
      whole_setBlock_ofNat hk hq]
    rfl
  by_cases hne : (q.block (q.ownerBlock - 1)).takeover.1.front ≠
      (q.block (q.ownerBlock - 1)).takeover.1.back
  · rw [if_pos hne] at htake
    simp only [Queue.advanceGetIndex, if_pos hne]
    split
    next hthief =>
      exact ⟨hq, .owner htake (adopting_turn (q := q.setBlock _ _) hq hwf.ordered hthief)⟩
    next hthief =>
      exact ⟨hq, .owner htake
        (adopting_back (q := q.setBlock _ _) hk hq hwf.ordered hwf.window hthief)⟩
  · rw [if_neg hne] at htake
    simp only [Queue.advanceGetIndex, if_neg hne]
    exact ⟨hq, .owner htake .refl⟩

/-- What is found goes to `taken`, and a null answer does not. -/
theorem popBackLoop_reaches [DecidableEq ι] {rounds : Nat} {result : Option α} (hwf : q.Wf)
    (h : Queue.popBackLoop rounds q = some (result, q')) :
    q'.size = size k ∧ ∃ found, found.filterMap id = result.toList ∧
      Reaches (s.whole q .getting) [] ({ s with taken := s.taken ++ found }.whole q' .idle) := by
  induction rounds generalizing q with
  | zero => cases h
  | succ rounds ih =>
    by_cases hempty : (q.block q.ownerBlock).head = (q.block q.ownerBlock).tail
    · have hget := hwf.owned.get_empty hempty
      have hstep := getting_empty (s := s) hk hq hget
      obtain ⟨hsize, hadv⟩ := advanceGetIndex_reaches (s := s) hk hq hwf
      have hspec := hwf.advanceGetIndex hempty
      simp only [Queue.popBackLoop, hget, Queue.setBlock_self] at h
      generalize q.advanceGetIndex = r at h hsize hadv hspec
      cases hspec with
      | advanced hwf' =>
        obtain ⟨hsize', found, hfound, hrest⟩ := ih hsize hwf' h
        exact ⟨hsize', found, hfound, .owner hstep (hadv.trans hrest)⟩
      | empty =>
        cases h
        refine ⟨hq, [], rfl, .owner hstep ?_⟩
        rw [List.append_nil]
        exact hadv
    · obtain ⟨hget, -⟩ := hwf.owned.get hempty
      simp only [Queue.popBackLoop, hget] at h
      cases h
      refine ⟨hq, [_], ?_, .owner (getting_found hk hq hget) .refl⟩
      cases (q.block q.ownerBlock).ringBuffer ((q.block q.ownerBlock).tail - 1) <;> rfl

omit hk hq in
theorem setBlock_setBlock (c : Nat) (b b' : Block α) :
    (q.setBlock c b).setBlock c b' = q.setBlock c b' := by
  simp only [Queue.setBlock, Queue.index, Function.update_idem]

theorem clearingTail_step {values : List α} :
    ownerStep (s.whole q (.clearingTail values)) = some (s.whole
      (q.setBlock q.ownerBlock { q.block q.ownerBlock with head := 0, tail := 0 })
      (.clearingStealTail values)) := by
  simp only [ownerStep, whole_owner, whole_ownerBlock, whole_block hk hq,
    whole_setBlock_ofNat hk hq]
  rfl

theorem clearingStealTail_step {values : List α} :
    ownerStep (s.whole q (.clearingStealTail values)) = some (s.whole
      (q.setBlock q.ownerBlock
        { q.block q.ownerBlock with stealTail := (q.block q.ownerBlock).blockSize })
      (.clearingStealHead values)) := by
  simp only [ownerStep, whole_owner, whole_ownerBlock, whole_block hk hq,
    whole_setBlock_ofNat hk hq]
  rfl

theorem clearingStealHead_step {values : List α} :
    ownerStep (s.whole q (.clearingStealHead values)) = some (s.whole
      (q.setBlock q.ownerBlock { q.block q.ownerBlock with stealHead := 0 })
      (.putting values)) := by
  simp only [ownerStep, whole_owner, whole_ownerBlock, whole_block hk hq,
    whole_setBlock_ofNat hk hq]
  rfl

theorem reclaim_reaches [DecidableEq ι] (values : List α) {b : Block α}
    (h : (q.block q.ownerBlock).reclaim = some b) :
    Reaches (s.whole q (.reclaiming values)) []
      (s.whole (q.setBlock q.ownerBlock b) (.putting values)) := by
  rw [Block.reclaim] at h
  split at h <;> cases h
  next hread =>
    have hload : ownerStep (s.whole q (.reclaiming values)) = some
        (s.whole q (.clearingTail values)) := by
      simp only [ownerStep, whole_owner, whole_ownerBlock, whole_block hk hq, if_pos hread]
      rfl
    refine .owner hload (.owner (clearingTail_step hk hq)
      (.owner (clearingStealTail_step (q := q.setBlock _ _) hk hq)
        (.owner (clearingStealHead_step (q := (q.setBlock _ _).setBlock _ _) hk hq) ?_)))
    simp only [Queue.setBlock_ownerBlock, Queue.setBlock_block, setBlock_setBlock]
    exact .refl

theorem granting_step {values : List α} :
    ownerStep (s.whole q (.granting values)) = some (s.whole
      { q.setBlock q.ownerBlock (q.block q.ownerBlock).grant with
        ownerBlock := q.ownerBlock + 1 } (.reclaiming values)) := by
  simp only [ownerStep, whole_owner, whole_ownerBlock, whole_block hk hq,
    whole_setBlock_ofNat hk hq]
  simp only [State.whole, UInt64.ofNat_add]
  rfl

/-- The owner is less than one turn ahead of the thieves, so the test on the wrapped counters is
that on the counters. -/
theorem full_iff (hordered : q.thiefBlock < q.ownerBlock)
    (hwindow : q.ownerBlock < q.thiefBlock + q.size) :
    UInt64.ofNat (size k) ≤ UInt64.ofNat q.ownerBlock + 1 - UInt64.ofNat q.thiefBlock ↔
      q.size ≤ q.ownerBlock + 1 - q.thiefBlock := by
  have hpow : size k ≤ 2 ^ 63 := Nat.pow_le_pow_right (by omega) (by omega)
  have hle : q.thiefBlock ≤ q.ownerBlock + 1 := by omega
  have hcount : UInt64.ofNat q.ownerBlock + 1 - UInt64.ofNat q.thiefBlock =
      UInt64.ofNat (q.ownerBlock + 1 - q.thiefBlock) := by
    rw [UInt64.ofNat_sub hle, UInt64.ofNat_add]
    rfl
  rw [hcount, UInt64.le_iff_toNat_le, size_toNat hk, hq, UInt64.toNat_ofNat_of_lt']
  change _ < 2 ^ 64
  omega

/-- When no block is free, what is left of the values is refused. -/
theorem advancePutIndex_reaches [DecidableEq ι] (values : List α) {more : Bool} (hwf : q.Wf)
    (h : q.advancePutIndex = some (more, q')) :
    q'.size = size k ∧ Reaches (s.whole q (.advancing values)) []
      (if more then s.whole q' (.putting values) else
        { s with refused := s.refused ++ values }.whole q' .idle) := by
  have hfull := full_iff hk hq hwf.ordered hwf.window
  have hnext : UInt64.ofNat q.ownerBlock + 1 = UInt64.ofNat (q.ownerBlock + 1) :=
    (UInt64.ofNat_add _ _).symm
  simp only [Queue.advancePutIndex] at h
  split at h
  next hring =>
    cases h
    refine ⟨hq, .owner ?_ .refl⟩
    simp only [ownerStep, whole_owner]
    exact if_pos (hfull.mpr hring)
  next hring =>
    have hload : ownerStep (s.whole q (.advancing values)) = some
        (s.whole q (.checking values)) := by
      simp only [ownerStep, whole_owner]
      exact if_neg fun h => hring (hfull.mp h)
    split at h
    next hclosed =>
      cases h
      refine ⟨hq, .owner hload (.owner ?_ .refl)⟩
      rw [Bool.not_eq_true'] at hclosed
      simp only [ownerStep, whole_owner, whole_ownerBlock, hnext, whole_block hk hq, hclosed]
      rfl
    next hopen =>
      rw [Bool.not_eq_true', Bool.not_eq_false] at hopen
      have hcheck : ownerStep (s.whole q (.checking values)) = some
          (s.whole q (.granting values)) := by
        simp only [ownerStep, whole_owner, whole_ownerBlock, hnext, whole_block hk hq, hopen]
        rfl
      obtain ⟨b, hreclaim, h⟩ := Option.map_eq_some_iff.mp h
      cases h
      have hclear := reclaim_reaches (s := s) hk
        (q := { q.setBlock q.ownerBlock (q.block q.ownerBlock).grant with
          ownerBlock := q.ownerBlock + 1 }) hq values hreclaim
      exact ⟨hq, .owner hload (.owner hcheck (.owner (granting_step hk hq) hclear))⟩

theorem pushAllLoop_reaches [DecidableEq ι] {rounds : Nat} {values rest : List α} (hwf : q.Wf)
    (h : Queue.pushAllLoop rounds q values = some (rest, q')) :
    q'.size = size k ∧ Reaches (s.whole q (.putting values)) []
      ({ s with refused := s.refused ++ rest }.whole q' .idle) := by
  induction rounds generalizing q values with
  | zero => cases h
  | succ rounds ih =>
    obtain ⟨howned, -, -, -, -, hfull⟩ := hwf.owned.bulkPut values
    have hput : ownerStep (s.whole q (.putting values)) = some (s.whole
        (q.setBlock q.ownerBlock ((q.block q.ownerBlock).bulkPut values).2)
        (if ((q.block q.ownerBlock).bulkPut values).1.isEmpty then .idle else
          .advancing ((q.block q.ownerBlock).bulkPut values).1)) := by
      simp only [ownerStep, whole_owner, whole_ownerBlock, whole_block hk hq,
        whole_setBlock_ofNat hk hq]
      rfl
    simp only [Queue.pushAllLoop] at h
    generalize (q.block q.ownerBlock).bulkPut values = r at h hput howned hfull
    obtain ⟨left, b⟩ := r
    obtain ⟨hwf', -⟩ := hwf.setOwned howned (Nat.zero_lt_of_lt howned.room)
    cases left with
    | nil =>
      cases h
      refine ⟨hq, .owner hput ?_⟩
      rw [List.append_nil]
      exact .refl
    | cons value left =>
      have htail : ((q.setBlock q.ownerBlock b).block (q.setBlock q.ownerBlock b).ownerBlock).tail =
          ((q.setBlock q.ownerBlock b).block (q.setBlock q.ownerBlock b).ownerBlock).blockSize := by
        rw [Queue.setBlock_ownerBlock, Queue.setBlock_block]
        exact hfull (List.cons_ne_nil _ _)
      have hspec := hwf'.advancePutIndex htail
      obtain ⟨⟨more, q''⟩, hadv, h⟩ := Option.bind_eq_some_iff.mp h
      obtain ⟨hsize, hreach⟩ := advancePutIndex_reaches (s := s) hk
        (q := q.setBlock q.ownerBlock b) hq (value :: left) hwf' hadv
      rw [hadv] at hspec
      cases hspec with
      | advanced hwf'' =>
        obtain ⟨hsize', hrest⟩ := ih hsize hwf'' h
        exact ⟨hsize', .owner hput (hreach.trans hrest)⟩
      | closed =>
        cases h
        exact ⟨hsize, .owner hput hreach⟩

omit hk hq in
/-- A push of one value is that of a range of one. -/
theorem pushBackLoop_pushAllLoop {rounds : Nat} {value : α} {ok : Bool}
    (h : Queue.pushBackLoop rounds q value = some (ok, q')) :
    Queue.pushAllLoop rounds q [value] = some (if ok then [] else [value], q') := by
  induction rounds generalizing q with
  | zero => cases h
  | succ rounds ih =>
    by_cases ht : (q.block q.ownerBlock).tail < (q.block q.ownerBlock).blockSize
    · have hput : (q.block q.ownerBlock).put value =
          (.success, (q.block q.ownerBlock).putAt value) := if_pos ht
      have hbulk : (q.block q.ownerBlock).bulkPut [value] =
          ([], (q.block q.ownerBlock).putAt value) := if_pos ht
      simp only [Queue.pushBackLoop, hput] at h
      cases h
      simp [Queue.pushAllLoop, hbulk]
    · have hput : (q.block q.ownerBlock).put value = (.full, q.block q.ownerBlock) := if_neg ht
      have hbulk : (q.block q.ownerBlock).bulkPut [value] =
          ([value], q.block q.ownerBlock) := if_neg ht
      simp only [Queue.pushBackLoop, hput] at h
      obtain ⟨⟨more, q''⟩, hadv, h⟩ := Option.bind_eq_some_iff.mp h
      simp only [Queue.pushAllLoop, hbulk, List.isEmpty_cons, Bool.false_eq_true, if_false, hadv,
        Option.bind_some]
      cases more with
      | true => exact ih h
      | false =>
        cases h
        rfl

end Owner

/-- A thief that has claimed a slot is about to read it, and one that has not is idle. -/
def Carries (k : Nat) : Option (Nat × Nat) → Thief α → Prop
  | none, phase => phase = .idle
  | some slot, phase => ∃ thief, (index k thief : Nat) = slot.1 ∧ phase = .reading thief slot.2

section Thieves

variable [DecidableEq ι] {q q' : Queue α} {s : State ι α k} {t : ι} {owner : Owner α}
variable {phase phase' : Thief α}

@[simp] theorem whole_goto_thief : ((s.goto t phase).whole q owner).thief t = phase :=
  Function.update_self _ _ _

@[simp] theorem whole_goto_goto :
    ((s.goto t phase).whole q owner).goto t phase' = (s.goto t phase').whole q owner := by
  simp only [State.goto, State.whole, Function.update_idem]

variable (hk : k < 63) (hq : q.size = size k)
include hk hq

/-- Going on to the next block if it has been granted. -/
theorem advanceStealIndex_reaches {more : Bool}
    (h : q.advanceStealIndex q.thiefBlock = (more, q')) :
    q'.size = size k ∧
      Reaches ((s.goto t (.looking (UInt64.ofNat q.thiefBlock))).whole q owner) []
        ((s.goto t (if more then .loading else .idle)).whole q' owner) := by
  have hnext : UInt64.ofNat q.thiefBlock + 1 = UInt64.ofNat (q.thiefBlock + 1) :=
    (UInt64.ofNat_add _ _).symm
  rw [Queue.advanceStealIndex] at h
  split at h
  next hopen =>
    cases h
    have hlook : thiefStep ((s.goto t (.looking (UInt64.ofNat q.thiefBlock))).whole q owner) t =
        some ((s.goto t (.moving (UInt64.ofNat q.thiefBlock))).whole q owner) := by
      simp only [thiefStep, whole_goto_thief, whole_goto_goto, hnext, whole_block hk hq, hopen,
        if_true]
    refine ⟨hq, .thief hlook (.thief (t := t) ?_ .refl)⟩
    simp only [thiefStep, whole_goto_thief, whole_thiefBlock, if_true, hnext]
    simp only [State.goto, State.whole, Function.update_idem]
  next hclosed =>
    cases h
    have hlook : thiefStep ((s.goto t (.looking (UInt64.ofNat q.thiefBlock))).whole q owner) t =
        some ((s.goto t (.reloading (UInt64.ofNat q.thiefBlock))).whole q owner) := by
      simp only [thiefStep, whole_goto_thief, whole_goto_goto, hnext, whole_block hk hq, hclosed,
        Bool.false_eq_true, if_false]
    refine ⟨hq, .thief hlook (.thief (t := t) ?_ .refl)⟩
    simp only [thiefStep, whole_goto_thief, whole_goto_goto, whole_thiefBlock, ne_eq,
      not_true_eq_false, if_false, Bool.false_eq_true]

theorem stealFrontLoop_reaches (owner : Owner α) {rounds : Nat} {slot : Option (Nat × Nat)}
    (h : Queue.stealFrontLoop rounds q = some (slot, q')) :
    q'.size = size k ∧ ∃ phase, Carries k slot phase ∧
      Reaches ((s.goto t .loading).whole q owner) [] ((s.goto t phase).whole q' owner) := by
  induction rounds generalizing q with
  | zero => cases h
  | succ rounds ih =>
    have hload : thiefStep ((s.goto t .loading).whole q owner) t = some
        ((s.goto t (.stealing (UInt64.ofNat q.thiefBlock))).whole q owner) := by
      simp only [thiefStep, whole_goto_thief, whole_goto_goto, whole_thiefBlock]
    have hspos : thiefStep ((s.goto t (.stealing (UInt64.ofNat q.thiefBlock))).whole q owner) t =
        some ((s.goto t (if (q.block q.thiefBlock).stealTail = (q.block q.thiefBlock).blockSize
          then .looking (UInt64.ofNat q.thiefBlock)
          else .checking (UInt64.ofNat q.thiefBlock) (q.block q.thiefBlock).stealTail)).whole
            q owner) := by
      simp only [thiefStep, whole_goto_thief, whole_goto_goto, whole_block hk hq]
    by_cases hdone : (q.block q.thiefBlock).stealTail = (q.block q.thiefBlock).blockSize
    · have hclaim : (q.block q.thiefBlock).claim =
          (.done, (q.block q.thiefBlock).stealTail, q.block q.thiefBlock) := if_pos hdone
      rw [if_pos hdone] at hspos
      simp only [Queue.stealFrontLoop, hclaim, Queue.setBlock_self] at h
      cases hadv : q.advanceStealIndex q.thiefBlock with
      | mk more q'' =>
        obtain ⟨hsize, hreach⟩ := advanceStealIndex_reaches (s := s) (t := t) hk hq hadv
        rw [hadv] at h
        cases more with
        | true =>
          obtain ⟨hsize', phase, hphase, hrest⟩ := ih hsize h
          exact ⟨hsize', phase, hphase, .thief hload (.thief hspos (hreach.trans hrest))⟩
        | false =>
          cases h
          exact ⟨hsize, .idle, rfl, .thief hload (.thief hspos hreach)⟩
    · rw [if_neg hdone] at hspos
      have hback : thiefStep ((s.goto t (.checking (UInt64.ofNat q.thiefBlock)
          (q.block q.thiefBlock).stealTail)).whole q owner) t =
          some ((s.goto t (if (q.block q.thiefBlock).stealTail = (q.block q.thiefBlock).tail then
            .idle else .claiming (UInt64.ofNat q.thiefBlock)
              (q.block q.thiefBlock).stealTail)).whole q owner) := by
        simp only [thiefStep, whole_goto_thief, whole_goto_goto, whole_block hk hq]
      by_cases hempty : (q.block q.thiefBlock).stealTail = (q.block q.thiefBlock).tail
      · have hclaim : (q.block q.thiefBlock).claim =
            (.empty, (q.block q.thiefBlock).stealTail, q.block q.thiefBlock) :=
          (if_neg hdone).trans (if_pos hempty)
        rw [if_pos hempty] at hback
        simp only [Queue.stealFrontLoop, hclaim, Queue.setBlock_self] at h
        cases h
        exact ⟨hq, .idle, rfl, .thief hload (.thief hspos (.thief hback .refl))⟩
      · have hclaim : (q.block q.thiefBlock).claim = (.success,
            (q.block q.thiefBlock).stealTail, (q.block q.thiefBlock).claimFront) :=
          (if_neg hdone).trans (if_neg hempty)
        rw [if_neg hempty] at hback
        simp only [Queue.stealFrontLoop, hclaim] at h
        cases h
        refine ⟨hq, _, ⟨UInt64.ofNat q.thiefBlock, index_ofNat hk hq _, rfl⟩,
          .thief hload (.thief hspos (.thief hback (.thief (t := t) ?_ .refl)))⟩
        simp only [thiefStep, whole_goto_thief, whole_block hk hq, if_true,
          whole_setBlock_ofNat hk hq, whole_goto_goto]

omit hk in
/-- What is read goes to `taken`. -/
theorem readSlot_reaches (owner : Owner α) {slot : Nat × Nat}
    (hphase : Carries k (some slot) phase) :
    (q.readSlot slot).2.size = size k ∧ Reaches ((s.goto t phase).whole q owner) []
      ({ s.goto t .idle with taken := s.taken ++ [(q.readSlot slot).1] }.whole
        (q.readSlot slot).2 owner) := by
  obtain ⟨thief, hindex, rfl⟩ := hphase
  have hblock : ∀ u : State ι α k, (u.whole q owner).block thief = q.blocks slot.1 :=
    fun u => congrArg q.blocks hindex
  have hread : thiefStep ((s.goto t (.reading thief slot.2)).whole q owner) t = some
      ((s.goto t (.counting thief (q.readSlot slot).1)).whole q owner) := by
    simp only [thiefStep, whole_goto_thief, whole_goto_goto, hblock]
    rfl
  refine ⟨hq, .thief hread (.thief (t := t) ?_ .refl)⟩
  simp only [thiefStep, whole_goto_thief, hblock, whole_setBlock, hindex]
  simp only [State.goto, State.whole, Function.update_idem]
  rfl

end Thieves

/-- What an operation hands in. -/
def handed : StealDeque.Event ι α → List α
  | .push value _ => [value]
  | .pushAll values _ => values
  | _ => []

def found : StealDeque.Event ι α → List α
  | .pop result | .read _ result => result.toList
  | _ => []

def returned : StealDeque.Event ι α → List α
  | .push value false => [value]
  | .pushAll _ rest => rest
  | _ => []

theorem map_some_filterMap {values : List (Option α)} (h : none ∉ values) :
    (values.filterMap id).map some = values := by
  induction values with
  | nil => rfl
  | cons value values ih =>
    rw [List.mem_cons, not_or] at h
    cases value with
    | none => exact absurd rfl h.1
    | some value => exact congrArg (some value :: ·) (ih h.2)

/-- The ring is the queue's, the owner is idle and the thieves have what they have claimed. -/
structure Whole (u : LifoQueue.State ι α) (s : State ι α k) : Prop where
  size : u.queue.size = size k
  ring : s.whole u.queue .idle = s
  hands : ∀ t, Carries k (u.hand t) (s.thief t)

section Whole

variable {u u' : LifoQueue.State ι α} {s : State ι α k}

theorem Whole.owner (hw : Whole u s) : s.owner = .idle := by
  rw [← hw.ring]
  rfl

theorem Whole.begin (hw : Whole u s) (owner : Owner α) :
    { s with owner := owner } = s.whole u.queue owner :=
  congrArg (fun v : State ι α k => { v with owner := owner }) hw.ring.symm

theorem start_whole {numBlocks n : Nat} (hsize : max 2 numBlocks.nextPowerOfTwo = size k) :
    Whole (LifoQueue.start numBlocks n : LifoQueue.State ι α) (start ι α k n) where
  size := by
    rw [← hsize]
    exact Nat.sub_add_cancel (by omega)
  ring := rfl
  hands _ := rfl

variable [DecidableEq ι]

theorem Whole.goto (hw : Whole u s) (t : ι) (phase : Thief α) :
    s.goto t phase = (s.goto t phase).whole u.queue .idle :=
  congrArg (fun v => State.goto v t phase) hw.ring.symm

theorem Whole.pushAll (hk : k < 63) (hw : Whole u s) (hwf : u.queue.Wf) {rounds : Nat}
    {values rest : List α} {q : Queue α}
    (h : Queue.pushAllLoop rounds u.queue values = some (rest, q)) :
    ∃ s', Reaches s values s' ∧ Whole { u with queue := q } s' ∧ s'.taken = s.taken ∧
      s'.refused = s.refused ++ rest := by
  obtain ⟨hsize, hreach⟩ := pushAllLoop_reaches (s := s) hk hw.size hwf h
  have hbegin : step s (.pushBack values) = some (s.whole u.queue (.putting values)) := by
    simp only [step, hw.owner, hw.begin]
  have hrun := Reaches.step hbegin hreach
  rw [List.append_nil] at hrun
  exact ⟨_, hrun, ⟨hsize, rfl, hw.hands⟩, rfl, rfl⟩

theorem Whole.hands_update (hw : Whole u s) (t : ι) {slot : Option (Nat × Nat)}
    {phase : Thief α} (hphase : Carries k slot phase) (v : ι) :
    Carries k (Function.update u.hand t slot v) (Function.update s.thief t phase v) := by
  by_cases hv : v = t
  · rw [hv, Function.update_self, Function.update_self]
    exact hphase
  · rw [Function.update_of_ne hv, Function.update_of_ne hv]
    exact hw.hands v

variable [DecidableEq α]

/-- Each whole operation is a run of accesses with the same results. -/
theorem step_reaches (hk : k < 63) (hw : Whole u s) (hwf : u.queue.Wf) {e : StealDeque.Event ι α}
    (h : LifoQueue.step u e = some u') :
    ∃ s', Reaches s (handed e) s' ∧ Whole u' s' ∧
      s'.taken.filterMap id = s.taken.filterMap id ++ found e ∧
      s'.refused = s.refused ++ returned e := by
  cases e with
  | push value ok =>
    simp only [LifoQueue.step] at h
    split at h
    next ok' q hq =>
      split at h <;> cases h
      next hok =>
        obtain ⟨s', hreach, hw', htaken, hrefused⟩ :=
          hw.pushAll hk hwf (pushBackLoop_pushAllLoop hq)
        refine ⟨s', hreach, hw', ?_, ?_⟩
        · rw [htaken]
          exact (List.append_nil _).symm
        · rw [hrefused, ← hok]
          cases ok' <;> rfl
    next => cases h
  | pushAll values rest =>
    simp only [LifoQueue.step] at h
    split at h
    next rest' q hq =>
      split at h <;> cases h
      next hrest =>
        obtain ⟨s', hreach, hw', htaken, hrefused⟩ := hw.pushAll hk hwf hq
        refine ⟨s', hreach, hw', ?_, ?_⟩
        · rw [htaken]
          exact (List.append_nil _).symm
        · rw [hrefused, ← hrest]
          rfl
    next => cases h
  | pop result =>
    simp only [LifoQueue.step] at h
    split at h
    next result' q hq =>
      split at h <;> cases h
      next hresult =>
        obtain ⟨hsize, values, hfound, hreach⟩ := popBackLoop_reaches (s := s) hk hw.size hwf hq
        have hbegin : step s .popBack = some (s.whole u.queue .getting) := by
          simp only [step, hw.owner, hw.begin]
        refine ⟨_, .step hbegin hreach, ⟨hsize, rfl, hw.hands⟩, ?_, ?_⟩
        · change (s.taken ++ values).filterMap id = _
          rw [List.filterMap_append, hfound, hresult]
          rfl
        · exact (List.append_nil _).symm
    next => cases h
  | claim t claimed =>
    simp only [LifoQueue.step] at h
    split at h
    next slot q hhand hq =>
      split at h <;> cases h
      have hidle := hw.hands t
      rw [hhand] at hidle
      obtain ⟨hsize, phase, hphase, hreach⟩ :=
        stealFrontLoop_reaches (s := s) (t := t) hk hw.size .idle hq
      have hbegin : step s (.stealFront t) = some ((s.goto t .loading).whole u.queue .idle) := by
        rw [← hw.goto]
        simp only [step, show s.thief t = .idle from hidle]
      exact ⟨_, .step hbegin hreach, ⟨hsize, rfl, hw.hands_update t hphase⟩,
        (List.append_nil _).symm, (List.append_nil _).symm⟩
    next => cases h
  | read t result =>
    simp only [LifoQueue.step] at h
    split at h
    next slot hhand =>
      split at h <;> cases h
      next hresult =>
        have hphase := hw.hands t
        rw [hhand] at hphase
        obtain ⟨hsize, hreach⟩ :=
          readSlot_reaches (s := s) (t := t) hw.size .idle hphase
        rw [← hw.goto, State.goto, Function.update_eq_self] at hreach
        refine ⟨_, hreach, ⟨hsize, rfl, hw.hands_update t rfl⟩, ?_, (List.append_nil _).symm⟩
        change (s.taken ++ [(u.queue.readSlot slot).1]).filterMap id = _
        rw [List.filterMap_append, hresult]
        cases result <;> rfl
    next => cases h

variable [Fintype ι] {numBlocks n : Nat} {es : List (StealDeque.Event ι α)}

/-- What a run of whole operations has found, in a run of the accesses. -/
theorem run_reaches (hk : k < 63) (hn : 0 < n) (hsize : max 2 numBlocks.nextPowerOfTwo = size k)
    (h : run LifoQueue.step (LifoQueue.start numBlocks n) es = some u) :
    ∃ s, Reaches (start ι α k n) (es.flatMap handed) s ∧ Whole u s ∧
      s.taken.filterMap id = es.flatMap found ∧ s.refused = es.flatMap returned := by
  refine run_induction (motive := fun es u => ∃ s : State ι α k,
    Reaches (start ι α k n) (es.flatMap handed) s ∧ Whole u s ∧
      s.taken.filterMap id = es.flatMap found ∧ s.refused = es.flatMap returned)
    ⟨_, .refl, start_whole hsize, rfl, rfl⟩ ?_ h
  rintro es u e u' hrun ⟨s, hreach, hw, htaken, hrefused⟩ hstep
  obtain ⟨d, -, hrep⟩ := LifoQueue.run_represents hn hrun
  obtain ⟨s', hreach', hw', htaken', hrefused'⟩ := step_reaches hk hw hrep.wf hstep
  refine ⟨s', ?_, hw', ?_, ?_⟩
  · rw [List.flatMap_append, List.flatMap_singleton]
    exact hreach.trans hreach'
  · rw [htaken', htaken, List.flatMap_append, List.flatMap_singleton]
  · rw [hrefused', hrefused, List.flatMap_append, List.flatMap_singleton]

/-- Every run of whole operations, in whatever order they come, is a run of the accesses in which
each operation is made without interruption: the same values go in, and what is found and what is
refused is the same. -/
theorem operations_are_accesses (hk : k < 63) (hn : 0 < n)
    (hsize : max 2 numBlocks.nextPowerOfTwo = size k)
    (h : run LifoQueue.step (LifoQueue.start numBlocks n) es = some u) :
    ∃ fs s, run step (start ι α k n) fs = some s ∧ Whole u s ∧
      fs.flatMap Event.values = es.flatMap handed ∧ s.taken = (es.flatMap found).map some ∧
      s.refused = es.flatMap returned := by
  obtain ⟨s, ⟨fs, hfs, hvalues⟩, hw, htaken, hrefused⟩ := run_reaches hk hn hsize h
  refine ⟨fs, s, hfs, hw, hvalues, ?_, hrefused⟩
  rw [← htaken, map_some_filterMap (none_notMem_taken hk hn hfs)]

end Whole

theorem operations_are_accesses_four : ∃ fs s, run step (start (Fin 2) Nat 1 1) fs = some s ∧
    s.taken = [some 3, some 1] ∧ s.refused = [4] := by
  have hsize : max 2 (Nat.nextPowerOfTwo 4) = size 1 := by decide +kernel
  have hsome : (run LifoQueue.step (LifoQueue.start 4 1 : LifoQueue.State (Fin 2) Nat)
      [.push 1 true, .push 2 true, .push 3 true, .push 4 false, .claim 0 true, .pop (some 3),
        .read 0 (some 1)]).isSome = true := by
    rw [LifoQueue.start_four]
    decide +kernel
  obtain ⟨u, hu⟩ := Option.isSome_iff_exists.mp hsome
  obtain ⟨fs, s, hfs, -, -, htaken, hrefused⟩ :=
    operations_are_accesses (by decide) Nat.one_pos hsize hu
  exact ⟨fs, s, hfs, htaken, hrefused⟩

end LifoSteps
