import Mathlib.Algebra.BigOperators.Group.Finset.Basic
import Mathlib.Algebra.Order.Group.Multiset
import Mathlib.Tactic.Abel
import KeyLeak.Lib.Workers

/-!
# A deque with thieves

An owner pushes and pops at the back, and thieves take from the front in two steps: a claim
takes the oldest element into the thief's hand, and a read hands it over. A claim may come
back empty-handed at any time. Events carry their results, so the machine specifies what an
implementation may answer.
-/
namespace StealDeque

open Runs

variable {ι α : Type}

structure Deque (ι α : Type) where
  contents : List α
  hand : ι → Option α

inductive Event (ι α : Type) where
  | push (value : α) (ok : Bool)
  /-- All but `rest` of the values have been pushed. -/
  | pushAll (values rest : List α)
  | pop (result : Option α)
  | claim (thief : ι) (found : Bool)
  | read (thief : ι) (result : Option α)
  deriving DecidableEq

def empty : Deque ι α := ⟨[], fun _ => none⟩

/-- The part of the values that `pushAll` has pushed. -/
def taken (values rest : List α) : List α := values.take (values.length - rest.length)

@[simp] theorem taken_append (values rest : List α) : taken (values ++ rest) rest = values := by
  simp [taken]

section Step

variable [DecidableEq ι] [DecidableEq α]

def step (d : Deque ι α) : Event ι α → Option (Deque ι α)
  | .push value true => some { d with contents := d.contents ++ [value] }
  | .push _ false => some d
  | .pushAll values rest =>
    if rest <:+ values then
      some { d with contents := d.contents ++ taken values rest }
    else
      none
  | .pop none => if d.contents = [] then some d else none
  | .pop (some value) =>
    if d.contents.getLast? = some value then
      some { d with contents := d.contents.dropLast }
    else
      none
  | .claim _ false => some d
  | .claim thief true =>
    match d.contents, d.hand thief with
    | value :: rest, none => some ⟨rest, Function.update d.hand thief (some value)⟩
    | _, _ => none
  | .read _ none => none
  | .read thief (some value) =>
    if d.hand thief = some value then
      some { d with hand := Function.update d.hand thief none }
    else
      none

/-- What an event brings in. -/
def entered : Event ι α → Multiset α
  | .push value true => {value}
  | .pushAll values rest => taken values rest
  | _ => 0

/-- What an event brings out. -/
def left : Event ι α → Multiset α
  | .pop result | .read _ result => result.toList
  | _ => 0

variable [Fintype ι]

/-- What is inside: in the deque or in a hand. -/
def inside (d : Deque ι α) : Multiset α := d.contents + ∑ i, ((d.hand i).toList : Multiset α)

theorem step_inside {d d' : Deque ι α} {e : Event ι α} (h : step d e = some d') :
    entered e + inside d = left e + inside d' := by
  cases e with
  | push value ok =>
    cases ok <;> cases h
    · rfl
    · simp only [entered, left, inside, ← Multiset.coe_add, Multiset.coe_singleton]
      abel
  | pushAll values rest =>
    simp only [step] at h
    split at h <;> cases h
    simp only [entered, left, inside, ← Multiset.coe_add]
    abel
  | pop result =>
    cases result with
    | none =>
      simp only [step] at h
      split at h <;> cases h
      simp [entered, left]
    | some value =>
      simp only [step] at h
      split at h <;> cases h
      next hlast =>
        have hsplit := List.dropLast_append_getLast? value hlast
        simp only [entered, left, inside, Option.toList, Multiset.coe_singleton]
        rw [← hsplit, ← Multiset.coe_add, List.dropLast_concat, Multiset.coe_singleton]
        abel
  | claim thief found =>
    cases found with
    | false =>
      cases h
      simp [entered, left]
    | true =>
      simp only [step] at h
      split at h <;> cases h
      next value rest hcontents hhand =>
        have hsum := Workers.sum_update (fun o => (o.toList : Multiset α)) d.hand thief (some value)
        simp only [hhand, Option.toList, Multiset.coe_nil, Multiset.coe_singleton, add_zero] at hsum
        simp only [entered, left, inside, hcontents, Option.toList, hsum, ← Multiset.cons_coe,
          ← Multiset.singleton_add]
        abel
  | read thief result =>
    cases result with
    | none => cases h
    | some value =>
      simp only [step] at h
      split at h <;> cases h
      next hhand =>
        have hsum := Workers.sum_update (fun o => (o.toList : Multiset α)) d.hand thief none
        simp only [hhand, Option.toList, Multiset.coe_nil, Multiset.coe_singleton, add_zero] at hsum
        simp only [entered, left, inside, Option.toList, ← hsum, Multiset.coe_singleton]
        abel

end Step

end StealDeque
