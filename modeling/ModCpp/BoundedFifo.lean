import ModCpp.Runs
import Mathlib.Data.List.Basic

/-!
# Bounded first-in first-out queues

The sequential object that a concurrent queue is to be compared with: what each of its calls did
to the contents, one call after another.
-/

namespace ModCpp.BoundedFifo
inductive Call (α : Type*)
  | push (val : α)
  | refused
  | pop (ans : α)
  | empty
  deriving DecidableEq

variable {α : Type*} {room : ℕ} {calls : List (Call α)} {contents : List α}

def Call.pushed : Call α → Option α
  | .push val => some val
  | .refused | .pop _ | .empty => none

def Call.popped : Call α → Option α
  | .pop ans => some ans
  | .push _ | .refused | .empty => none

inductive Step (room : ℕ) : List α → Call α → List α → Prop
  | push {contents : List α} {val : α} : contents.length < room →
      Step room contents (.push val) (contents ++ [val])
  | refused {contents : List α} : contents.length = room → Step room contents .refused contents
  | pop {contents : List α} {ans : α} : Step room (ans :: contents) (.pop ans) contents
  | empty : Step room [] .empty []

def system (α : Type*) (room : ℕ) : System (List α) (Call α) where
  init contents := contents = []
  step := Step room

theorem run_length_le (hr : (system α room).Run System.always calls contents) :
    contents.length ≤ room := by
  induction hr with
  | start hi =>
    cases hi
    exact Nat.zero_le room
  | step _ _ hs ih =>
    cases hs with
    | push hlt =>
      rw [List.length_append]
      exact hlt
    | refused _ => exact ih
    | pop => exact (Nat.le_succ _).trans ih
    | empty => exact ih

theorem run_fifo (hr : (system α room).Run System.always calls contents) :
    calls.filterMap Call.popped ++ contents = calls.filterMap Call.pushed := by
  induction hr with
  | start hi =>
    cases hi
    rfl
  | step _ _ hs ih =>
    rw [List.filterMap_append, List.filterMap_append]
    cases hs with
    | push _ => simp [← ih, Call.popped, Call.pushed]
    | refused _ => simpa [List.filterMap_cons, Call.popped, Call.pushed] using ih
    | pop => simp [← ih, Call.popped, Call.pushed]
    | empty => simpa [List.filterMap_cons, Call.popped, Call.pushed] using ih

end ModCpp.BoundedFifo
