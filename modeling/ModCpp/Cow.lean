import Mathlib.Data.Finset.Basic
import Mathlib.Logic.Function.Basic
import ModCpp.MachineWord
import ModCpp.Runs

/-!
# `COW` (`cow.cc`)

A handle points to a `Data` block, which holds a vector and counts its handles. The state holds
the living handles, the blocks that exist, and a log of the blocks that were deleted.
-/

namespace ModCpp.Cow

structure Data where
  vec : List ℤ
  refcnt : ℤ
  deriving DecidableEq

structure State (σ ι : Type) where
  living : Finset σ
  data : σ → Option ι
  heap : ι → Option Data
  deleted : List ι

/-- A step on named handles. A `mutate` is a `mutable_operation` with a write behind it. Where a
step may call `new`, `block` is the block that this would give. -/
inductive Event (σ ι : Type)
  | default (t : σ)
  | construct (t : σ) (vec : List ℤ) (block : ι)
  | copy (t u : σ)
  | copyAssign (t u : σ)
  | move (t u : σ)
  | moveAssign (t u : σ)
  | destroy (t : σ)
  | mutate (t : σ) (block : ι) (vec : List ℤ)

section model
variable {σ ι : Type} [DecidableEq σ] [DecidableEq ι]

namespace State

omit [DecidableEq σ] [DecidableEq ι] in
def load (s : State σ ι) (data : Option ι) : Except Failure (ι × Data) :=
  match data with
  | none => throw (.undefined "*data of a null pointer")
  | some block =>
    match s.heap block with
    | none => throw (.undefined "*data of deleted data")
    | some data => pure (block, data)

def store (s : State σ ι) (block : ι) (data : Data) : State σ ι :=
  { s with heap := Function.update s.heap block (some data) }

def delete (s : State σ ι) (block : ι) : State σ ι :=
  { s with heap := Function.update s.heap block none, deleted := s.deleted ++ [block] }

def setData (s : State σ ι) (t : σ) (data : Option ι) : State σ ι :=
  { s with data := Function.update s.data t data }

def create (s : State σ ι) (t : σ) (data : Option ι) : State σ ι :=
  { s with living := insert t s.living }.setData t data

def addRefcnt (s : State σ ι) (data : Option ι) (d : ℤ) : Except Failure (State σ ι) := do
  let (block, data) ← s.load data
  if data.refcnt + d < -intMax - 1 ∨ intMax < data.refcnt + d then
    throw (.undefined "refcnt overflows")
  else pure (s.store block { data with refcnt := data.refcnt + d })

/-- `data = nullptr` at its end sets the parameter only. -/
def decreseRefcnt (s : State σ ι) (data : Option ι) : Except Failure (State σ ι) := do
  let s ← s.addRefcnt data (-1)
  let (block, data) ← s.load data
  if data.refcnt = 0 then return s.delete block else return s

def construct (s : State σ ι) (t : σ) (vec : List ℤ) (block : ι) : State σ ι :=
  (s.create t (some block)).store block ⟨vec, 1⟩

def copy (s : State σ ι) (t u : σ) : Except Failure (State σ ι) :=
  (s.create t (s.data u)).addRefcnt (s.data u) 1

def copyAssign (s : State σ ι) (t u : σ) : Except Failure (State σ ι) :=
  if t = u then pure s
  else do
    let s ← s.decreseRefcnt (s.data t)
    (s.setData t (s.data u)).addRefcnt (s.data u) 1

/-- The pointer is copied, and the count and `rhs` are left as they are. -/
def move (s : State σ ι) (t u : σ) : State σ ι := s.create t (s.data u)

def moveAssign (s : State σ ι) (t u : σ) : Except Failure (State σ ι) := do
  assert (t ≠ u) "this != &rhs"
  let s ← s.decreseRefcnt (s.data t)
  return s.setData t (s.data u)

def destroy (s : State σ ι) (t : σ) : Except Failure (State σ ι) := do
  let s ← s.decreseRefcnt (s.data t)
  return { s with living := s.living.erase t }

def mutableOperation (s : State σ ι) (t : σ) (block : ι) : Except Failure (State σ ι) := do
  let (_, data) ← s.load (s.data t)
  let s ←
    if data.refcnt ≠ 1 then do
      let s ← (s.store block ⟨data.vec, 1⟩).decreseRefcnt (s.data t)
      pure (s.setData t (some block))
    else pure s
  let (_, data) ← s.load (s.data t)
  assert (data.refcnt = 1) "data->refcnt == 1"
  return s

/-- `data->vec = vec` -/
def write (s : State σ ι) (t : σ) (vec : List ℤ) : Except Failure (State σ ι) := do
  let (block, data) ← s.load (s.data t)
  return s.store block { data with vec }

end State

def next (s : State σ ι) : Event σ ι → Except Failure (State σ ι)
  | .default t => pure (s.create t none)
  | .construct t vec block => pure (s.construct t vec block)
  | .copy t u => s.copy t u
  | .copyAssign t u => s.copyAssign t u
  | .move t u => pure (s.move t u)
  | .moveAssign t u => s.moveAssign t u
  | .destroy t => s.destroy t
  | .mutate t block vec => do
    let s ← s.mutableOperation t block
    s.write t vec

/-- A handle is declared once and used while it lives, and `new` gives a block not in use. -/
def Admitted (s : State σ ι) : Event σ ι → Prop
  | .default t => t ∉ s.living
  | .construct t _ block => t ∉ s.living ∧ s.heap block = none
  | .copy t u | .move t u => t ∉ s.living ∧ u ∈ s.living
  | .copyAssign t u | .moveAssign t u => t ∈ s.living ∧ u ∈ s.living
  | .destroy t => t ∈ s.living
  | .mutate t block _ => t ∈ s.living ∧ s.heap block = none

instance : ∀ (s : State σ ι) (e : Event σ ι), Decidable (Admitted s e)
  | s, .default t => inferInstanceAs (Decidable (t ∉ s.living))
  | s, .construct t _ block =>
    inferInstanceAs (Decidable (t ∉ s.living ∧ s.heap block = none))
  | s, .copy t u | s, .move t u => inferInstanceAs (Decidable (t ∉ s.living ∧ u ∈ s.living))
  | s, .copyAssign t u | s, .moveAssign t u =>
    inferInstanceAs (Decidable (t ∈ s.living ∧ u ∈ s.living))
  | s, .destroy t => inferInstanceAs (Decidable (t ∈ s.living))
  | s, .mutate t block _ => inferInstanceAs (Decidable (t ∈ s.living ∧ s.heap block = none))

/-- The steps between handles that each have a block, without a move. -/
def Event.Copies : Event σ ι → Prop
  | .default _ | .move .. | .moveAssign .. => False
  | _ => True

/-- The steps that make, copy, move and end handles, between two handles where there are two. -/
def Event.Transfers : Event σ ι → Prop
  | .default _ | .mutate .. => False
  | .copyAssign t u | .moveAssign t u => t ≠ u
  | _ => True

def Event.Moves : Event σ ι → Prop
  | .move .. | .moveAssign .. => True
  | _ => False

instance : ∀ e : Event σ ι, Decidable e.Copies
  | .default _ | .move .. | .moveAssign .. => .isFalse id
  | .construct .. | .copy .. | .copyAssign .. | .destroy _ | .mutate .. => .isTrue trivial

instance : ∀ e : Event σ ι, Decidable e.Transfers
  | .default _ | .mutate .. => .isFalse id
  | .copyAssign t u | .moveAssign t u => inferInstanceAs (Decidable (t ≠ u))
  | .construct .. | .copy .. | .move .. | .destroy _ => .isTrue trivial

instance : ∀ e : Event σ ι, Decidable e.Moves
  | .move .. | .moveAssign .. => .isTrue trivial
  | .default _ | .construct .. | .copy .. | .copyAssign .. | .destroy _ | .mutate .. => .isFalse id

def init (s : State σ ι) : Prop := ∃ data, s = ⟨∅, data, fun _ => none, []⟩

def cowSystem (allowed : State σ ι → Event σ ι → Prop) : System (State σ ι) (Event σ ι) :=
  .guarded init allowed next

end model

end ModCpp.Cow
