import Mathlib.Data.Finset.Basic
import Mathlib.Logic.Function.Basic
import ModCpp.MachineWord
import ModCpp.Runs

/-!
# Shared and weak pointers

A `shared_pointer` holds an object and a control block with a count. A `weak_pointer` stores
the address of a `shared_pointer` and is registered in its `weak_ptr_set`. The state holds the
living variables of both classes, the control blocks and objects that exist, and a log of what
has been deleted.
-/

namespace ModCpp.SharedPtr

structure SharedPointer (ω ι κ : Type*) where
  weakPtrSet : Finset ω
  metadata : Option κ
  data : Option ι

structure State (σ ω ι κ : Type*) where
  living : Finset σ
  ptr : σ → SharedPointer ω ι κ
  livingWeak : Finset ω
  sharedPtr : ω → Option σ
  refcnt : κ → Option ℤ
  objects : Finset ι
  deletedData : List ι
  deletedMetadata : List κ

/-- A step on named variables: the statement `T t(..)`, `t = ..` or the end of a life. -/
inductive Event (σ ω ι κ : Type*)
  | default (t : σ)
  | fromRaw (t : σ) (data : Option ι) (block : κ)
  | copy (t u : σ)
  | copyAssign (t u : σ)
  | move (t u : σ)
  | moveAssign (t u : σ)
  | destroy (t : σ)
  | weakDefault (w : ω)
  | weakFrom (w : ω) (t : σ)
  | weakCopy (w v : ω)
  | weakAssign (w : ω) (t : σ)
  | weakCopyAssign (w v : ω)
  | weakDestroy (w : ω)
  | lock (w : ω) (t : σ)

section model
variable {σ ω ι κ : Type*} [DecidableEq σ] [DecidableEq ω] [DecidableEq ι] [DecidableEq κ]

namespace State

def setPtr (s : State σ ω ι κ) (t : σ) (p : SharedPointer ω ι κ) : State σ ω ι κ :=
  { s with ptr := Function.update s.ptr t p }

/-- `refcnt` read, changed by `d` and written back. -/
def addRefcnt (s : State σ ω ι κ) (block : κ) (d : ℤ) :
    Except Failure (State σ ω ι κ × ℤ) :=
  match s.refcnt block with
  | none => throw (.undefined "metadata->refcnt of a deleted block")
  | some n =>
    if n + d < -intMax - 1 ∨ intMax < n + d then throw (.undefined "refcnt overflows")
    else pure ({ s with refcnt := Function.update s.refcnt block (some (n + d)) }, n + d)

def deleteData (s : State σ ω ι κ) (data : ι) : Except Failure (State σ ω ι κ) :=
  if data ∈ s.objects then
    pure { s with objects := s.objects.erase data, deletedData := s.deletedData ++ [data] }
  else throw (.undefined "delete data")

def deleteMetadata (s : State σ ω ι κ) (block : κ) : Except Failure (State σ ω ι κ) :=
  match s.refcnt block with
  | none => throw (.undefined "delete metadata")
  | some _ =>
    pure { s with
      refcnt := Function.update s.refcnt block none
      deletedMetadata := s.deletedMetadata ++ [block] }

def decreaseCurrentRefcnt (s : State σ ω ι κ) (t : σ) : Except Failure (State σ ω ι κ) :=
  match (s.ptr t).data, (s.ptr t).metadata with
  | none, _ => pure s
  | some _, none => throw (.assertion "metadata")
  | some data, some block => do
    let (s, n) ← s.addRefcnt block (-1)
    if n = 0 then
      let s ← s.deleteData data
      let s := s.setPtr t { s.ptr t with data := none }
      let s ← s.deleteMetadata block
      return s.setPtr t { s.ptr t with metadata := none }
    else return s

def create (s : State σ ω ι κ) (t : σ) : State σ ω ι κ :=
  { s with living := insert t s.living }.setPtr t ⟨∅, none, none⟩

def share (s : State σ ω ι κ) (t u : σ) : Except Failure (State σ ω ι κ) :=
  let s := s.setPtr t { s.ptr t with data := (s.ptr u).data, metadata := (s.ptr u).metadata }
  match (s.ptr t).metadata with
  | none => throw (.undefined "metadata->refcnt of a null pointer")
  | some block => do
    let (s, _) ← s.addRefcnt block 1
    return s

def take (s : State σ ω ι κ) (t u : σ) : State σ ω ι κ :=
  let s := s.setPtr t { s.ptr t with data := (s.ptr u).data, metadata := (s.ptr u).metadata }
  s.setPtr u { s.ptr u with data := none, metadata := none }

/-- `shared_pointer(T *data)` with its new control block; a raw pointer that is not null
points to an object made for it. -/
def fromRaw (s : State σ ω ι κ) (t : σ) (data : Option ι) (block : κ) : State σ ω ι κ :=
  let s := s.create t
  { s.setPtr t { s.ptr t with data, metadata := some block } with
    objects := data.elim s.objects fun x => insert x s.objects
    refcnt := Function.update s.refcnt block (some 1) }

def copy (s : State σ ω ι κ) (t u : σ) : Except Failure (State σ ω ι κ) := (s.create t).share t u

def copyAssign (s : State σ ω ι κ) (t u : σ) : Except Failure (State σ ω ι κ) := do
  let s ← s.decreaseCurrentRefcnt t
  s.share t u

def move (s : State σ ω ι κ) (t u : σ) : State σ ω ι κ := (s.create t).take t u

def moveAssign (s : State σ ω ι κ) (t u : σ) : Except Failure (State σ ω ι κ) := do
  let s ← s.decreaseCurrentRefcnt t
  return s.take t u

/-- The loop of the destructor: every registered `weak_pointer` is reset. -/
def resetWeak (s : State σ ω ι κ) (t : σ) : Except Failure (State σ ω ι κ) :=
  let registered := (s.ptr t).weakPtrSet
  if registered ⊆ s.livingWeak then
    pure ({ s with sharedPtr := fun w => if w ∈ registered then none else s.sharedPtr w }.setPtr t
      { s.ptr t with weakPtrSet := ∅ })
  else throw (.undefined "cur->reset() of a destroyed weak_pointer")

def destroy (s : State σ ω ι κ) (t : σ) : Except Failure (State σ ω ι κ) := do
  let s ← s.decreaseCurrentRefcnt t
  let s ← s.resetWeak t
  return { s with living := s.living.erase t }

def addSubscription (s : State σ ω ι κ) (t : σ) (w : ω) : State σ ω ι κ :=
  s.setPtr t { s.ptr t with weakPtrSet := insert w (s.ptr t).weakPtrSet }

/-- `shared_ptr->cancel_subscription(this)` through the stored address. -/
def cancelSubscription (s : State σ ω ι κ) (w : ω) : Except Failure (State σ ω ι κ) :=
  match s.sharedPtr w with
  | none => pure s
  | some t =>
    if t ∈ s.living then
      pure (s.setPtr t { s.ptr t with weakPtrSet := (s.ptr t).weakPtrSet.erase w })
    else throw (.undefined "cancel_subscription on a destroyed shared_pointer")

def setShared (s : State σ ω ι κ) (w : ω) (target : Option σ) : State σ ω ι κ :=
  { s with
    livingWeak := insert w s.livingWeak
    sharedPtr := Function.update s.sharedPtr w target }

def weakFrom (s : State σ ω ι κ) (w : ω) (t : σ) : State σ ω ι κ :=
  (s.setShared w (some t)).addSubscription t w

def weakAssign (s : State σ ω ι κ) (w : ω) (t : σ) : Except Failure (State σ ω ι κ) := do
  let s ← s.cancelSubscription w
  return (s.setShared w (some t)).addSubscription t w

def weakDestroy (s : State σ ω ι κ) (w : ω) : Except Failure (State σ ω ι κ) := do
  let s ← s.cancelSubscription w
  return { s with livingWeak := s.livingWeak.erase w }

def lock (s : State σ ω ι κ) (w : ω) (t : σ) : Except Failure (State σ ω ι κ) :=
  match s.sharedPtr w with
  | none => pure (s.create t)
  | some u =>
    if u ∈ s.living then s.copy t u else throw (.undefined "*shared_ptr of a destroyed pointer")

end State

/-- The effect of a step. A `weak_pointer` is copied member by member. -/
def next (s : State σ ω ι κ) : Event σ ω ι κ → Except Failure (State σ ω ι κ)
  | .default t => pure (s.create t)
  | .fromRaw t data block => pure (s.fromRaw t data block)
  | .copy t u => s.copy t u
  | .copyAssign t u => s.copyAssign t u
  | .move t u => pure (s.move t u)
  | .moveAssign t u => s.moveAssign t u
  | .destroy t => s.destroy t
  | .weakDefault w => pure (s.setShared w none)
  | .weakFrom w t => pure (s.weakFrom w t)
  | .weakCopy w v => pure (s.setShared w (s.sharedPtr v))
  | .weakAssign w t => s.weakAssign w t
  | .weakCopyAssign w v => pure (s.setShared w (s.sharedPtr v))
  | .weakDestroy w => s.weakDestroy w
  | .lock w t => s.lock w t

def system (allowed : State σ ω ι κ → Event σ ω ι κ → Prop) :
    System (State σ ω ι κ) (Event σ ω ι κ) where
  init s := ∃ ptr sharedPtr, s = ⟨∅, ptr, ∅, sharedPtr, fun _ => none, ∅, [], []⟩
  step s e s' := allowed s e ∧ next s e = .ok s'

def exec (allowed : State σ ω ι κ → Event σ ω ι κ → Prop) [∀ s e, Decidable (allowed s e)]
    (s : State σ ω ι κ) (e : Event σ ω ι κ) : Option (State σ ω ι κ) :=
  if allowed s e then (next s e).toOption else none

theorem exec_step {allowed : State σ ω ι κ → Event σ ω ι κ → Prop} [∀ s e, Decidable (allowed s e)]
    (s : State σ ω ι κ) (e : Event σ ω ι κ) (s' : State σ ω ι κ)
    (h : exec allowed s e = some s') : (system allowed).step s e s' := by
  show (System.guarded (fun _ => True) allowed next).step s e s'
  exact System.guardedExec_step s e s' h

end model
end ModCpp.SharedPtr
