import ModCpp.MachineWord
import ModCpp.Runs

/-!
# The object pool with a list of free slots

`ObjectPool<T, NodeCapacity>` of opool.cc. A memory node is an array of `NodeCapacity`
objects, a slot is the number of the array and an index, and released slots wait in a list.
The log has each constructor and destructor that runs.
-/

namespace ModCpp

abbrev Slot := ℕ × ℕ

inductive Life
  | construct
  | destroy
  deriving DecidableEq

structure ListNode where
  mem : Option ℕ
  curFreeIdx : ℤ
  deriving DecidableEq

structure ListPool where
  memNodeList : List ListNode
  freelist : List Slot
  /-- The number of the next array. -/
  fresh : ℕ
  log : List (Slot × Life)

namespace ListNode
variable (capacity : ℕ)

def full (node : ListNode) : Prop := (capacity : ℤ) ≤ node.curFreeIdx

instance (node : ListNode) : Decidable (node.full capacity) :=
  inferInstanceAs (Decidable (_ ≤ _))

def allocate (node : ListNode) : Except Failure (ListNode × Slot) := do
  assert (¬ node.full capacity) "!full()"
  match node.mem with
  | none => throw (.undefined "null pointer")
  | some block =>
    if node.curFreeIdx = intMax then throw (.undefined "int overflow")
    else pure ({ node with curFreeIdx := node.curFreeIdx + 1 }, (block, node.curFreeIdx.toNat))

/-- The move constructor: the new node and what it leaves of the old one. -/
def moveConstruct (rhs : ListNode) : ListNode × ListNode :=
  (⟨rhs.mem, rhs.curFreeIdx⟩, ⟨none, 0⟩)

/-- What `new T[NodeCapacity]` runs. -/
def constructAll (block : ℕ) : List (Slot × Life) :=
  (List.range capacity).map fun i => ((block, i), .construct)

/-- What `delete[] mem` runs; the elements are destroyed from the last to the first. -/
def destroyAll (node : ListNode) : List (Slot × Life) :=
  match node.mem with
  | none => []
  | some block => (List.range capacity).reverse.map fun i => ((block, i), .destroy)

end ListNode

namespace ListPool
variable (capacity : ℕ)

/-- `std::vector` moves its nodes to a larger array and destroys what is left of them. -/
def reallocate (p : ListPool) : ListPool :=
  { p with
    memNodeList := p.memNodeList.map fun node => node.moveConstruct.1
    log := p.log ++ p.memNodeList.flatMap fun node => node.moveConstruct.2.destroyAll capacity }

/-- `mem_node_list.emplace_back()`. -/
def emplaceBack (realloc : Bool) (p : ListPool) : ListPool :=
  let log := p.log ++ ListNode.constructAll capacity p.fresh
  let p := if realloc then reallocate capacity { p with log } else { p with log }
  { p with memNodeList := p.memNodeList ++ [⟨some p.fresh, 0⟩], fresh := p.fresh + 1 }

def construct : ListPool := emplaceBack capacity false ⟨[], [], 0, []⟩

def back (p : ListPool) : Except Failure ListNode :=
  match p.memNodeList.getLast? with
  | none => throw (.assertion "mem_node_list.size()")
  | some node => pure node

def allocate (realloc : Bool) (p : ListPool) : Except Failure (ListPool × Slot) :=
  match p.freelist with
  | slot :: rest => pure ({ p with freelist := rest }, slot)
  | [] => do
    let last ← p.back
    let p := if last.full capacity then emplaceBack capacity realloc p else p
    let last ← p.back
    let (node, slot) ← last.allocate capacity
    pure ({ p with memNodeList := p.memNodeList.dropLast ++ [node] }, slot)

/-- `New`, whose constructor may throw. -/
def new (realloc throws : Bool) (p : ListPool) : Except Failure (ListPool × Option Slot) := do
  let (p, rawMem) ← allocate capacity realloc p
  let p := { p with log := p.log ++ [(rawMem, .construct)] }
  pure (p, if throws then none else some rawMem)

def release (p : ListPool) (obj : Slot) : ListPool :=
  { p with log := p.log ++ [(obj, .destroy)], freelist := p.freelist ++ [obj] }

/-- The pool's destructor, which destroys its nodes. -/
def destroy (p : ListPool) : List (Slot × Life) :=
  p.log ++ p.memNodeList.flatMap fun node => node.destroyAll capacity

/-- A call of `New`, which returns `res` or throws, or of `Release`; `realloc` tells if the
vector of nodes moves them when it grows. -/
inductive Op
  | new (realloc : Bool) (res : Option Slot)
  | release (obj : Slot)

def next (p : ListPool) : Op → Option ListPool
  | .new realloc res =>
    match new capacity realloc res.isNone p with
    | .ok (p', r) => if r = res then some p' else none
    | .error _ => none
  | .release obj => some (p.release obj)

def system : System ListPool Op where
  init p := p = construct capacity
  step p e p' := next capacity p e = some p'

/-- The live objects and the largest number of simultaneously live objects. -/
structure History where
  live : List Slot
  peak : ℕ

def History.record (h : History) : Op → History
  | .new _ (some obj) => { live := obj :: h.live, peak := max h.peak (h.live.length + 1) }
  | .new _ none => h
  | .release obj => { h with live := h.live.erase obj }

def hist (tr : List Op) : History := history History.record ⟨[], 0⟩ tr

/-- Only live objects are released. -/
def permitted (tr : List Op) : Op → Prop
  | .new _ _ => True
  | .release obj => obj ∈ (hist tr).live

instance (tr : List Op) : (e : Op) → Decidable (permitted tr e)
  | .new _ _ => inferInstanceAs (Decidable True)
  | .release _ => inferInstanceAs (Decidable (_ ∈ _))

end ListPool

end ModCpp
