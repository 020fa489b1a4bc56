import ModCpp.MachineWord
import ModCpp.OrderedSet
import ModCpp.Runs
import Mathlib.Data.Prod.Lex
import Mathlib.Logic.Function.Basic

/-!
# The memory allocator

`MemoryAllocator<NodeSize>` keeps its free regions three times: as a set ordered by
length, left end and right end, and in two hash maps from each end to the other.
`addr2len` holds the length of every block handed out. The address a `new uint8_t
[NodeSize]` returns is an argument of the calls that may reach it.
-/

namespace ModCpp.MemoryAllocator

/-- `std::tuple<uint64_t, uint64_t, uint64_t>`, ordered lexicographically. -/
structure MemoryRegion where
  len : ℕ
  left : ℕ
  right : ℕ
  deriving DecidableEq, Repr

def MemoryRegion.key (mr : MemoryRegion) : ℕ ×ₗ ℕ ×ₗ ℕ :=
  toLex (mr.len, toLex (mr.left, mr.right))

theorem MemoryRegion.key_injective : Function.Injective MemoryRegion.key := by
  intro m m' h
  obtain ⟨a, b, c⟩ := m
  obtain ⟨a', b', c'⟩ := m'
  simpa [key] using h

instance : LinearOrder MemoryRegion :=
  LinearOrder.lift' MemoryRegion.key MemoryRegion.key_injective

structure Allocator where
  memoryNodeList : List ℕ
  freeMemoryRegion : Finset MemoryRegion
  left2right : ℕ → Option ℕ
  right2left : ℕ → Option ℕ
  addr2len : ℕ → Option ℕ

/-- The members before the constructor body runs. -/
def Allocator.empty : Allocator := ⟨[], ∅, fun _ => none, fun _ => none, fun _ => none⟩

def deleteMemoryRegion (a : Allocator) (left right : ℕ) : Except Failure Allocator := do
  let mr : MemoryRegion := ⟨sub64 right left, left, right⟩
  assert (mr ∈ a.freeMemoryRegion) "free_memory_region.count(mr)"
  assert (a.right2left right ≠ none) "right2left.count(right)"
  assert (a.left2right left ≠ none) "left2right.count(left)"
  return { a with
    freeMemoryRegion := a.freeMemoryRegion.erase mr
    right2left := Function.update a.right2left right none
    left2right := Function.update a.left2right left none }

def insertMemoryRegion (a : Allocator) (left right : ℕ) : Except Failure Allocator := do
  let mr : MemoryRegion := ⟨sub64 right left, left, right⟩
  assert (mr ∉ a.freeMemoryRegion) "!free_memory_region.count(mr)"
  assert (a.right2left right = none) "!right2left.count(right)"
  assert (a.left2right left = none) "!left2right.count(left)"
  return { a with
    freeMemoryRegion := insert mr a.freeMemoryRegion
    right2left := Function.update a.right2left right (some left)
    left2right := Function.update a.left2right left (some right) }

def createMemoryNode (NodeSize : ℕ) (a : Allocator) (mem : ℕ) : Except Failure Allocator :=
  insertMemoryRegion { a with memoryNodeList := a.memoryNodeList ++ [mem] } mem
    (add64 mem NodeSize)

def construct (NodeSize mem : ℕ) : Except Failure Allocator :=
  createMemoryNode NodeSize .empty mem

/-- The part of `allocate` after the search: takes `alloc_len` bytes from the front of the
region found. -/
def takeRegion (a : Allocator) (allocLen : ℕ) :
    MemoryRegion → Except Failure (Allocator × ℕ)
  | ⟨mrLen, left, right⟩ => do
    -- unsigned, so the subtraction wraps and the assertion on it cannot fail
    let remainLen := sub64 allocLen mrLen
    assert (remainLen ≥ 0) "remain_len >= 0"
    let a ← deleteMemoryRegion a left right
    let a ← (if remainLen ≠ 0 then insertMemoryRegion a (add64 left allocLen) right else pure a)
    return ({ a with addr2len := Function.update a.addr2len left (some allocLen) }, left)

def NeedsNode (a : Allocator) (allocLen : ℕ) : Prop :=
  lowerBound a.freeMemoryRegion ⟨allocLen, 0, 0⟩ = none

instance (a : Allocator) (allocLen : ℕ) : Decidable (NeedsNode a allocLen) :=
  inferInstanceAs (Decidable (_ = _))

def allocate (NodeSize : ℕ) (a : Allocator) (allocLen mem : ℕ) :
    Except Failure (Allocator × ℕ) := do
  if allocLen > NodeSize then
    throw (.exception "can't allocate memory larger than NodeSize")
  let a ← (if NeedsNode a allocLen then createMemoryNode NodeSize a mem else pure a)
  match lowerBound a.freeMemoryRegion ⟨allocLen, 0, 0⟩ with
  | none => throw (.assertion "iter != free_memory_region.end()")
  | some mr => takeRegion a allocLen mr

def mergePrev (a : Allocator) (left : ℕ) : Except Failure (Allocator × ℕ) :=
  match a.right2left left with
  | none => pure (a, left)
  | some oldLeft => do
    let a ← deleteMemoryRegion a oldLeft left
    return (a, oldLeft)

def mergeNext (a : Allocator) (right : ℕ) : Except Failure (Allocator × ℕ) :=
  match a.left2right right with
  | none => pure (a, right)
  | some oldRight => do
    let a ← deleteMemoryRegion a right oldRight
    return (a, oldRight)

def release (a : Allocator) (mem : ℕ) : Except Failure Allocator := do
  assert (a.addr2len mem ≠ none) "addr2len.count(mem)"
  let right := add64 mem ((a.addr2len mem).getD 0)
  let a := { a with addr2len := Function.update a.addr2len mem none }
  let (a, left) ← mergePrev a mem
  let (a, right) ← mergeNext a right
  insertMemoryRegion a left right

/-- One call on the allocator: `allocate(len)` returning `res`, where `mem` is the address a
new node gets if the call creates one, or `release(ptr)`. -/
inductive Op
  | allocate (len mem res : ℕ)
  | release (ptr : ℕ)
  deriving DecidableEq, Repr

/-- The allocator over a `new[]` that places a block at `mem` beside the nodes `nodes` only
if `fresh nodes mem`. -/
def system (NodeSize : ℕ) (fresh : List ℕ → ℕ → Prop) : System Allocator Op where
  init a := ∃ mem, fresh [] mem ∧ construct NodeSize mem = .ok a
  step a e a' := match e with
    | .allocate len mem res =>
      (NeedsNode a len → fresh a.memoryNodeList mem) ∧
        allocate NodeSize a len mem = .ok (a', res)
    | .release ptr => release a ptr = .ok a'

/-- `new[]` returns a block, whose past-the-end address is an address too, that no earlier
node overlaps. -/
def DisjointBlock (NodeSize : ℕ) (nodes : List ℕ) (mem : ℕ) : Prop :=
  mem + NodeSize < 2 ^ 64 ∧ ∀ m ∈ nodes, mem + NodeSize ≤ m ∨ m + NodeSize ≤ mem

/-- Moreover no earlier node touches it. -/
def SeparateBlock (NodeSize : ℕ) (nodes : List ℕ) (mem : ℕ) : Prop :=
  mem + NodeSize < 2 ^ 64 ∧ ∀ m ∈ nodes, mem + NodeSize < m ∨ m + NodeSize < mem

def livePtrs (tr : List Op) : List ℕ :=
  history (fun live e => match e with
    | .allocate _ _ res => res :: live
    | .release ptr => live.erase ptr) [] tr

def Permitted (NodeSize : ℕ) (tr : List Op) : Op → Prop
  | .allocate len _ _ => 1 ≤ len ∧ len ≤ NodeSize
  | .release ptr => ptr ∈ livePtrs tr

def exec (NodeSize : ℕ) (fresh : List ℕ → ℕ → Prop) [∀ nodes mem, Decidable (fresh nodes mem)]
    (a : Allocator) : Op → Option Allocator
  | .allocate len mem res =>
    match allocate NodeSize a len mem with
    | .ok (a', r) =>
      if r = res ∧ (NeedsNode a len → fresh a.memoryNodeList mem) then some a' else none
    | .error _ => none
  | .release ptr => (release a ptr).toOption

theorem exec_step {NodeSize : ℕ} {fresh : List ℕ → ℕ → Prop}
    [∀ nodes mem, Decidable (fresh nodes mem)] (a : Allocator) (e : Op) (a' : Allocator)
    (h : exec NodeSize fresh a e = some a') : (system NodeSize fresh).step a e a' := by
  cases e with
  | allocate len mem res =>
    simp only [exec] at h
    split at h
    · split_ifs at h with hc
      obtain rfl := Option.some_inj.mp h
      obtain ⟨rfl, hfresh⟩ := hc
      exact ⟨hfresh, ‹_›⟩
    · cases h
  | release ptr =>
    cases hr : release a ptr with
    | ok b =>
      simp only [exec, hr, Except.toOption, Option.some_inj] at h
      exact h ▸ hr
    | error f => simp [exec, hr, Except.toOption] at h

instance (NodeSize : ℕ) (nodes : List ℕ) (mem : ℕ) :
    Decidable (DisjointBlock NodeSize nodes mem) := inferInstanceAs (Decidable (_ ∧ _))

instance (NodeSize : ℕ) (nodes : List ℕ) (mem : ℕ) :
    Decidable (SeparateBlock NodeSize nodes mem) := inferInstanceAs (Decidable (_ ∧ _))

instance (NodeSize : ℕ) (tr : List Op) : (e : Op) → Decidable (Permitted NodeSize tr e)
  | .allocate _ _ _ => inferInstanceAs (Decidable (_ ∧ _))
  | .release _ => inferInstanceAs (Decidable (_ ∈ _))

end ModCpp.MemoryAllocator
