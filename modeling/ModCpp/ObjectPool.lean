import ModCpp.ByteMemory
import ModCpp.LinkedChain
import ModCpp.MachineWord
import ModCpp.Runs

/-!
# The object pool with an intrusive free list

`ObjectPool<T, NodeCapacity>` of object-pool.cc carves chunks out of memory nodes. A chunk is
a link of eight bytes followed by the object; a released chunk holds in its link the chunk
released before it, down to the null pointer. Constructors and destructors leave any content
in the bytes of their object.
-/

namespace ModCpp.ObjectPool

/-- The template arguments: `sizeof (T)` and `NodeCapacity`. -/
structure Layout where
  objectSize : ℕ
  nodeCapacity : ℕ

def Layout.chunkSize (c : Layout) : ℕ := c.objectSize + 8

/-- A product of two `size_t`, which wraps. -/
def Layout.nodeSize (c : Layout) : ℕ := c.chunkSize * c.nodeCapacity % 2 ^ 64

def Layout.Fits (c : Layout) : Prop := c.chunkSize * c.nodeCapacity < 2 ^ 64

instance (c : Layout) : Decidable c.Fits := inferInstanceAs (Decidable (_ < _))

structure MemoryNode where
  mem : ℕ
  current : ℕ
  deriving DecidableEq

def MemoryNode.hasFreeSpace (c : Layout) (n : MemoryNode) : Except Failure Bool := do
  assert ((n.current - n.mem) % c.chunkSize = 0) "(current - mem) % get_chunk_size() == 0"
  return n.current < n.mem + c.nodeSize

def MemoryNode.allocateMemory (c : Layout) (n : MemoryNode) :
    Except Failure (MemoryNode × ℕ) := do
  let free ← n.hasFreeSpace c
  assert (free = true) "has_free_space()"
  return ({ n with current := n.current + c.chunkSize }, n.current)

structure Pool where
  memory : Memory
  memoryNodeList : List MemoryNode
  freeList : ℕ

def toObject (ptr : ℕ) : ℕ := ptr + 8

def toRawmemory (obj : ℕ) : ℕ := obj - 8

def Pool.createMemoryNode (p : Pool) (block : ℕ) : Pool :=
  { p with memoryNodeList := p.memoryNodeList ++ [⟨block, block⟩] }

def Pool.getLastedNode (p : Pool) : Except Failure MemoryNode :=
  match p.memoryNodeList.getLast? with
  | none => throw (.assertion "memory_node_list.size()")
  | some node => pure node

def Pool.setLastedNode (p : Pool) (node : MemoryNode) : Pool :=
  { p with memoryNodeList := p.memoryNodeList.dropLast ++ [node] }

def construct (memory : Memory) (block : ℕ) : Pool :=
  Pool.createMemoryNode ⟨memory, [], 0⟩ block

/-- `New` up to the constructor: the chunk it takes, and the link it read if the chunk comes
from the free list. -/
def Pool.prepare (c : Layout) (p : Pool) (block : ℕ) :
    Except Failure (Pool × ℕ × Option ℕ) := do
  if p.freeList ≠ 0 then
    return (p, p.freeList, some (p.memory.loadWord p.freeList))
  else
    let last ← p.getLastedNode
    let free ← last.hasFreeSpace c
    let p := if free then p else p.createMemoryNode block
    let node ← p.getLastedNode
    let free ← node.hasFreeSpace c
    assert (free = true) "node.has_free_space()"
    let (node, mem) ← node.allocateMemory c
    return (p.setLastedNode node, mem, none)

/-- The bytes of an object overwritten, by its constructor, its destructor or the client. -/
def Pool.write (c : Layout) (p : Pool) (obj : ℕ) (bytes : ℕ → UInt8) : Pool :=
  { p with memory := p.memory.fill obj c.objectSize bytes }

/-- `New` after the constructor. -/
def Pool.commit (p : Pool) : Option ℕ → Pool
  | some prev => { p with freeList := prev }
  | none => p

/-- `New`, whose constructor leaves `bytes` in the object and may throw. -/
def Pool.new (c : Layout) (p : Pool) (block : ℕ) (bytes : ℕ → UInt8) (throws : Bool) :
    Except Failure (Pool × Option ℕ) := do
  let (p, chunk, prev) ← p.prepare c block
  let p := p.write c (toObject chunk) bytes
  return if throws then (p, none) else (p.commit prev, some (toObject chunk))

/-- `Release` after the destructor. -/
def Pool.putBack (p : Pool) (obj : ℕ) : Pool :=
  let mem := toRawmemory obj
  { p with memory := p.memory.storeWord mem p.freeList, freeList := mem }

def Pool.release (c : Layout) (p : Pool) (obj : ℕ) (bytes : ℕ → UInt8) : Pool :=
  (p.write c obj bytes).putBack obj

/-- One call of a client: `New` returning `res`, or throwing, where `block` is the address a
new node gets if the call creates one; `Release`; or a write to an object. -/
inductive Op
  | new (block : ℕ) (bytes : ℕ → UInt8) (res : Option ℕ)
  | release (obj : ℕ) (bytes : ℕ → UInt8)
  | write (obj : ℕ) (bytes : ℕ → UInt8)

def NeedsNode (c : Layout) (p : Pool) : Prop :=
  p.freeList = 0 ∧ ∀ n ∈ p.memoryNodeList.getLast?, n.mem + c.nodeSize ≤ n.current

instance (c : Layout) (p : Pool) : Decidable (NeedsNode c p) :=
  inferInstanceAs (Decidable (_ ∧ ∀ n ∈ p.memoryNodeList.getLast?, _))

/-- `new[]` returns a block in the address space that no node overlaps. -/
def FreshBlock (c : Layout) (nodes : List MemoryNode) (block : ℕ) : Prop :=
  block ≠ 0 ∧ block + c.nodeSize ≤ 2 ^ 64 ∧ ∀ n ∈ nodes, Apart c.nodeSize block n.mem

instance (w a b : ℕ) : Decidable (Apart w a b) := inferInstanceAs (Decidable (_ ∨ _))

instance (c : Layout) (nodes : List MemoryNode) (block : ℕ) :
    Decidable (FreshBlock c nodes block) := inferInstanceAs (Decidable (_ ∧ _))

def next (c : Layout) (p : Pool) : Op → Option Pool
  | .new block bytes res =>
    if NeedsNode c p → FreshBlock c p.memoryNodeList block then
      match p.new c block bytes res.isNone with
      | .ok (p', r) => if r = res then some p' else none
      | .error _ => none
    else none
  | .release obj bytes => some (p.release c obj bytes)
  | .write obj bytes => some (p.write c obj bytes)

def system (c : Layout) : System Pool Op where
  init p := ∃ memory block, FreshBlock c [] block ∧ p = construct memory block
  step p e p' := next c p e = some p'

/-- The live objects, the chunks released and not reused, and the largest number of
simultaneously live objects. -/
structure History where
  live : List ℕ
  released : List ℕ
  peak : ℕ

def History.record (h : History) : Op → History
  | .new _ _ (some obj) =>
    { live := obj :: h.live
      released := h.released.erase (toRawmemory obj)
      peak := max h.peak (h.live.length + 1) }
  | .new _ _ none => h
  | .release obj _ =>
    { h with live := h.live.erase obj, released := toRawmemory obj :: h.released }
  | .write _ _ => h

def hist (tr : List Op) : History := history History.record ⟨[], [], 0⟩ tr

@[simp] theorem hist_nil : hist [] = ⟨[], [], 0⟩ := rfl

@[simp] theorem hist_concat (tr : List Op) (e : Op) :
    hist (tr ++ [e]) = (hist tr).record e := history_concat _ _ _ _

def permitted (tr : List Op) : Op → Prop
  | .new _ _ res => res ≠ none
  | .release obj _ => obj ∈ (hist tr).live
  | .write obj _ => obj ∈ (hist tr).live

instance (tr : List Op) : (e : Op) → Decidable (permitted tr e)
  | .new _ _ _ => inferInstanceAs (Decidable (_ ≠ _))
  | .release _ _ | .write _ _ => inferInstanceAs (Decidable (_ ∈ _))

def ptr (v : ℕ) : Option ℕ := if v = 0 then none else some v

def Pool.link (p : Pool) (a : ℕ) : Option ℕ := ptr (p.memory.loadWord a)

end ModCpp.ObjectPool
