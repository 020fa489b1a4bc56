import ModCpp.LinkedRing
import ModCpp.MachineWord
import ModCpp.Runs

/-!
# `linked_list` (`linked_list.cc`)

A node is alive as long as its strong count is positive. Every `shared_ptr` counts: the fields
`next` of living nodes, the list's own `head`, and the local variables of a running method,
which are copied in where they are initialised and released at its end. A `weak_ptr` counts
nothing, and since no node gets the name of an earlier one it never revives.
-/

namespace ModCpp
variable {T : Type}

/-- The data of a default-constructed node is indeterminate. -/
@[ext] structure LinkedList.Heap (T : Type) where
  data : ℕ → Option T
  next : ℕ → Option ℕ
  prev : ℕ → Option ℕ
  strong : ℕ → ℕ
  fresh : ℕ

structure LinkedList (T : Type) where
  heap : LinkedList.Heap T
  head : ℕ

namespace LinkedList

namespace Heap
variable (h : Heap T)

@[simp] def makeShared (data : Option T) : Heap T where
  data := Function.update h.data h.fresh data
  next := Function.update h.next h.fresh none
  prev := Function.update h.prev h.fresh none
  strong := Function.update h.strong h.fresh 1
  fresh := h.fresh + 1

/-- A `shared_ptr` that holds `p` comes into being. -/
@[simp] def retain (p : Option ℕ) : Heap T :=
  match p with
  | none => h
  | some x => { h with strong := Function.update h.strong x (h.strong x + 1) }

/-- What a `weak_ptr` to `p` locks. -/
@[simp] def lock (p : Option ℕ) : Option ℕ :=
  match p with
  | none => none
  | some x => if h.strong x = 0 then none else some x

/-- The node a `shared_ptr` is dereferenced to. -/
@[simp] def deref (p : Option ℕ) : Loop ℕ :=
  match p with
  | none => throw (.undefined "null pointer dereferenced")
  | some x => if h.strong x = 0 then throw (.undefined "dead node accessed") else pure x

/-- A `shared_ptr` that holds `p` goes. The last one destroys the node and its `next` with it. -/
@[simp] def release : ℕ → Option ℕ → Heap T → Loop (Heap T)
  | _, none, h => pure h
  | 0, some _, _ => running
  | fuel + 1, some x, h =>
    if h.strong x = 0 then throw (.undefined "released twice")
    else if h.strong x = 1 then
      release fuel (h.next x) { h with strong := Function.update h.strong x 0 }
    else pure { h with strong := Function.update h.strong x (h.strong x - 1) }

/-- A chain of releases ends no later than with the last node there ever was. -/
@[simp] def drop (p : Option ℕ) : Loop (Heap T) := release (h.fresh + 1) p h

@[simp] def getNext (p : Option ℕ) : Loop (Option ℕ) := do
  let x ← h.deref p
  pure (h.next x)

@[simp] def getPrev (p : Option ℕ) : Loop (Option ℕ) := do
  let x ← h.deref p
  pure (h.prev x)

@[simp] def getData (p : Option ℕ) : Loop T := do
  let x ← h.deref p
  match h.data x with
  | none => throw (.undefined "indeterminate value read")
  | some v => pure v

/-- `p->next = q` -/
@[simp] def setNext (p q : Option ℕ) : Loop (Heap T) := do
  let x ← h.deref p
  let h := h.retain q
  let old := h.next x
  { h with next := Function.update h.next x q }.drop old

/-- `p->prev = q` -/
@[simp] def setPrev (p q : Option ℕ) : Loop (Heap T) := do
  let x ← h.deref p
  pure { h with prev := Function.update h.prev x q }

end Heap

inductive Ret (T : Type)
  | done
  | value (v : T)
  | isEmpty (b : Bool)

/-- A method ends with a return value or the text of an exception, beside the list it leaves. -/
abbrev Result (T : Type) := Except String (Ret T) × LinkedList T

/-- The constructor of `linked_list`. -/
def construct : Loop (LinkedList T) := do
  let head := 0
  let h : Heap T := ⟨fun _ => none, fun _ => none, fun _ => none, fun _ => 0, head⟩
  let h := h.makeShared none
  let h ← h.setNext (some head) (some head)
  let h ← h.setPrev (some head) (some head)
  pure ⟨h, head⟩

def empty (l : LinkedList T) : Loop (Bool × LinkedList T) := do
  let prev ← l.heap.getPrev (some l.head)
  let locked := l.heap.lock prev
  let h := l.heap.retain locked
  let h ← h.drop locked
  pure (decide (locked = some l.head), { l with heap := h })

def push_back (data : T) (l : LinkedList T) : Loop (Result T) := do
  let new_node := some l.heap.fresh
  let h := l.heap.makeShared (some data)
  let tail := h.lock (← h.getPrev (some l.head))
  let h := h.retain tail
  let h ← h.setPrev new_node tail
  let h ← h.setNext tail new_node
  let h ← h.setNext new_node (some l.head)
  let h ← h.setPrev (some l.head) new_node
  let h ← h.drop tail
  let h ← h.drop new_node
  pure (.ok .done, { l with heap := h })

def pop_back (l : LinkedList T) : Loop (Result T) := do
  let e ← empty l
  if e.1 then pure (.error "list is empty", e.2)
  else do
    let l := e.2
    let tail := l.heap.lock (← l.heap.getPrev (some l.head))
    let h := l.heap.retain tail
    let second_tail := h.lock (← h.getPrev tail)
    let h := h.retain second_tail
    let h ← h.setPrev (some l.head) second_tail
    let h ← h.setNext second_tail (some l.head)
    let data ← h.getData tail
    let h ← h.drop second_tail
    let h ← h.drop tail
    pure (.ok (.value data), { l with heap := h })

def push_front (data : T) (l : LinkedList T) : Loop (Result T) := do
  let new_node := some l.heap.fresh
  let h := l.heap.makeShared (some data)
  let second_head ← h.getNext (some l.head)
  let h := h.retain second_head
  let h ← h.setPrev new_node (some l.head)
  let h ← h.setNext (some l.head) new_node
  let h ← h.setNext new_node second_head
  let h ← h.setPrev second_head new_node
  let h ← h.drop second_head
  let h ← h.drop new_node
  pure (.ok .done, { l with heap := h })

def pop_front (l : LinkedList T) : Loop (Result T) := do
  let e ← empty l
  if e.1 then pure (.error "list is empty", e.2)
  else do
    let l := e.2
    let second_head ← l.heap.getNext (some l.head)
    let h := l.heap.retain second_head
    let third_head ← h.getNext second_head
    let h := h.retain third_head
    let h ← h.setNext (some l.head) third_head
    let h ← h.setPrev third_head (some l.head)
    let data ← h.getData second_head
    let h ← h.drop third_head
    let h ← h.drop second_head
    pure (.ok (.value data), { l with heap := h })

inductive Call (T : Type)
  | push_back (data : T)
  | pop_back
  | push_front (data : T)
  | pop_front
  | empty

def invoke (l : LinkedList T) : Call T → Loop (Result T)
  | .push_back data => push_back data l
  | .pop_back => pop_back l
  | .push_front data => push_front data l
  | .pop_front => pop_front l
  | .empty => do
    let e ← empty l
    pure (.ok (.isEmpty e.1), e.2)

/-- The end of the list's life: its member `head` goes. -/
def destroy (l : LinkedList T) : Loop (Heap T) := l.heap.drop (some l.head)

def listSystem : System (LinkedList T) (Call T × Except String (Ret T)) where
  init l := construct = pure l
  step l e l' := invoke l e.1 = pure (e.2, l')

end LinkedList

end ModCpp
