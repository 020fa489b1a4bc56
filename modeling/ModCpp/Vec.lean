import Mathlib.Logic.Function.Basic
import ModCpp.Actions
import ModCpp.Cells

/-!
# The vector with a part on the stack

A `vec<T, N>` keeps up to `N` elements in the object and more in a heap block. Blocks are
numbered in the order in which `new` makes them. An operation that ends with an exception
leaves the state that it has reached.
-/

namespace ModCpp

structure Vec (T : Type) (N : ℕ) where
  stackVec : Cells T
  heapVec : Option ℕ
  vecSize : ℤ
  vecCapacity : ℤ
  /-- The living heap blocks. -/
  heap : ℕ → Option (Cells T)
  /-- The number of the next block. -/
  fresh : ℕ

/-- Which of the operations that may throw do so in a call; copy assignments are counted. -/
structure Faults where
  allocation : Bool
  copy : ℕ → Bool
  construction : Bool

namespace Vec
variable {T : Type} {N : ℕ}

inductive Area
  | stack
  | heap (block : ℕ)

/-- What a pointer or a reference to an element designates. -/
structure Place where
  area : Area
  index : ℕ

abbrev Op (T : Type) (N : ℕ) := ExceptT Failure (StateM (Vec T N))

def exec {α : Type} (op : Op T N α) (v : Vec T N) : Except Failure α × Vec T N := op.run.run v

section exec
variable {α β : Type} {v v' : Vec T N} {op : Op T N α} {f : α → Op T N β}

theorem exec_ok {a : α} (h : exec op v = (.ok a, v')) : exec (op >>= f) v = exec (f a) v' :=
  Action.exec_ok h

theorem exec_error {e : Failure} (h : exec op v = (.error e, v')) :
    exec (op >>= f) v = (.error e, v') :=
  Action.exec_error h

theorem exec_pure (a : α) : exec (pure a) v = (.ok a, v) := rfl

theorem exec_get (f : Vec T N → Op T N α) : exec (get >>= f) v = exec (f v) v := rfl

theorem exec_modify (g : Vec T N → Vec T N) (f : Unit → Op T N α) :
    exec (modify g >>= f) v = exec (f ()) (g v) := rfl

end exec

def failIf (c : Prop) [Decidable c] (e : Failure) : Op T N Unit := if c then throw e else pure ()

def construct : Vec T N where
  stackVec := Cells.indeterminate N
  heapVec := none
  vecSize := 0
  vecCapacity := toInt N
  heap := fun _ => none
  fresh := 0

def array : Area → Op T N (Cells T)
  | .stack => do
    let v ← get
    pure v.stackVec
  | .heap block => do
    let v ← get
    match v.heap block with
    | none => throw (.undefined "access to a block that is not alive")
    | some cells => pure cells

def setArray (area : Area) (cells : Cells T) : Op T N Unit :=
  modify fun v => match area with
    | .stack => { v with stackVec := cells }
    | .heap block => { v with heap := Function.update v.heap block (some cells) }

/-- `array + i`. -/
def element (area : Area) (i : ℤ) : Op T N Place := do
  failIf (i < 0) (.undefined "pointer before an array")
  pure ⟨area, i.toNat⟩

/-- `heap_vec + i`. -/
def heapElement (i : ℤ) : Op T N Place := do
  let v ← get
  match v.heapVec with
  | none => throw (.undefined "null pointer")
  | some block => element (.heap block) i

def load (p : Place) : Op T N T := do
  let cells ← array p.area
  MonadExcept.ofExcept (Cells.read cells p.index)

def store (p : Place) (x : T) : Op T N Unit := do
  let cells ← array p.area
  let cells ← MonadExcept.ofExcept (Cells.write cells p.index x)
  setArray p.area cells

/-- `new T[n]`. -/
def newArray (faults : Faults) (n : ℤ) : Op T N ℕ := do
  failIf (n < 0) (.exception "std::bad_array_new_length")
  failIf (faults.allocation) (.exception "std::bad_alloc")
  let v ← get
  modify fun v => { v with
    heap := Function.update v.heap v.fresh (some (Cells.indeterminate n.toNat))
    fresh := v.fresh + 1 }
  pure v.fresh

def deleteArray : Option ℕ → Op T N Unit
  | none => pure ()
  | some block => do
    let _ ← array (.heap block)
    modify fun v => { v with heap := Function.update v.heap block none }

/-- `for (int i = 0; i < n; i ++ ) heap_vec[i] = src[i];` -/
def copyLoop (faults : Faults) (src : ℕ → Op T N Place) : ℕ → Op T N Unit
  | 0 => pure ()
  | i + 1 => do
    copyLoop faults src i
    let source ← src i
    let target ← heapElement i
    let x ← load source
    failIf (faults.copy i) (.exception "copy assignment")
    store target x

def grow (faults : Faults) : Op T N Unit := do
  modify fun v => { v with vecCapacity := Int.bmod (2 * v.vecCapacity) (2 ^ 32) }
  let v ← get
  let oldHeapVec := v.heapVec
  let block ← newArray faults v.vecCapacity
  modify fun v => { v with heapVec := some block }
  (if v.vecSize = N then
    copyLoop faults (fun i => element .stack i) v.vecSize.toNat
  else
    copyLoop faults (fun i => match oldHeapVec with
      | none => throw (.undefined "null pointer")
      | some old => element (.heap old) i) v.vecSize.toNat)
  deleteArray oldHeapVec

/-- `T& operator[](int idx)`. -/
def index (idx : ℤ) : Op T N Place := do
  let v ← get
  if v.vecSize ≤ N then element .stack idx else heapElement idx

/-- `vec_size ++`. -/
def postIncrement : Op T N ℤ := do
  let v ← get
  failIf (v.vecSize = intMax) (.undefined "int overflow")
  modify fun v => { v with vecSize := v.vecSize + 1 }
  pure v.vecSize

/-- The constructor of the new element reads its argument by `arg`. -/
def emplaceBack (faults : Faults) (arg : Op T N T) : Op T N Unit := do
  let v ← get
  if v.vecSize < N then
    let size ← postIncrement
    let p ← element .stack size
    let x ← arg
    failIf (faults.construction) (.exception "constructor")
    store p x
  else
    (if v.vecSize = v.vecCapacity then grow faults else pure ())
    let size ← postIncrement
    let p ← heapElement size
    let x ← arg
    failIf (faults.construction) (.exception "constructor")
    store p x

/-- `v[idx] = x;` -/
def assign (idx : ℤ) (x : T) : Op T N Unit := do
  let p ← index idx
  store p x

end Vec

end ModCpp
