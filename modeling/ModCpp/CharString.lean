import Mathlib.Logic.Function.Basic
import ModCpp.Cells

/-!
# The character string

A `string` owns a buffer of exactly `str_len` characters; its `data` is null after a move.
Buffers have names that are not used again, so the lists of the names made and freed
tell what happened to each buffer.
-/

namespace ModCpp

structure CharString (ι : Type) where
  data : Option ι
  strLen : ℕ
  deriving DecidableEq

/-- The character arrays of a program; a deleted one has no cells. -/
structure Buffers (ι : Type) where
  cells : ι → Option (Cells UInt8)
  made : List ι
  freed : List ι

namespace Buffers
variable {ι : Type} [DecidableEq ι]

def newArray (m : Buffers ι) (n : ℤ) (block : ι) : Except Failure (Buffers ι) :=
  if n < 0 then throw (.exception "std::bad_array_new_length")
  else pure { m with
    cells := Function.update m.cells block (some (Cells.indeterminate n.toNat))
    made := m.made ++ [block] }

def deleteArray (m : Buffers ι) : Option ι → Except Failure (Buffers ι)
  | none => pure m
  | some block =>
    match m.cells block with
    | none => throw (.undefined "delete of a buffer that is not alive")
    | some _ => pure { m with
        cells := Function.update m.cells block none
        freed := m.freed ++ [block] }

def array (m : Buffers ι) (block : ι) : Except Failure (Cells UInt8) :=
  match m.cells block with
  | none => throw (.undefined "access to a buffer that is not alive")
  | some cells => pure cells

def setArray (m : Buffers ι) (block : ι) (cells : Cells UInt8) : Buffers ι :=
  { m with cells := Function.update m.cells block (some cells) }

/-- `for (int i = 0; i < n; i ++ ) data[i] = src(i);`, where `src` does not read from `data`. -/
def fill (m : Buffers ι) (block : ι) (src : ℕ → Except Failure UInt8) (n : ℕ) :
    Except Failure (Buffers ι) := do
  let cells ← m.array block
  let cells ← Cells.fill src n cells
  pure (m.setArray block cells)

end Buffers

/-- The length of the string at the start of `str`, the memory from a pointer on. -/
def strlen : Cells UInt8 → Except Failure ℕ
  | [] => throw (.undefined "read past the end of an array")
  | none :: _ => throw (.undefined "indeterminate value read")
  | some c :: str => if c = 0 then pure 0 else do
      let n ← strlen str
      pure (n + 1)

/-- The memory from the start of the C string `text` on. -/
def cString (text : List UInt8) (rest : Cells UInt8) : Cells UInt8 :=
  text.map some ++ some 0 :: rest

namespace CharString
variable {ι : Type} [DecidableEq ι]

def size (s : CharString ι) : ℕ := s.strLen

/-- `string::operator[]`: the buffer and the place in it that the reference is to. -/
def index (s : CharString ι) (idx : ℤ) : Except Failure (ι × ℕ) :=
  if idx < 0 ∨ s.size ≤ toUint64 idx then throw (.exception "index outof bound")
  else match s.data with
    | none => throw (.undefined "null pointer")
    | some block => pure (block, idx.toNat)

def get (s : CharString ι) (m : Buffers ι) (idx : ℤ) : Except Failure UInt8 := do
  let place ← s.index idx
  let cells ← m.array place.1
  Cells.read cells place.2

def createAndCopy (m : Buffers ι) (rhs : CharString ι) (block : ι) :
    Except Failure (CharString ι × Buffers ι) := do
  let n := toInt rhs.size
  let m ← m.newArray n block
  let m ← m.fill block (fun i => rhs.get m i) n.toNat
  pure (⟨some block, toUint64 n⟩, m)

/-- `string(const char *str)`. -/
def construct (m : Buffers ι) (str : Cells UInt8) (block : ι) :
    Except Failure (CharString ι × Buffers ι) := do
  let len ← strlen str
  let n := toInt len
  let m ← m.newArray n block
  let m ← m.fill block (Cells.read str) n.toNat
  pure (⟨some block, toUint64 n⟩, m)

/-- What both assignments begin with. -/
def release (m : Buffers ι) (s : CharString ι) : Except Failure (CharString ι × Buffers ι) :=
  match s.data with
  | none => pure (s, m)
  | some _ => do
    let m ← m.deleteArray s.data
    pure (⟨none, 0⟩, m)

/-- The variables of a program; one that is not alive has no fields. -/
structure Program (σ ι : Type) where
  var : σ → Option (CharString ι)
  buffers : Buffers ι

inductive Event (σ ι : Type)
  | construct (x : σ) (text : List UInt8) (rest : Cells UInt8) (block : ι)
  | copy (x y : σ) (block : ι)
  | copyAssign (x y : σ) (block : ι)
  | move (x y : σ)
  | moveAssign (x y : σ)
  | write (x : σ) (idx : ℤ) (c : UInt8)
  | destroy (x : σ)

namespace Program
variable {σ : Type} [DecidableEq σ]

def empty : Program σ ι := ⟨fun _ => none, ⟨fun _ => none, [], []⟩⟩

def object (s : Program σ ι) (x : σ) : Except Failure (CharString ι) :=
  match s.var x with
  | none => throw (.undefined "variable that is not alive")
  | some v => pure v

def put (s : Program σ ι) (x : σ) (v : CharString ι) : Program σ ι :=
  { s with var := Function.update s.var x (some v) }

def exec (s : Program σ ι) : Event σ ι → Except Failure (Program σ ι)
  | .construct x text rest block => do
    let (this, m) ← construct s.buffers (cString text rest) block
    pure ({ s with buffers := m }.put x this)
  | .copy x y block => do
    let rhs ← s.object y
    let (this, m) ← createAndCopy s.buffers rhs block
    pure ({ s with buffers := m }.put x this)
  | .copyAssign x y block =>
    if x = y then pure s
    else do
      let this ← s.object x
      let (this, m) ← release s.buffers this
      let s := { s with buffers := m }.put x this
      let rhs ← s.object y
      let (this, m) ← createAndCopy s.buffers rhs block
      pure ({ s with buffers := m }.put x this)
  | .move x y => do
    let rhs ← s.object y
    pure ((s.put y ⟨none, 0⟩).put x ⟨rhs.data, rhs.size⟩)
  | .moveAssign x y => do
    assert (x ≠ y) "this != &rhs"
    let this ← s.object x
    let (this, m) ← release s.buffers this
    let rhs ← s.object y
    -- `str_len` keeps the value that `release` left
    pure (({ s with buffers := m }.put y ⟨none, 0⟩).put x ⟨rhs.data, this.strLen⟩)
  | .write x idx c => do
    let this ← s.object x
    match this.index idx with
    -- the caller goes on after the exception
    | .error (.exception _) => pure s
    | .error e => throw e
    | .ok place => do
      let cells ← s.buffers.array place.1
      let cells ← Cells.write cells place.2 c
      pure { s with buffers := s.buffers.setArray place.1 cells }
  | .destroy x => do
    let this ← s.object x
    let m ← s.buffers.deleteArray this.data
    pure { var := Function.update s.var x none, buffers := m }

/-- A new variable is not alive before and a buffer gets a new name. -/
def Admissible (s : Program σ ι) : Event σ ι → Prop
  | .construct x text _ block => s.var x = none ∧ 0 ∉ text ∧ block ∉ s.buffers.made
  | .copy x y block => s.var x = none ∧ (s.var y).isSome ∧ block ∉ s.buffers.made
  | .copyAssign x y block => (s.var x).isSome ∧ (s.var y).isSome ∧ block ∉ s.buffers.made
  | .move x y => s.var x = none ∧ (s.var y).isSome
  | .moveAssign x y => (s.var x).isSome ∧ (s.var y).isSome ∧ x ≠ y
  | .write x idx _ => (s.var x).isSome ∧ -2 ^ 31 ≤ idx ∧ idx < 2 ^ 31
  | .destroy x => (s.var x).isSome

instance (s : Program σ ι) : DecidablePred s.Admissible := by
  intro e
  cases e <;> (unfold Admissible; infer_instance)

end Program

end CharString

end ModCpp
