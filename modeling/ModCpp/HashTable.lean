import ModCpp.KeyedList
import ModCpp.MachineWord
import ModCpp.Runs

/-!
# `HashTable` (`hash_table.cc`)

An array of lists of nodes. A call of `operator[]` gives a reference to a node, through which it is
read or assigned. Keys are compared by their `==`, which may call different keys equal. A table
behaves as a map, whatever the hash function is.
-/

namespace ModCpp
open KeyedList

structure HashTable (Key Value : Type) (DefaultSize : ℕ) where
  table : Fin DefaultSize → List (Key × Value)
  len : ℕ

namespace HashTable
variable {Key Value : Type} {DefaultSize : ℕ}

def empty : HashTable Key Value DefaultSize := ⟨fun _ => [], 0⟩

def size (t : HashTable Key Value DefaultSize) : ℕ := t.len

inductive Call (Key Value : Type)
  | index (key : Key)
  | assign (key : Key) (value : Value)
  | erase (key : Key)
  | count (key : Key)

inductive Ret (Value : Type)
  | value (v : Value)
  | found (b : Bool)
  | done

section code
variable (hash_func : Key → ℕ) (t : HashTable Key Value DefaultSize)

def getHash (key : Key) : Except Failure (Fin DefaultSize) :=
  if h : hash_func key < DefaultSize then pure ⟨hash_func key, h⟩
  else throw (.assertion "hash_val >= 0 && hash_val < table.size()")

def setList (hash_val : Fin DefaultSize) (list : List (Key × Value)) :
    HashTable Key Value DefaultSize :=
  { t with table := Function.update t.table hash_val list }

/-- The value that a reference to the node at `iter` of a list reads. -/
def load (ref : Fin DefaultSize × ℕ) : Except Failure Value :=
  match (t.table ref.1)[ref.2]? with
  | none => throw (.undefined "reference to no node")
  | some node => pure node.2

def store (ref : Fin DefaultSize × ℕ) (value : Value) :
    Except Failure (HashTable Key Value DefaultSize) :=
  match (t.table ref.1)[ref.2]? with
  | none => throw (.undefined "reference to no node")
  | some _ =>
    pure (t.setList ref.1 ((t.table ref.1).modify ref.2 fun node => (node.1, value)))

variable [BEq Key]

/-- `operator[]` -/
def index [Inhabited Value] (key : Key) :
    Except Failure ((Fin DefaultSize × ℕ) × HashTable Key Value DefaultSize) := do
  let hash_val ← getHash hash_func key
  let list := t.table hash_val
  let iter := position key list
  if iter ≠ list.length then return ((hash_val, iter), t)
  else
    let t := { t with len := add64 t.len 1 }
    return ((hash_val, list.length), t.setList hash_val (list ++ [(key, default)]))

def erase (key : Key) : Except Failure (HashTable Key Value DefaultSize) := do
  let hash_val ← getHash hash_func key
  let list := t.table hash_val
  let iter := position key list
  if iter = list.length then return t else return t.setList hash_val (list.eraseIdx iter)

def count (key : Key) : Except Failure Bool := do
  let hash_val ← getHash hash_func key
  let list := t.table hash_val
  return decide (position key list ≠ list.length)

def invoke [Inhabited Value] :
    Call Key Value → Except Failure (Ret Value × HashTable Key Value DefaultSize)
  | .index key => do
    let (ref, t) ← index hash_func t key
    let value ← t.load ref
    return (.value value, t)
  | .assign key value => do
    let (ref, t) ← index hash_func t key
    let t ← t.store ref value
    return (.done, t)
  | .erase key => do
    let t ← erase hash_func t key
    return (.done, t)
  | .count key => do
    let b ← count hash_func t key
    return (.found b, t)

def tableSystem [Inhabited Value] :
    System (HashTable Key Value DefaultSize) (Call Key Value × Ret Value) where
  init t := t = empty
  step t e t' := invoke hash_func t e.1 = .ok (e.2, t')

end code

section map
variable [BEq Key]

/-- The map in which all keys equal to `key` are bound to `v` or, if that is none, unbound. -/
def bind (m : Key → Option Value) (key : Key) (v : Option Value) : Key → Option Value :=
  fun k => if key == k then v else m k

/-- What a map answers to a call, and what it is after it. -/
def map [Inhabited Value] (m : Key → Option Value) :
    Call Key Value → Ret Value × (Key → Option Value)
  | .index key => (.value ((m key).getD default), bind m key (some ((m key).getD default)))
  | .assign key value => (.done, bind m key (some value))
  | .erase key => (.done, bind m key none)
  | .count key => (.found (m key).isSome, m)

def mapSystem [Inhabited Value] : System (Key → Option Value) (Call Key Value × Ret Value) where
  init m := m = fun _ => none
  step m e m' := map m e.1 = (e.2, m')

theorem map_deterministic [Inhabited Value] {tr tr' : List (Call Key Value × Ret Value)}
    {m m' : Key → Option Value} (hr : mapSystem.Run System.always tr m)
    (hr' : mapSystem.Run System.always tr' m') (hc : tr'.map Prod.fst = tr.map Prod.fst) :
    tr' = tr ∧ m' = m := by
  refine System.run_deterministic ?_ ?_ hr hr' hc
  · intro m m' hm hm'
    exact hm'.trans hm.symm
  · intro m e m₁ e' m₂ hs hs' he
    obtain ⟨c, r⟩ := e
    obtain ⟨c', r'⟩ := e'
    obtain rfl : c' = c := he
    have hsame := hs'.symm.trans hs
    cases hsame
    exact ⟨rfl, rfl⟩

end map

end HashTable

end ModCpp
