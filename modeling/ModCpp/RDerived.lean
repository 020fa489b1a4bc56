import Mathlib.Data.Finset.Basic
import Mathlib.Logic.Function.Basic
import ModCpp.Actions
import ModCpp.Ledger
import ModCpp.Runs

/-!
# Objects that own a socket and two blocks

`RDerived<T>` of ro5.cc, with its base `RBase<T>`: the constructors and the destructor. Blocks
are numbered in the order in which `new` makes them. `socket()` returns `-1` or a descriptor
that is not open. The two logs list what was acquired and released.
-/

namespace ModCpp

structure RBase where
  data : Option ℕ
  deriving DecidableEq, Repr

structure RDerived extends RBase where
  derivedData : Option ℕ
  sockfd : ℤ
  deriving DecidableEq, Repr

namespace RDerived

structure World (T : Type) where
  /-- The living blocks. -/
  heap : ℕ → Option T
  /-- The number of the next block. -/
  fresh : ℕ
  openFds : Finset ℤ
  objects : List RDerived
  blockLog : Ledger ℕ
  socketLog : Ledger ℤ

variable {T : Type}

namespace World

/-- The world after `new`, `delete` of a block, a write to a block, `socket` and `close`. -/
def alloc [Inhabited T] (w : World T) : World T :=
  { w with
    heap := Function.update w.heap w.fresh (some default)
    fresh := w.fresh + 1
    blockLog := w.blockLog ++ [(w.fresh, .acquire)] }

def free (w : World T) (block : ℕ) : World T :=
  { w with
    heap := Function.update w.heap block none
    blockLog := w.blockLog ++ [(block, .release)] }

def put (w : World T) (block : ℕ) (x : T) : World T :=
  { w with heap := Function.update w.heap block (some x) }

def opened (w : World T) (fd : ℤ) : World T :=
  { w with
    openFds := insert fd w.openFds
    socketLog := w.socketLog ++ [(fd, .acquire)] }

def closed (w : World T) (fd : ℤ) : World T :=
  { w with
    openFds := w.openFds.erase fd
    socketLog := w.socketLog ++ [(fd, .release)] }

end World

/-- `new T()`. -/
def newBlock [Inhabited T] : Action (World T) ℕ := do
  let w ← get
  modify World.alloc
  pure w.fresh

def deleteBlock : Option ℕ → Action (World T) Unit
  | none => pure ()
  | some block => do
    let w ← get
    Action.failIf (w.heap block = none) (.undefined "delete of a block that is not alive")
    modify fun w => w.free block

/-- `memcpy(dst, src, sizeof (T))`. -/
def memcpy (dst : ℕ) : Option ℕ → Action (World T) Unit
  | none => throw (.undefined "null pointer")
  | some src => do
    let w ← get
    Action.failIf (w.heap dst = none) (.undefined "access to a block that is not alive")
    match w.heap src with
    | none => throw (.undefined "access to a block that is not alive")
    | some x => modify fun w => w.put dst x

/-- `socket(AF_INET, SOCK_STREAM, 0)`, returning `fd`. -/
def socket (fd : ℤ) : Action (World T) ℤ := do
  (if fd = -1 then pure () else modify fun w => w.opened fd)
  pure fd

def close (fd : ℤ) : Action (World T) Unit := modify fun w => w.closed fd

def baseConstruct [Inhabited T] : Action (World T) RBase := do
  let data ← newBlock
  pure ⟨some data⟩

def baseCopy [Inhabited T] (rhs : RBase) : Action (World T) RBase := do
  let data ← newBlock
  memcpy data rhs.data
  pure ⟨some data⟩

/-- The new object and what is left of `rhs`. -/
def baseMove (rhs : RBase) : RBase × RBase := (⟨rhs.data⟩, ⟨none⟩)

def baseDestroy (b : RBase) : Action (World T) Unit := deleteBlock b.data

/-- `RDerived()`; a failure after the base is complete destroys the base. -/
def construct [Inhabited T] (fd : ℤ) : Action (World T) RDerived := do
  let base ← baseConstruct
  Action.unwinding (baseDestroy base) do
    let derivedData ← newBlock
    let sockfd ← socket fd
    (if sockfd = -1 then do
      deleteBlock (some derivedData)
      throw (.exception "Error creating socket")
    else pure ())
    pure ⟨base, some derivedData, sockfd⟩

/-- `RDerived(const RDerived& rhs)`. -/
def copy [Inhabited T] (rhs : RDerived) (fd : ℤ) : Action (World T) RDerived := do
  let base ← baseCopy rhs.toRBase
  Action.unwinding (baseDestroy base) do
    let derivedData ← newBlock
    let sockfd ← socket fd
    (if sockfd = -1 then do
      deleteBlock (some derivedData)
      throw (.exception "Error creating socket")
    else pure ())
    memcpy derivedData rhs.derivedData
    pure ⟨base, some derivedData, sockfd⟩

/-- `RDerived(RDerived&& rhs)`: the new object and what is left of `rhs`. -/
def move (rhs : RDerived) : RDerived × RDerived :=
  let (base, rest) := baseMove rhs.toRBase
  (⟨base, rhs.derivedData, rhs.sockfd⟩, ⟨rest, none, 0⟩)

/-- `~RDerived()`, then the destructor of the base. -/
def destroy (o : RDerived) : Action (World T) Unit := do
  close o.sockfd
  deleteBlock o.derivedData
  baseDestroy o.toRBase

/-- What a program does with such objects; the complete ones stand in a list. -/
inductive Event
  | construct (fd : ℤ)
  | copy (i : ℕ) (fd : ℤ)
  | move (i : ℕ)
  | destroy (i : ℕ)
  deriving DecidableEq, Repr

def SocketReturns (w : World T) (fd : ℤ) : Prop := fd = -1 ∨ 0 ≤ fd ∧ fd ∉ w.openFds

def Admissible (w : World T) : Event → Prop
  | .construct fd => SocketReturns w fd
  | .copy i fd => i < w.objects.length ∧ SocketReturns w fd
  | .move i | .destroy i => i < w.objects.length

instance (w : World T) : (e : Event) → Decidable (Admissible w e)
  | .construct _ => inferInstanceAs (Decidable (_ ∨ _))
  | .copy _ _ => inferInstanceAs (Decidable (_ ∧ (_ ∨ _)))
  | .move _ | .destroy _ => inferInstanceAs (Decidable (_ < _))

/-- The object that a constructor makes is there only if it does not throw. -/
def store : Except Failure RDerived × World T → Except Failure (World T)
  | (.ok o, w) => .ok { w with objects := w.objects ++ [o] }
  | (.error (.exception _), w) => .ok w
  | (.error e, _) => .error e

def object (w : World T) (i : ℕ) : Except Failure RDerived :=
  match w.objects[i]? with
  | some o => .ok o
  | none => .error (.undefined "no such object")

def next [Inhabited T] (w : World T) : Event → Except Failure (World T)
  | .construct fd => store (Action.exec (construct fd) w)
  | .copy i fd => do
    let rhs ← object w i
    store (Action.exec (copy rhs fd) w)
  | .move i => do
    let rhs ← object w i
    let (o, rest) := move rhs
    pure { w with objects := w.objects.set i rest ++ [o] }
  | .destroy i => do
    let o ← object w i
    match Action.exec (destroy o) w with
    | (.ok (), w) => pure { w with objects := w.objects.eraseIdx i }
    | (.error e, _) => throw e

/-- Programs that start without such objects, where some descriptors are open already. -/
def system (T : Type) [Inhabited T] : System (World T) Event :=
  System.guarded (fun w => ∃ openFds, w = ⟨fun _ => none, 0, openFds, [], [], []⟩) Admissible next

def isMove : Event → Bool
  | .move _ => true
  | _ => false

end RDerived

end ModCpp
