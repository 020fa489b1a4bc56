import ModCpp.LinkedChain
import ModCpp.Runs

/-!
# The lockless stack

`lockless_stack<T>` chains its nodes through `prev` from the atomic `head`. A push links a
new node to the head it read and exchanges `head` for it; a pop exchanges `head` for the
`prev` it read, takes the data and deletes the node. Memory maps an address to its node,
or to nothing once the node is deleted; a read of a deleted node may give any value. The
weak exchange may fail for no reason.
-/

namespace ModCpp.LocklessStack

structure Node (κ α : Type*) where
  prev : Option κ
  data : α
  deriving DecidableEq

/-- Where a thread stands in `push` or `pop`, with its local variables. -/
inductive Pc (κ α : Type*)
  | idle
  | pushLoad (data : α) (newNode : κ)
  | pushLink (data : α) (newNode : κ) (curHead : Option κ)
  | pushExchange (data : α) (newNode : κ) (curHead : Option κ)
  | popTest (curHead : Option κ)
  | popExchange (curHead : κ) (prev : Option κ)
  | popRead (curHead : κ)
  | popDelete (curHead : κ) (ans : α)

structure Stack (τ κ α : Type*) where
  head : Option κ
  mem : κ → Option (Node κ α)
  pc : τ → Pc κ α

/-- What one step does. An event carries what the step is free to choose: the address of a
new node, the outcome of an exchange, what a read returns. -/
inductive Event (τ κ α : Type*)
  | pushNew (t : τ) (data : α) (newNode : κ)
  | pushLoad (t : τ)
  | pushLink (t : τ)
  | pushExchange (t : τ) (data : α) (newNode : κ) (success : Bool)
  | popLoad (t : τ)
  | popEmpty (t : τ)
  | popPrev (t : τ) (prev : Option κ)
  | popExchange (t : τ) (curHead : κ) (success : Bool)
  | popRead (t : τ) (ans : α)
  | popDelete (t : τ) (curHead : κ) (ans : α)

variable {τ κ α : Type*}

def Stack.prevOf (s : Stack τ κ α) (a : κ) : Option κ := (s.mem a).bind Node.prev

def Stack.dataAt (s : Stack τ κ α) (a : κ) : Option α := (s.mem a).map Node.data

/-- A read of a field gives the value of a living node, and any value otherwise. -/
def Reads {β : Type*} (field : Node κ α → β) (n : Option (Node κ α)) (value : β) : Prop :=
  ∀ m ∈ n, field m = value

instance {β : Type*} [DecidableEq β] (field : Node κ α → β) (n : Option (Node κ α)) (value : β) :
    Decidable (Reads field n value) :=
  match n with
  | none => isTrue (by simp [Reads])
  | some m => decidable_of_iff (field m = value) (by simp [Reads])

variable [DecidableEq τ]

section steps
variable [DecidableEq κ]

def Stack.goto (s : Stack τ κ α) (t : τ) (pc : Pc κ α) : Stack τ κ α :=
  { s with pc := Function.update s.pc t pc }

def Stack.write (s : Stack τ κ α) (a : κ) (n : Option (Node κ α)) : Stack τ κ α :=
  { s with mem := Function.update s.mem a n }

def next [DecidableEq α] (s : Stack τ κ α) : Event τ κ α → Option (Stack τ κ α)
  | .pushNew t data newNode =>
    match s.pc t, s.mem newNode with
    | .idle, none => some ((s.write newNode (some ⟨none, data⟩)).goto t (.pushLoad data newNode))
    | _, _ => none
  | .pushLoad t =>
    match s.pc t with
    | .pushLoad data newNode => some (s.goto t (.pushLink data newNode s.head))
    | _ => none
  | .pushLink t =>
    match s.pc t with
    | .pushLink data newNode curHead =>
      some ((s.write newNode ((s.mem newNode).map fun n => { n with prev := curHead })).goto t
        (.pushExchange data newNode curHead))
    | _ => none
  | .pushExchange t data newNode success =>
    match s.pc t with
    | .pushExchange data' newNode' curHead =>
      if data' ≠ data ∨ newNode' ≠ newNode then none
      else if success then
        if s.head = curHead then some ({ s with head := some newNode }.goto t .idle) else none
      else some (s.goto t (.pushLink data newNode s.head))
    | _ => none
  | .popLoad t =>
    match s.pc t with
    | .idle => some (s.goto t (.popTest s.head))
    | _ => none
  | .popEmpty t =>
    match s.pc t with
    | .popTest none => some (s.goto t .idle)
    | _ => none
  | .popPrev t prev =>
    match s.pc t with
    | .popTest (some curHead) =>
      if Reads Node.prev (s.mem curHead) prev then some (s.goto t (.popExchange curHead prev))
      else none
    | _ => none
  | .popExchange t curHead success =>
    match s.pc t with
    | .popExchange curHead' prev =>
      if curHead' ≠ curHead then none
      else if success then
        if s.head = some curHead then some ({ s with head := prev }.goto t (.popRead curHead))
        else none
      else some (s.goto t (.popTest s.head))
    | _ => none
  | .popRead t ans =>
    match s.pc t with
    | .popRead curHead =>
      if Reads Node.data (s.mem curHead) ans then some (s.goto t (.popDelete curHead ans))
      else none
    | _ => none
  | .popDelete t curHead ans =>
    match s.pc t with
    | .popDelete curHead' ans' =>
      if curHead' ≠ curHead ∨ ans' ≠ ans then none
      else some ((s.write curHead none).goto t .idle)
    | _ => none

def system [DecidableEq α] : System (Stack τ κ α) (Event τ κ α) where
  init s := s = ⟨none, fun _ => none, fun _ => .idle⟩
  step s e s' := next s e = some s'

inductive Step (s : Stack τ κ α) : Event τ κ α → Stack τ κ α → Prop
  | pushNew {t : τ} (data : α) {newNode : κ} : s.pc t = .idle → s.mem newNode = none →
      Step s (.pushNew t data newNode)
        ((s.write newNode (some ⟨none, data⟩)).goto t (.pushLoad data newNode))
  | pushLoad {t : τ} {data : α} {newNode : κ} : s.pc t = .pushLoad data newNode →
      Step s (.pushLoad t) (s.goto t (.pushLink data newNode s.head))
  | pushLink {t : τ} {data : α} {newNode : κ} {curHead : Option κ} :
      s.pc t = .pushLink data newNode curHead →
      Step s (.pushLink t)
        ((s.write newNode ((s.mem newNode).map fun n => { n with prev := curHead })).goto t
          (.pushExchange data newNode curHead))
  | pushSwapped {t : τ} {data : α} {newNode : κ} {curHead : Option κ} :
      s.pc t = .pushExchange data newNode curHead → s.head = curHead →
      Step s (.pushExchange t data newNode true) ({ s with head := some newNode }.goto t .idle)
  | pushRetried {t : τ} {data : α} {newNode : κ} {curHead : Option κ} :
      s.pc t = .pushExchange data newNode curHead →
      Step s (.pushExchange t data newNode false) (s.goto t (.pushLink data newNode s.head))
  | popLoad {t : τ} : s.pc t = .idle → Step s (.popLoad t) (s.goto t (.popTest s.head))
  | popEmpty {t : τ} : s.pc t = .popTest none → Step s (.popEmpty t) (s.goto t .idle)
  | popPrev {t : τ} {curHead : κ} {prev : Option κ} : s.pc t = .popTest (some curHead) →
      Reads Node.prev (s.mem curHead) prev →
      Step s (.popPrev t prev) (s.goto t (.popExchange curHead prev))
  | popSwapped {t : τ} {curHead : κ} {prev : Option κ} : s.pc t = .popExchange curHead prev →
      s.head = some curHead →
      Step s (.popExchange t curHead true) ({ s with head := prev }.goto t (.popRead curHead))
  | popRetried {t : τ} {curHead : κ} {prev : Option κ} : s.pc t = .popExchange curHead prev →
      Step s (.popExchange t curHead false) (s.goto t (.popTest s.head))
  | popRead {t : τ} {curHead : κ} {ans : α} : s.pc t = .popRead curHead →
      Reads Node.data (s.mem curHead) ans →
      Step s (.popRead t ans) (s.goto t (.popDelete curHead ans))
  | popDelete {t : τ} {curHead : κ} {ans : α} : s.pc t = .popDelete curHead ans →
      Step s (.popDelete t curHead ans) ((s.write curHead none).goto t .idle)

theorem step_cases [DecidableEq α] {s s' : Stack τ κ α} {e : Event τ κ α}
    (h : system.step s e s') : Step s e s' := by
  change next s e = some s' at h
  cases e with
  | pushNew t data newNode =>
    rw [next] at h
    split at h
    next hpc hmem => cases h; exact .pushNew data hpc hmem
    next => cases h
  | pushLoad t =>
    rw [next] at h
    split at h
    next hpc => cases h; exact .pushLoad hpc
    next => cases h
  | pushLink t =>
    rw [next] at h
    split at h
    next hpc => cases h; exact .pushLink hpc
    next => cases h
  | pushExchange t data newNode success =>
    rw [next] at h
    split at h
    next hpc =>
      split_ifs at h with hargs hsuccess hhead
      · rw [not_or, not_not, not_not] at hargs
        obtain ⟨rfl, rfl⟩ := hargs
        cases h
        rw [hsuccess]
        exact .pushSwapped hpc hhead
      · rw [not_or, not_not, not_not] at hargs
        obtain ⟨rfl, rfl⟩ := hargs
        cases h
        rw [Bool.eq_false_iff.mpr hsuccess]
        exact .pushRetried hpc
    next => cases h
  | popLoad t =>
    rw [next] at h
    split at h
    next hpc => cases h; exact .popLoad hpc
    next => cases h
  | popEmpty t =>
    rw [next] at h
    split at h
    next hpc => cases h; exact .popEmpty hpc
    next => cases h
  | popPrev t prev =>
    rw [next] at h
    split at h
    next hpc =>
      split_ifs at h with hread
      cases h
      exact .popPrev hpc hread
    next => cases h
  | popExchange t curHead success =>
    rw [next] at h
    split at h
    next hpc =>
      split_ifs at h with harg hsuccess hhead
      · rw [not_not] at harg
        subst harg
        cases h
        rw [hsuccess]
        exact .popSwapped hpc hhead
      · rw [not_not] at harg
        subst harg
        cases h
        rw [Bool.eq_false_iff.mpr hsuccess]
        exact .popRetried hpc
    next => cases h
  | popRead t ans =>
    rw [next] at h
    split at h
    next hpc =>
      split_ifs at h with hread
      cases h
      exact .popRead hpc hread
    next => cases h
  | popDelete t curHead ans =>
    rw [next] at h
    split at h
    next hpc =>
      split_ifs at h with hargs
      rw [not_or, not_not, not_not] at hargs
      obtain ⟨rfl, rfl⟩ := hargs
      cases h
      exact .popDelete hpc
    next => cases h

end steps

inductive Exchange (κ α : Type*)
  | push (node : κ) (data : α)
  | pop (node : κ)

/-- The nodes pushed by an exchange and not yet removed by one, the last pushed first. -/
def pushedNodes [DecidableEq κ] (exchanges : List (Exchange κ α)) : List κ :=
  exchanges.foldl (fun nodes x => match x with
    | .push node _ => node :: nodes
    | .pop node => nodes.erase node) []

theorem pushedNodes_push [DecidableEq κ] (xs : List (Exchange κ α)) (node : κ) (data : α) :
    pushedNodes (xs ++ [.push node data]) = node :: pushedNodes xs := by
  simp [pushedNodes]

theorem pushedNodes_pop [DecidableEq κ] (xs : List (Exchange κ α)) (node : κ) :
    pushedNodes (xs ++ [.pop node]) = (pushedNodes xs).erase node := by
  simp [pushedNodes]

/-- The exchanges replayed on a sequential stack: its content, and what each pop gave. -/
def lifo (exchanges : List (Exchange κ α)) : List α × List (Option α) :=
  exchanges.foldl (fun (stk, outs) x => match x with
    | .push _ data => (data :: stk, outs)
    | .pop _ => (stk.tail, outs ++ [stk.head?])) ([], [])

theorem lifo_push (xs : List (Exchange κ α)) (node : κ) (data : α) :
    lifo (xs ++ [.push node data]) = (data :: (lifo xs).1, (lifo xs).2) := by
  simp [lifo]

theorem lifo_pop (xs : List (Exchange κ α)) (node : κ) :
    lifo (xs ++ [.pop node]) = ((lifo xs).1.tail, (lifo xs).2 ++ [(lifo xs).1.head?]) := by
  simp [lifo]

/-- What a run has done so far: the addresses `new` has returned, the successful exchanges,
the nodes deleted since a thread last read `head` in a pop, the rank of a thread's last
successful exchange among those of the pops, and the values returned with these ranks. -/
structure History (τ κ α : Type*) where
  used : List κ
  exchanges : List (Exchange κ α)
  freed : τ → List κ
  rank : τ → ℕ
  returned : List (ℕ × α)

def History.empty : History τ κ α := ⟨[], [], fun _ => [], fun _ => 0, []⟩

def History.record (h : History τ κ α) : Event τ κ α → History τ κ α
  | .pushNew _ _ newNode => { h with used := newNode :: h.used }
  | .pushLoad _ => h
  | .pushLink _ => h
  | .pushExchange _ data newNode true =>
    { h with exchanges := h.exchanges ++ [.push newNode data] }
  | .pushExchange _ _ _ false => h
  | .popLoad t => { h with freed := Function.update h.freed t [] }
  | .popEmpty _ => h
  | .popPrev _ _ => h
  | .popExchange t curHead true =>
    { h with
      exchanges := h.exchanges ++ [.pop curHead]
      rank := Function.update h.rank t (lifo h.exchanges).2.length }
  | .popExchange t _ false => { h with freed := Function.update h.freed t [] }
  | .popRead _ _ => h
  | .popDelete t curHead ans =>
    { h with
      freed := fun u => curHead :: h.freed u
      returned := h.returned ++ [(h.rank t, ans)] }

def hist (tr : List (Event τ κ α)) : History τ κ α := history History.record .empty tr

@[simp] theorem hist_nil : hist ([] : List (Event τ κ α)) = .empty := rfl

@[simp] theorem hist_concat (tr : List (Event τ κ α)) (e : Event τ κ α) :
    hist (tr ++ [e]) = (hist tr).record e := history_concat _ _ _ _

/-- `new` returns no address it has returned before. -/
def History.NoReuse (h : History τ κ α) : Event τ κ α → Prop
  | .pushNew _ _ newNode => newNode ∉ h.used
  | _ => True

/-- No exchange of a pop succeeds on a node deleted since the thread last read `head`. -/
def History.AbaFree (h : History τ κ α) : Event τ κ α → Prop
  | .popExchange t curHead true => curHead ∉ h.freed t
  | _ => True

instance [DecidableEq κ] (h : History τ κ α) : (e : Event τ κ α) → Decidable (h.NoReuse e)
  | .pushNew _ _ _ => inferInstanceAs (Decidable (_ ∉ _))
  | .pushLoad _ | .pushLink _ | .pushExchange _ _ _ _ | .popLoad _ | .popEmpty _ | .popPrev _ _
  | .popExchange _ _ _ | .popRead _ _ | .popDelete _ _ _ => inferInstanceAs (Decidable True)

instance [DecidableEq κ] (h : History τ κ α) : (e : Event τ κ α) → Decidable (h.AbaFree e)
  | .popExchange _ _ true => inferInstanceAs (Decidable (_ ∉ _))
  | .popExchange _ _ false | .pushNew _ _ _ | .pushLoad _ | .pushLink _ | .pushExchange _ _ _ _
  | .popLoad _ | .popEmpty _ | .popPrev _ _ | .popRead _ _ | .popDelete _ _ _ =>
    inferInstanceAs (Decidable True)

def noReuse (tr : List (Event τ κ α)) (e : Event τ κ α) : Prop := (hist tr).NoReuse e

def abaFree (tr : List (Event τ κ α)) (e : Event τ κ α) : Prop := (hist tr).AbaFree e

instance [DecidableEq κ] (tr : List (Event τ κ α)) (e : Event τ κ α) : Decidable (noReuse tr e) :=
  inferInstanceAs (Decidable ((hist tr).NoReuse e))

instance [DecidableEq κ] (tr : List (Event τ κ α)) (e : Event τ κ α) : Decidable (abaFree tr e) :=
  inferInstanceAs (Decidable ((hist tr).AbaFree e))

end ModCpp.LocklessStack
