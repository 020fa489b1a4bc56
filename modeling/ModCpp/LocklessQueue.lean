import ModCpp.Runs
import Mathlib.Algebra.Group.Nat.Defs
import Mathlib.Logic.Function.Basic

/-!
# The lockless queue

`lockless_queue<T, QueueCapacity>` is a ring with four atomic indices. A push claims a
slot by an exchange on `push_idx`, fills it, and releases it by an exchange on
`shadow_push_idx`; a pop does the same on the other two indices. A step is one atomic
operation or slot access of one thread, with the local control flow up to the next one. The
indices are `int`s, and a step that adds one to the largest of them is undefined.
-/

namespace ModCpp.LocklessQueue

/-- Where a thread stands in `push` or `pop`, with its local variables. -/
inductive Pc (α : Type*)
  | idle
  | canPush (val : α) (cur : ℕ)
  | pushExchange (val : α) (cur : ℕ)
  | store (val : α) (cur : ℕ)
  | pushRelease (stale : ℕ)
  | canPop (cur : ℕ)
  | popExchange (cur : ℕ)
  | read (cur : ℕ)
  | popRelease (ans : α) (stale : ℕ)

structure Queue (τ α : Type*) where
  data : ℕ → α
  pushIdx : ℕ
  shadowPushIdx : ℕ
  popIdx : ℕ
  shadowPopIdx : ℕ
  pc : τ → Pc α

inductive Call (α : Type*)
  | push (val : α)
  | pop

/-- What one step did. The flag of a check or an exchange is its result. -/
inductive Event (τ α : Type*)
  | pushLoad (t : τ) (val : α)
  | canPush (t : τ) (flag : Bool)
  | pushExchange (t : τ) (val : α) (success : Bool)
  | store (t : τ) (slot : ℕ)
  | pushRelease (t : τ) (success : Bool)
  | popLoad (t : τ)
  | canPop (t : τ) (flag : Bool)
  | popExchange (t : τ) (success : Bool)
  | read (t : τ) (slot : ℕ) (ans : α)
  | popRelease (t : τ) (ans : α) (success : Bool)
  deriving DecidableEq

variable {τ α : Type*}

/-- `(cur + 1) % QueueCapacity`, with no value where the sum is not an `int`. -/
def succIdx (cap cur : ℕ) : Option ℕ := if cur + 1 < 2 ^ 31 then some ((cur + 1) % cap) else none

def canPush (cap : ℕ) (q : Queue τ α) (cur : ℕ) : Option Bool := do
  let idx ← succIdx cap cur
  return idx ≠ q.shadowPopIdx

def canPop (q : Queue τ α) (cur : ℕ) : Prop := cur ≠ q.shadowPushIdx

instance (q : Queue τ α) (cur : ℕ) : Decidable (canPop q cur) :=
  inferInstanceAs (Decidable (_ ≠ _))

theorem succIdx_of_lt {cap cur : ℕ} (h : cur + 1 < 2 ^ 31) :
    succIdx cap cur = some ((cur + 1) % cap) := if_pos h

theorem succIdx_eq_some {cap cur idx : ℕ} (h : succIdx cap cur = some idx) :
    idx = (cur + 1) % cap := by
  rw [succIdx] at h
  split_ifs at h
  exact (Option.some_inj.mp h).symm

/-- What `canPush` tests. -/
def HasPlace (cap : ℕ) (q : Queue τ α) (cur : ℕ) : Prop := (cur + 1) % cap ≠ q.shadowPopIdx

instance (cap : ℕ) (q : Queue τ α) (cur : ℕ) : Decidable (HasPlace cap q cur) :=
  inferInstanceAs (Decidable (_ ≠ _))

theorem canPush_of_lt {cap : ℕ} {q : Queue τ α} {cur : ℕ} (h : cur + 1 < 2 ^ 31) :
    canPush cap q cur = some (decide (HasPlace cap q cur)) := by
  rw [canPush, succIdx_of_lt h]
  rfl

theorem canPush_eq_some {cap : ℕ} {q : Queue τ α} {cur : ℕ} {flag : Bool}
    (h : canPush cap q cur = some flag) : flag = decide (HasPlace cap q cur) := by
  obtain ⟨idx, hidx, hflag⟩ := Option.bind_eq_some_iff.mp h
  rw [succIdx_eq_some hidx] at hflag
  exact (Option.some_inj.mp hflag).symm

variable [DecidableEq τ]

def Queue.goto (q : Queue τ α) (t : τ) (pc : Pc α) : Queue τ α :=
  { q with pc := Function.update q.pc t pc }

/-- The next step of thread `t`; an idle thread starts the call `call`. -/
def next (cap : ℕ) (q : Queue τ α) (t : τ) (call : Call α) : Option (Queue τ α × Event τ α) :=
  match q.pc t with
  | .idle =>
    match call with
    | .push val => some (q.goto t (.canPush val q.pushIdx), .pushLoad t val)
    | .pop => some (q.goto t (.canPop q.popIdx), .popLoad t)
  | .canPush val cur => (canPush cap q cur).map fun flag =>
    if flag then (q.goto t (.pushExchange val cur), .canPush t true)
    else (q.goto t .idle, .canPush t false)
  | .pushExchange val cur => (succIdx cap cur).map fun desired =>
    if q.pushIdx = cur then
      ({ q with pushIdx := desired }.goto t (.store val cur), .pushExchange t val true)
    else (q.goto t (.canPush val q.pushIdx), .pushExchange t val false)
  | .store val cur =>
    some ({ q with data := Function.update q.data cur val }.goto t (.pushRelease cur), .store t cur)
  | .pushRelease stale => (succIdx cap stale).map fun desired =>
    if q.shadowPushIdx = stale then
      ({ q with shadowPushIdx := desired }.goto t .idle, .pushRelease t true)
    else (q, .pushRelease t false)
  | .canPop cur =>
    if canPop q cur then some (q.goto t (.popExchange cur), .canPop t true)
    else some (q.goto t .idle, .canPop t false)
  | .popExchange cur => (succIdx cap cur).map fun desired =>
    if q.popIdx = cur then
      ({ q with popIdx := desired }.goto t (.read cur), .popExchange t true)
    else (q.goto t (.canPop q.popIdx), .popExchange t false)
  | .read cur => some (q.goto t (.popRelease (q.data cur) cur), .read t cur (q.data cur))
  | .popRelease ans stale => (succIdx cap stale).map fun desired =>
    if q.shadowPopIdx = stale then
      ({ q with shadowPopIdx := desired }.goto t .idle, .popRelease t ans true)
    else (q, .popRelease t ans false)

def system (cap : ℕ) : System (Queue τ α) (Event τ α) where
  init q := ∃ data, q = ⟨data, 0, 0, 0, 0, fun _ => .idle⟩
  step q e q' := ∃ t call, next cap q t call = some (q', e)

def Event.thread : Event τ α → τ
  | .pushLoad t _ | .canPush t _ | .pushExchange t _ _ | .store t _ | .pushRelease t _ => t
  | .popLoad t | .canPop t _ | .popExchange t _ | .read t _ _ | .popRelease t _ _ => t

def Event.call : Event τ α → Call α
  | .pushLoad _ val => .push val
  | _ => .pop

def exec [DecidableEq α] (cap : ℕ) (q : Queue τ α) (e : Event τ α) : Option (Queue τ α) :=
  match next cap q e.thread e.call with
  | some (q', e') => if e' = e then some q' else none
  | none => none

theorem exec_step [DecidableEq α] {cap : ℕ} (q : Queue τ α) (e : Event τ α) (q' : Queue τ α)
    (h : exec cap q e = some q') : (system cap).step q e q' := by
  refine ⟨e.thread, e.call, ?_⟩
  rw [exec] at h
  split at h
  next q₁ e' hnext =>
    split_ifs at h with he
    rw [hnext, he, Option.some_inj.mp h]
  next => cases h

section goto
variable {q : Queue τ α} {t u : τ} {p : Pc α}

@[simp] theorem goto_data : (q.goto t p).data = q.data := rfl
@[simp] theorem goto_pushIdx : (q.goto t p).pushIdx = q.pushIdx := rfl
@[simp] theorem goto_shadowPushIdx : (q.goto t p).shadowPushIdx = q.shadowPushIdx := rfl
@[simp] theorem goto_popIdx : (q.goto t p).popIdx = q.popIdx := rfl
@[simp] theorem goto_shadowPopIdx : (q.goto t p).shadowPopIdx = q.shadowPopIdx := rfl
@[simp] theorem goto_pc_self : (q.goto t p).pc t = p := Function.update_self ..
theorem goto_pc_ne (hne : u ≠ t) : (q.goto t p).pc u = q.pc u := Function.update_of_ne hne ..

theorem goto_idx : (q.goto t p).pushIdx = q.pushIdx ∧
    (q.goto t p).shadowPushIdx = q.shadowPushIdx ∧ (q.goto t p).popIdx = q.popIdx ∧
    (q.goto t p).shadowPopIdx = q.shadowPopIdx := ⟨rfl, rfl, rfl, rfl⟩

end goto

inductive Step (cap : ℕ) (q : Queue τ α) : Event τ α → Queue τ α → Prop
  | pushLoad {t : τ} (val : α) : q.pc t = .idle →
      Step cap q (.pushLoad t val) (q.goto t (.canPush val q.pushIdx))
  | pushChecked {t : τ} {val : α} {cur : ℕ} : q.pc t = .canPush val cur → HasPlace cap q cur →
      Step cap q (.canPush t true) (q.goto t (.pushExchange val cur))
  | pushRefused {t : τ} {val : α} {cur : ℕ} : q.pc t = .canPush val cur → ¬ HasPlace cap q cur →
      Step cap q (.canPush t false) (q.goto t .idle)
  | pushClaimed {t : τ} {val : α} {cur : ℕ} : q.pc t = .pushExchange val cur → q.pushIdx = cur →
      Step cap q (.pushExchange t val true)
        ({ q with pushIdx := (cur + 1) % cap }.goto t (.store val cur))
  | pushRetried {t : τ} {val : α} {cur : ℕ} : q.pc t = .pushExchange val cur → q.pushIdx ≠ cur →
      Step cap q (.pushExchange t val false) (q.goto t (.canPush val q.pushIdx))
  | stored {t : τ} {val : α} {cur : ℕ} : q.pc t = .store val cur →
      Step cap q (.store t cur)
        ({ q with data := Function.update q.data cur val }.goto t (.pushRelease cur))
  | pushReleased {t : τ} {stale : ℕ} : q.pc t = .pushRelease stale → q.shadowPushIdx = stale →
      Step cap q (.pushRelease t true)
        ({ q with shadowPushIdx := (stale + 1) % cap }.goto t .idle)
  | pushWaited {t : τ} {stale : ℕ} : q.pc t = .pushRelease stale → q.shadowPushIdx ≠ stale →
      Step cap q (.pushRelease t false) q
  | popLoad {t : τ} : q.pc t = .idle → Step cap q (.popLoad t) (q.goto t (.canPop q.popIdx))
  | popChecked {t : τ} {cur : ℕ} : q.pc t = .canPop cur → canPop q cur →
      Step cap q (.canPop t true) (q.goto t (.popExchange cur))
  | popRefused {t : τ} {cur : ℕ} : q.pc t = .canPop cur → ¬ canPop q cur →
      Step cap q (.canPop t false) (q.goto t .idle)
  | popClaimed {t : τ} {cur : ℕ} : q.pc t = .popExchange cur → q.popIdx = cur →
      Step cap q (.popExchange t true)
        ({ q with popIdx := (cur + 1) % cap }.goto t (.read cur))
  | popRetried {t : τ} {cur : ℕ} : q.pc t = .popExchange cur → q.popIdx ≠ cur →
      Step cap q (.popExchange t false) (q.goto t (.canPop q.popIdx))
  | read {t : τ} {cur : ℕ} : q.pc t = .read cur →
      Step cap q (.read t cur (q.data cur)) (q.goto t (.popRelease (q.data cur) cur))
  | popReleased {t : τ} {ans : α} {stale : ℕ} : q.pc t = .popRelease ans stale →
      q.shadowPopIdx = stale →
      Step cap q (.popRelease t ans true)
        ({ q with shadowPopIdx := (stale + 1) % cap }.goto t .idle)
  | popWaited {t : τ} {ans : α} {stale : ℕ} : q.pc t = .popRelease ans stale →
      q.shadowPopIdx ≠ stale → Step cap q (.popRelease t ans false) q

theorem step_cases {cap : ℕ} {q q' : Queue τ α} {e : Event τ α}
    (h : (system cap).step q e q') : Step cap q e q' := by
  obtain ⟨t, call, hn⟩ := h
  unfold next at hn
  split at hn
  next hpc =>
    cases call with
    | push val => cases hn; exact .pushLoad val hpc
    | pop => cases hn; exact .popLoad hpc
  next hpc =>
    obtain ⟨flag, hflag, hn⟩ := Option.map_eq_some_iff.mp hn
    rw [canPush_eq_some hflag] at hn
    split_ifs at hn with hc
    · cases hn; exact .pushChecked hpc (of_decide_eq_true hc)
    · cases hn; exact .pushRefused hpc fun hplace => hc (decide_eq_true hplace)
  next hpc =>
    obtain ⟨idx, hidx, hn⟩ := Option.map_eq_some_iff.mp hn
    obtain rfl := succIdx_eq_some hidx
    split_ifs at hn with hc
    · cases hn; exact .pushClaimed hpc hc
    · cases hn; exact .pushRetried hpc hc
  next hpc => cases hn; exact .stored hpc
  next hpc =>
    obtain ⟨idx, hidx, hn⟩ := Option.map_eq_some_iff.mp hn
    obtain rfl := succIdx_eq_some hidx
    split_ifs at hn with hc
    · cases hn; exact .pushReleased hpc hc
    · cases hn; exact .pushWaited hpc hc
  next hpc =>
    split_ifs at hn with hc
    · cases hn; exact .popChecked hpc hc
    · cases hn; exact .popRefused hpc hc
  next hpc =>
    obtain ⟨idx, hidx, hn⟩ := Option.map_eq_some_iff.mp hn
    obtain rfl := succIdx_eq_some hidx
    split_ifs at hn with hc
    · cases hn; exact .popClaimed hpc hc
    · cases hn; exact .popRetried hpc hc
  next hpc => cases hn; exact .read hpc
  next hpc =>
    obtain ⟨idx, hidx, hn⟩ := Option.map_eq_some_iff.mp hn
    obtain rfl := succIdx_eq_some hidx
    split_ifs at hn with hc
    · cases hn; exact .popReleased hpc hc
    · cases hn; exact .popWaited hpc hc

inductive Access (α : Type*)
  | write (slot ticket : ℕ)
  | read (slot ticket : ℕ) (ans : α)

/-- What a run has done so far. A ticket is the rank of a successful exchange on `push_idx`
or on `pop_idx`, counted from zero; `pushRead` and `popRead` hold how many such exchanges a
thread had seen when it last read the index. -/
structure History (τ α : Type*) where
  pushed : List α
  published : List ℕ
  popped : ℕ
  returned : List (ℕ × α)
  pushRead : τ → ℕ
  popRead : τ → ℕ
  pushTicket : τ → ℕ
  popTicket : τ → ℕ
  accesses : List (Access α)

def History.empty : History τ α :=
  ⟨[], [], 0, [], fun _ => 0, fun _ => 0, fun _ => 0, fun _ => 0, []⟩

def History.record (h : History τ α) : Event τ α → History τ α
  | .pushLoad t _ => { h with pushRead := Function.update h.pushRead t h.pushed.length }
  | .canPush _ _ => h
  | .pushExchange t val true =>
    { h with
      pushed := h.pushed ++ [val]
      pushTicket := Function.update h.pushTicket t h.pushed.length }
  | .pushExchange t _ false => { h with pushRead := Function.update h.pushRead t h.pushed.length }
  | .store t slot => { h with accesses := h.accesses ++ [.write slot (h.pushTicket t)] }
  | .pushRelease t true => { h with published := h.published ++ [h.pushTicket t] }
  | .pushRelease _ false => h
  | .popLoad t => { h with popRead := Function.update h.popRead t h.popped }
  | .canPop _ _ => h
  | .popExchange t true =>
    { h with popped := h.popped + 1, popTicket := Function.update h.popTicket t h.popped }
  | .popExchange t false => { h with popRead := Function.update h.popRead t h.popped }
  | .read t slot ans => { h with accesses := h.accesses ++ [.read slot (h.popTicket t) ans] }
  | .popRelease t ans true => { h with returned := h.returned ++ [(h.popTicket t, ans)] }
  | .popRelease _ _ false => h

def hist (tr : List (Event τ α)) : History τ α := history History.record .empty tr

@[simp] theorem hist_nil : hist ([] : List (Event τ α)) = .empty := rfl

@[simp] theorem hist_concat (tr : List (Event τ α)) (e : Event τ α) :
    hist (tr ++ [e]) = (hist tr).record e := history_concat _ _ _ _

/-- No exchange on `push_idx` or `pop_idx` succeeds after that index has been advanced since
the thread last read it. -/
def History.NoWrap (h : History τ α) : Event τ α → Prop
  | .pushExchange t _ true => h.pushRead t = h.pushed.length
  | .popExchange t true => h.popRead t = h.popped
  | _ => True

/-- No call is refused on an index that has been advanced since the thread last read it. -/
def History.FreshRefusal (h : History τ α) : Event τ α → Prop
  | .canPush t false => h.pushRead t = h.pushed.length
  | .canPop t false => h.popRead t = h.popped
  | _ => True

instance (h : History τ α) : (e : Event τ α) → Decidable (h.NoWrap e)
  | .pushExchange _ _ true | .popExchange _ true => inferInstanceAs (Decidable (_ = _))
  | .pushExchange _ _ false | .popExchange _ false | .pushLoad _ _ | .canPush _ _ | .store _ _
  | .pushRelease _ _ | .popLoad _ | .canPop _ _ | .read _ _ _ | .popRelease _ _ _ =>
    inferInstanceAs (Decidable True)

instance (h : History τ α) : (e : Event τ α) → Decidable (h.FreshRefusal e)
  | .canPush _ false | .canPop _ false => inferInstanceAs (Decidable (_ = _))
  | .canPush _ true | .canPop _ true | .pushLoad _ _ | .pushExchange _ _ _ | .store _ _
  | .pushRelease _ _ | .popLoad _ | .popExchange _ _ | .read _ _ _ | .popRelease _ _ _ =>
    inferInstanceAs (Decidable True)

def noWrap (tr : List (Event τ α)) (e : Event τ α) : Prop := (hist tr).NoWrap e

def freshRefusal (tr : List (Event τ α)) (e : Event τ α) : Prop :=
  (hist tr).NoWrap e ∧ (hist tr).FreshRefusal e

instance (tr : List (Event τ α)) (e : Event τ α) : Decidable (noWrap tr e) :=
  inferInstanceAs (Decidable ((hist tr).NoWrap e))

instance (tr : List (Event τ α)) (e : Event τ α) : Decidable (freshRefusal tr e) :=
  inferInstanceAs (Decidable (_ ∧ _))

end ModCpp.LocklessQueue
