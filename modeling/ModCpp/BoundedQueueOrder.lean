import ModCpp.BoundedQueue

/-!
# First in, first out

The sections of `push` and `pop` with each access to the deque as a call that may go wrong, and
a record of the values pushed in the order of their sections.
-/

namespace ModCpp.BoundedQueue
open Monitor

section deque
variable {α : Type}

def front : List α → Except Failure α
  | [] => throw (.undefined "front() of an empty deque")
  | data :: _ => pure data

def popFront : List α → Except Failure (List α)
  | [] => throw (.undefined "pop_front() of an empty deque")
  | _ :: rest => pure rest

end deque

section sections
variable {τ α : Type} (Capacity : ℕ) (input : τ → ℕ → α) (role : τ → Role)

/-- `wait(lk, pred)` and the code after it. -/
def waitUntil (c : Cond) (pred : Bool) (rest : Except Failure (Outcome Cond (Queue τ α))) :
    Except Failure (Outcome Cond (Queue τ α)) :=
  if pred then rest else pure (.wait c)

def popSection (t : τ) (q : Queue τ α) : Except Failure (Outcome Cond (Queue τ α)) :=
  waitUntil .consumer_cond (!q.queue.isEmpty) do
    let ans ← front q.queue
    let rest ← popFront q.queue
    return .leave { q with queue := rest, popped := q.popped ++ [(t, ans)] } [.one .producer_cond]

variable [DecidableEq τ]

def pushSection (t : τ) (q : Queue τ α) : Except Failure (Outcome Cond (Queue τ α)) :=
  waitUntil .producer_cond (q.queue.length < Capacity) do
    let queue := q.queue ++ [input t (q.calls t)]
    return .leave { q with queue, calls := Function.update q.calls t (q.calls t + 1) }
      [.one .consumer_cond]

def loopSection (t : τ) (q : Queue τ α) : Except Failure (Outcome Cond (Queue τ α)) :=
  match role t with
  | .producer => pushSection Capacity input t q
  | .consumer => popSection t q

def sectionProgram : Program τ Cond (Queue τ α) where
  enter := loopSection Capacity input role
  resume := loopSection Capacity input role

/-- The value whose `push` ended in this step. -/
def pushedIn (s s' : State τ Cond (Queue τ α)) : Event τ → List α
  | .body t => if role t = .producer ∧ s'.phase t = .ready then [input t (s.data.calls t)] else []
  | _ => []

def recordSystem : System (State τ Cond (Queue τ α) × List α) (Event τ) where
  init p := (system (sectionProgram Capacity input role) start).init p.1 ∧ p.2 = []
  step p e p' := Step (sectionProgram Capacity input role) p.1 e p'.1 ∧
    p'.2 = p.2 ++ pushedIn input role p.1 p'.1 e

end sections

section order
variable {τ α : Type} {Capacity : ℕ} {input : τ → ℕ → α} {role : τ → Role} {t : τ}
  {q q' : Queue τ α} {pushed : List α}

theorem popSection_eq : popSection t q = .ok (pop t q) := by
  rw [popSection, pop]
  cases q.queue with
  | nil => rfl
  | cons ans rest => rfl

variable [DecidableEq τ] {s s' : State τ Cond (Queue τ α)} {e : Event τ} {tr : List (Event τ)}
  {ph ph' : τ → Phase Cond} {signals : List (Signal Cond)}

theorem pushSection_eq : pushSection Capacity input t q = .ok (push Capacity input t q) := by
  rw [pushSection, push, waitUntil]
  simp only [decide_eq_true_eq]
  split_ifs <;> rfl

theorem sectionProgram_eq :
    sectionProgram Capacity input role = program Capacity input role := by
  have hloop : loopSection Capacity input role = fun t q => .ok (loop Capacity input role t q) := by
    funext t q
    rw [loopSection, loop]
    cases role t with
    | producer => exact pushSection_eq
    | consumer => exact popSection_eq
  rw [sectionProgram, hloop]
  rfl

theorem signalled_ready (hs : Signalled signals ph ph') (ht : ph t = .ready) :
    ph' t = .ready := by
  cases hp : ph' t with
  | ready => rfl
  | asleep c =>
    have := hs.asleep hp
    rw [ht] at this
    cases this
  | woken c =>
    rcases hs.woken hp with h | h
    · rw [ht] at h
      cases h
    · rw [ht] at h
      cases h

/-- What was popped, and then what is queued, is what was pushed. -/
structure Ordered (Capacity : ℕ) (q : Queue τ α) (pushed : List α) : Prop where
  bounded : q.queue.length ≤ Capacity
  fifo : q.popped.map Prod.snd ++ q.queue = pushed

theorem Ordered.leave (ho : Ordered Capacity q pushed)
    (hl : loop Capacity input role t q = .leave q' signals) :
    Ordered Capacity q' (pushed ++ if role t = .producer then [input t (q.calls t)] else []) := by
  obtain ⟨hrole, hroom, _, hq, hpopped⟩ | ⟨hrole, _, ans, hq, hpopped⟩ := loop_leave hl
  · constructor
    · simp [hq]
      omega
    · rw [hq, hpopped, if_pos hrole, ← List.append_assoc, ho.fifo]
  · have hbound := ho.bounded
    rw [hq, List.length_cons] at hbound
    constructor
    · omega
    · have hnot : role t ≠ .producer := by simp [hrole]
      rw [if_neg hnot, List.append_nil, ← ho.fifo, hq, hpopped]
      simp

theorem Ordered.step (ho : Ordered Capacity s.data pushed)
    (h : Step (program Capacity input role) s e s') :
    Ordered Capacity s'.data (pushed ++ pushedIn input role s s' e) := by
  cases h with
  | lock _ _ => simpa [pushedIn] using ho
  | @wait t c _ _ =>
    rw [pushedIn, if_neg (by simp), List.append_nil]
    exact ho
  | @leave t q' signals ph _ hb hs =>
    rw [body_eq] at hb
    have hleave := ho.leave (Except.ok.inj hb)
    have hready : ph t = .ready := signalled_ready hs (Function.update_self ..)
    simp only [pushedIn, hready, and_true]
    exact hleave
  | spurious _ => simpa [pushedIn] using ho

variable {p : State τ Cond (Queue τ α) × List α}

theorem run_ordered (hr : (recordSystem Capacity input role).Run System.always tr p) :
    Ordered Capacity p.1.data p.2 := by
  refine System.run_invariant (P := fun _ p => Ordered Capacity p.1.data p.2) ?_ ?_ hr
  · intro p hp
    rw [hp.1, hp.2]
    exact ⟨Nat.zero_le _, rfl⟩
  · intro tr p e p' _ ho _ hstep
    rw [hstep.2]
    have hnext := hstep.1
    rw [sectionProgram_eq] at hnext
    exact ho.step hnext

theorem run_recorded (hr : (queueSystem Capacity input role).Run System.always tr s) :
    ∃ pushed, (recordSystem Capacity input role).Run System.always tr (s, pushed) := by
  induction hr with
  | start hi =>
    refine ⟨[], .start ⟨?_, rfl⟩⟩
    rw [sectionProgram_eq]
    exact hi
  | step _ _ hs ih =>
    obtain ⟨pushed, hr⟩ := ih
    refine ⟨_, hr.step (t := (_, pushed ++ pushedIn input role _ _ _)) trivial ⟨?_, rfl⟩⟩
    rw [sectionProgram_eq]
    exact hs

/-- The queue stays within its capacity and gives the values in the order they were pushed, and
no section takes from an empty deque. -/
theorem queue_exact (hr : (recordSystem Capacity input role).Run System.always tr p) :
    p.1.data.queue.length ≤ Capacity ∧ p.1.data.popped.map Prod.snd ++ p.1.data.queue = p.2 ∧
    ∀ t f, (sectionProgram Capacity input role).body t (p.1.phase t) p.1.data ≠ .error f := by
  have ho := run_ordered hr
  refine ⟨ho.bounded, ho.fifo, ?_⟩
  intro t f h
  rw [sectionProgram_eq, body_eq] at h
  cases h

end order

/-- Two values are pushed while a consumer waits, and the first is popped. -/
theorem queue_exact_sample : ∃ tr p,
    (recordSystem 2 (fun _ k => k + 5) fun b : Bool => if b then .producer else .consumer).Run
      System.always tr p ∧ p.1.data.popped = [(false, 5)] ∧
    p.1.data.popped.map Prod.snd ++ p.1.data.queue = p.2 := by
  have hr : ∃ tr s,
      (queueSystem 2 (fun _ k => k + 5) fun b : Bool => if b then .producer else .consumer).Run
        System.always tr s ∧ s.data.popped = [(false, 5)] := by
    refine ⟨_, _, .step (.step (.step (.step (.step (.step (.step (.step (.start rfl) trivial
      (.lock (t := false) rfl ?_)) trivial (.wait (c := .consumer_cond) rfl rfl)) trivial
      (.lock (t := true) rfl ?_)) trivial (.leave rfl rfl (.one (t := false) ?_ .nil))) trivial
      (.lock (t := true) rfl ?_)) trivial (.leave rfl rfl (.idle ?_ .nil))) trivial
      (.lock (t := false) rfl ?_)) trivial (.leave rfl rfl (.idle ?_ .nil)), ?_⟩
    · exact Phase.awake_ready
    · exact Phase.awake_ready
    · rfl
    · exact Phase.awake_ready
    · decide
    · exact Phase.awake_woken _
    · decide
    · rfl
  obtain ⟨tr, s, hr, hpopped⟩ := hr
  obtain ⟨pushed, hr⟩ := run_recorded hr
  exact ⟨tr, _, hr, hpopped, (queue_exact hr).2.1⟩

end ModCpp.BoundedQueue
