import ModCpp.Progress

/-!
# The task queue of `packaged_task_example`

A submitter makes a task, queues it and waits for the result, and a worker takes tasks off the
queue and runs them outside the lock. While the queue is empty the worker locks and unlocks the
mutex over and over.
-/

namespace ModCpp.PackagedTask

/-- The shared state of a task and its future. -/
inductive Shared
  | pending
  | ready (value : ℤ)
  | broken
  deriving DecidableEq

inductive Thread
  | submitter
  | worker
  deriving DecidableEq

/-- Where the submitter is in its loop, with its task and future by the place of their shared
state. In `caught` it has left the loop by an exception. -/
inductive Submitter
  | make
  | lock (task fut : ℕ)
  | push (task fut : ℕ)
  | unlock (fut : ℕ)
  | get (fut : ℕ)
  | caught
  deriving DecidableEq

/-- Where the worker is in its loop. `tsk` has no shared state when it was made from a task that
had been moved. In `terminated` an exception or undefined behaviour has ended the program. -/
inductive Worker
  | lock
  | test
  | continue
  | pop (tsk : Option ℕ)
  | unlock (tsk : Option ℕ)
  | run (tsk : Option ℕ)
  | destroy (tsk : Option ℕ)
  | terminated
  deriving DecidableEq

structure Program where
  mtx : Option Thread
  taskQueue : List (Option ℕ)
  shared : List Shared
  output : List ℤ
  submitter : Submitter
  worker : Worker

def taskFunc : ℤ := 42

/-- The destructor of a task, which breaks the promise that it has not kept. -/
def abandon (shared : List Shared) : Option ℕ → List Shared
  | none => shared
  | some i => if shared[i]? = some .pending then shared.set i .broken else shared

def Program.submit (p : Program) : Option Program :=
  match p.submitter with
  | .make => some { p with
      shared := p.shared ++ [.pending]
      submitter := .lock p.shared.length p.shared.length }
  | .lock task fut =>
    if p.mtx = none then some { p with mtx := some .submitter, submitter := .push task fut }
    else none
  | .push task fut => some { p with
      taskQueue := p.taskQueue ++ [some task]
      submitter := .unlock fut }
  | .unlock fut => some { p with mtx := none, submitter := .get fut }
  | .get fut =>
    match p.shared[fut]? with
    | some (.ready ret) => some { p with output := p.output ++ [ret], submitter := .make }
    | some .broken => some { p with submitter := .caught }
    | some .pending | none => none
  | .caught => none

def Program.work (p : Program) : Option Program :=
  match p.worker with
  | .lock => if p.mtx = none then some { p with mtx := some .worker, worker := .test } else none
  | .test =>
    match p.taskQueue with
    | [] => some { p with worker := .continue }
    | front :: rest => some { p with taskQueue := none :: rest, worker := .pop front }
  | .continue => some { p with mtx := none, worker := .lock }
  | .pop tsk =>
    match p.taskQueue with
    | [] => some { p with worker := .terminated }
    | front :: rest => some { p with
        taskQueue := rest
        shared := abandon p.shared front
        worker := .unlock tsk }
  | .unlock tsk => some { p with mtx := none, worker := .run tsk }
  | .run tsk =>
    match tsk with
    -- `std::future_error`
    | none => some { p with worker := .terminated }
    | some i =>
      if p.shared[i]? = some .pending then some { p with
        shared := p.shared.set i (.ready taskFunc)
        worker := .destroy tsk }
      else some { p with worker := .terminated }
  | .destroy tsk => some { p with shared := abandon p.shared tsk, worker := .lock }
  | .terminated => none

def Worker.idle : Worker → Bool
  | .lock | .test | .continue => true
  | _ => false

def Program.Spinning (p : Program) : Prop := p.taskQueue = [] ∧ p.worker.idle = true

instance (p : Program) : Decidable p.Spinning := inferInstanceAs (Decidable (_ ∧ _))

inductive Event
  | submit
  | work
  | spin
  deriving DecidableEq

def next (p : Program) : Event → Option Program
  | .submit => p.submit
  | .work => if p.Spinning then none else p.work
  | .spin => if p.Spinning then p.work else none

def Program.init : Program := ⟨none, [], [], [], .make, .lock⟩

def system : System Program Event where
  init p := p = .init
  step p e p' := next p e = some p'

def Submitter.holds : Submitter → Bool
  | .push _ _ | .unlock _ => true
  | _ => false

def Worker.holds : Worker → Bool
  | .test | .continue | .pop _ | .unlock _ => true
  | _ => false

structure Locked (p : Program) : Prop where
  submitter : p.submitter.holds = true ↔ p.mtx = some .submitter
  worker : p.worker.holds = true ↔ p.mtx = some .worker

/-- The worker has no task, or one of the first `k`, which it has run. -/
def Worker.Away (k : ℕ) : Worker → Prop
  | .lock => True
  | .destroy tsk => ∃ i < k, tsk = some i
  | _ => False

def Worker.Free (k : ℕ) (w : Worker) : Prop := w.Away k ∨ w = .test ∨ w = .continue

def Worker.owes : Worker → ℕ
  | .destroy _ => 1
  | _ => 0

theorem Worker.owes_le (w : Worker) : w.owes ≤ 1 := by
  cases w <;> simp [Worker.owes]

def done (k : ℕ) : List Shared := List.replicate k (.ready taskFunc)

/-- How far the task `k` has come, after the first `k` tasks have been dealt with. The step at
which the worker destroys a task is counted when it has run. -/
inductive Phase (k : ℕ) : ℕ → Submitter → Worker → List (Option ℕ) → List Shared → Prop
  | make {w : Worker} : w.Free k → Phase k 0 .make w [] (done k)
  | lock {w : Worker} : w.Free k → Phase k 1 (.lock k k) w [] (done k ++ [.pending])
  | push {w : Worker} : w.Free k → Phase k 2 (.push k k) w [] (done k ++ [.pending])
  | unlock {w : Worker} : w.Away k → Phase k 3 (.unlock k) w [some k] (done k ++ [.pending])
  | queued {w : Worker} : w.Away k → Phase k 4 (.get k) w [some k] (done k ++ [.pending])
  | tested : Phase k 5 (.get k) .test [some k] (done k ++ [.pending])
  | moved : Phase k 6 (.get k) (.pop (some k)) [none] (done k ++ [.pending])
  | popped : Phase k 7 (.get k) (.unlock (some k)) [] (done k ++ [.pending])
  | taken : Phase k 8 (.get k) (.run (some k)) [] (done k ++ [.pending])
  | ran {w : Worker} : w.Free (k + 1) → Phase k 10 (.get k) w [] (done (k + 1))

theorem length_done (k : ℕ) : (done k).length = k := List.length_replicate

theorem done_succ (k : ℕ) : done (k + 1) = done k ++ [.ready taskFunc] := List.replicate_succ'

theorem getElem?_done {i k : ℕ} (h : i < k) : (done k)[i]? = some (.ready taskFunc) := by
  rw [done, List.getElem?_replicate, if_pos h]

theorem getElem?_pending (k : ℕ) : (done k ++ [Shared.pending])[k]? = some .pending := by
  have hlast := List.getElem?_concat_length (l := done k) (a := Shared.pending)
  rwa [length_done] at hlast

theorem abandon_done {i k : ℕ} (rest : List Shared) (h : i < k) :
    abandon (done k ++ rest) (some i) = done k ++ rest := by
  have hi : (done k ++ rest)[i]? = some (.ready taskFunc) := by
    rw [List.getElem?_append_left (by rwa [length_done]), getElem?_done h]
  rw [abandon, hi, if_neg (by simp)]

theorem run_done (k : ℕ) : (done k ++ [Shared.pending]).set k (.ready taskFunc) = done (k + 1) := by
  rw [done_succ, List.set_append_right _ _ (length_done k).le, length_done, Nat.sub_self]
  rfl

section steps
variable {p p' : Program} {k m : ℕ}

theorem Locked.submit (hl : Locked p) (h : p.submit = some p') : Locked p' := by
  obtain ⟨hs, hw⟩ := hl
  rw [Program.submit] at h
  split at h
  next hat =>
    cases h
    rw [hat] at hs
    exact ⟨hs, hw⟩
  next task fut hat =>
    split_ifs at h with hfree
    cases h
    rw [hfree] at hw
    exact ⟨by simp [Submitter.holds], by simpa using hw⟩
  next task fut hat =>
    cases h
    rw [hat] at hs
    exact ⟨hs, hw⟩
  next fut hat =>
    cases h
    rw [hat] at hs
    rw [hs.mp rfl] at hw
    exact ⟨by simp [Submitter.holds], by simpa using hw⟩
  next fut hat =>
    rw [hat] at hs
    split at h
    all_goals cases h
    all_goals exact ⟨hs, hw⟩
  next hat => cases h

theorem Locked.work (hl : Locked p) (h : p.work = some p') (hon : p'.worker ≠ .terminated) :
    Locked p' := by
  obtain ⟨hs, hw⟩ := hl
  rw [Program.work] at h
  split at h
  next hat =>
    split_ifs at h with hfree
    cases h
    rw [hfree] at hs
    exact ⟨by simpa using hs, by simp [Worker.holds]⟩
  next hat =>
    rw [hat] at hw
    split at h
    all_goals cases h
    all_goals exact ⟨hs, hw⟩
  next hat =>
    cases h
    rw [hat] at hw
    rw [hw.mp rfl] at hs
    exact ⟨by simpa using hs, by simp [Worker.holds]⟩
  next tsk hat =>
    rw [hat] at hw
    split at h
    all_goals cases h
    · exact absurd rfl hon
    · exact ⟨hs, hw⟩
  next tsk hat =>
    cases h
    rw [hat] at hw
    rw [hw.mp rfl] at hs
    exact ⟨by simpa using hs, by simp [Worker.holds]⟩
  next tsk hat =>
    rw [hat] at hw
    split at h
    · cases h
      exact ⟨hs, hw⟩
    · split_ifs at h
      all_goals cases h
      all_goals exact ⟨hs, hw⟩
  next tsk hat =>
    cases h
    rw [hat] at hw
    exact ⟨hs, hw⟩
  next hat => cases h

theorem Phase.submit (hph : Phase k m p.submitter p.worker p.taskQueue p.shared) (hl : Locked p)
    (h : p.submit = some p') :
    Phase k (m + 1) p'.submitter p'.worker p'.taskQueue p'.shared ∧ p'.output = p.output ∨
      m = 10 ∧ Phase (k + 1) 0 p'.submitter p'.worker p'.taskQueue p'.shared ∧
        p'.output = p.output ++ [taskFunc] := by
  obtain ⟨mtx, queue, shared, output, s, w⟩ := p
  simp only at hph
  rw [Program.submit] at h
  cases hph with
  | make hfree =>
    cases h
    rw [length_done]
    exact .inl ⟨.lock hfree, rfl⟩
  | lock hfree =>
    simp only at h
    split_ifs at h
    cases h
    exact .inl ⟨.push hfree, rfl⟩
  | push hfree =>
    cases h
    have hmine := hl.submitter.mp rfl
    refine .inl ⟨.unlock ?_, rfl⟩
    rcases hfree with haway | rfl | rfl
    · exact haway
    · exact absurd (hmine.symm.trans (hl.worker.mp rfl)) (by decide)
    · exact absurd (hmine.symm.trans (hl.worker.mp rfl)) (by decide)
  | unlock haway =>
    cases h
    exact .inl ⟨.queued haway, rfl⟩
  | ran hfree =>
    simp only [getElem?_done (Nat.lt_succ_self k)] at h
    cases h
    exact .inr ⟨rfl, .make hfree, rfl⟩
  | queued | tested | moved | popped | taken =>
    simp only [getElem?_pending] at h
    cases h

theorem Worker.Free.work {rest : List Shared} (hw : p.worker.Free k) (hqueue : p.taskQueue = [])
    (hshared : p.shared = done k ++ rest) (h : p.work = some p') :
    ∃ mtx w, w.Free k ∧ p' = { p with mtx, worker := w } ∧
      p.worker.owes = w.owes + if p.Spinning then 0 else 1 := by
  obtain ⟨mtx, queue, shared, output, s, w⟩ := p
  simp only at hw hqueue hshared
  subst hqueue hshared
  rw [Program.work] at h
  rcases hw with haway | rfl | rfl
  · cases w with
    | lock =>
      simp only at h
      split_ifs at h
      cases h
      exact ⟨_, .test, .inr (.inl rfl), rfl, rfl⟩
    | destroy tsk =>
      obtain ⟨i, hi, rfl⟩ := haway
      simp only [abandon_done rest hi] at h
      cases h
      exact ⟨_, .lock, .inl trivial, rfl, rfl⟩
    | test | «continue» | pop | unlock | run | terminated => exact absurd haway id
  · cases h
    exact ⟨_, .continue, .inr (.inr rfl), rfl, rfl⟩
  · cases h
    exact ⟨_, .lock, .inl trivial, rfl, rfl⟩

theorem Phase.work (hph : Phase k m p.submitter p.worker p.taskQueue p.shared) (hl : Locked p)
    (h : p.work = some p') : p'.output = p.output ∧
      ∃ m', Phase k m' p'.submitter p'.worker p'.taskQueue p'.shared ∧
        m' + p.worker.owes = m + p'.worker.owes + if p.Spinning then 0 else 1 := by
  obtain ⟨mtx, queue, shared, output, s, w⟩ := p
  simp only at hph
  cases hph with
  | make hfree =>
    obtain ⟨mtx, w', hfree', rfl, howes⟩ := hfree.work rfl (List.append_nil _).symm h
    exact ⟨rfl, 0, .make hfree', by rw [howes, Nat.add_assoc]⟩
  | lock hfree =>
    obtain ⟨mtx, w', hfree', rfl, howes⟩ := hfree.work rfl rfl h
    exact ⟨rfl, 1, .lock hfree', by rw [howes, Nat.add_assoc]⟩
  | push hfree =>
    obtain ⟨mtx, w', hfree', rfl, howes⟩ := hfree.work rfl rfl h
    exact ⟨rfl, 2, .push hfree', by rw [howes, Nat.add_assoc]⟩
  | unlock haway =>
    rw [Program.work] at h
    cases w with
    | lock =>
      have hmine : mtx = some .submitter := hl.submitter.mp rfl
      simp [hmine] at h
    | destroy tsk =>
      obtain ⟨i, hi, rfl⟩ := haway
      simp only [abandon_done _ hi] at h
      cases h
      exact ⟨rfl, 3, .unlock trivial, rfl⟩
    | test | «continue» | pop | unlock | run | terminated => exact absurd haway id
  | queued haway =>
    rw [Program.work] at h
    cases w with
    | lock =>
      simp only at h
      split_ifs at h
      cases h
      exact ⟨rfl, 5, .tested, rfl⟩
    | destroy tsk =>
      obtain ⟨i, hi, rfl⟩ := haway
      simp only [abandon_done _ hi] at h
      cases h
      exact ⟨rfl, 4, .queued trivial, rfl⟩
    | test | «continue» | pop | unlock | run | terminated => exact absurd haway id
  | tested =>
    cases h
    exact ⟨rfl, 6, .moved, rfl⟩
  | moved =>
    cases h
    exact ⟨rfl, 7, .popped, rfl⟩
  | popped =>
    cases h
    exact ⟨rfl, 8, .taken, rfl⟩
  | taken =>
    rw [Program.work] at h
    simp only [getElem?_pending, if_true, run_done] at h
    cases h
    exact ⟨rfl, 10, .ran (.inl ⟨k, Nat.lt_succ_self k, rfl⟩), rfl⟩
  | ran hfree =>
    obtain ⟨mtx, w', hfree', rfl, howes⟩ := hfree.work rfl (List.append_nil _).symm h
    exact ⟨rfl, 10, .ran hfree', by rw [howes, Nat.add_assoc]⟩

theorem Phase.orderly {s : Submitter} {w : Worker} {queue : List (Option ℕ)} {shared : List Shared}
    (hph : Phase k m s w queue shared) : s ≠ .caught ∧ w ≠ .terminated ∧ queue.length ≤ 1 ∧
      m ≤ 10 ∧ ∃ rest, shared = done k ++ rest ∧ rest.length ≤ 1 ∧ .broken ∉ rest := by
  have hfree : ∀ {j}, w.Free j → w ≠ .terminated := by
    rintro j (h | h | h) rfl
    · exact h
    · cases h
    · cases h
  cases hph with
  | make h => exact ⟨by simp, hfree h, by simp, by simp, [], by simp⟩
  | lock h | push h => exact ⟨by simp, hfree h, by simp, by simp, _, rfl, by simp⟩
  | unlock h | queued h => exact ⟨by simp, hfree (.inl h), by simp, by simp, _, rfl, by simp⟩
  | tested | moved | popped | taken => exact ⟨by simp, by simp, by simp, by simp, _, rfl, by simp⟩
  | ran h =>
    exact ⟨by simp, hfree h, by simp, by simp, [.ready taskFunc], done_succ k, by simp⟩

end steps

section runs
variable {p p' q : Program} {tr : List Event} {e : Event}

/-- A run has taken eleven steps for each result, apart from those that found the queue empty, and
those of the task on its way. -/
structure Sound (tr : List Event) (p : Program) : Prop where
  locked : Locked p
  output : p.output = List.replicate p.output.length taskFunc
  phase : ∃ m, Phase p.output.length m p.submitter p.worker p.taskQueue p.shared ∧
    (tr.filter (· ≠ .spin)).length + p.worker.owes = 11 * p.output.length + m

theorem Sound.init : Sound [] Program.init := by
  refine ⟨⟨?_, ?_⟩, rfl, 0, .make (.inl trivial), rfl⟩
  · simp [Program.init, Submitter.holds]
  · simp [Program.init, Worker.holds]

theorem submit_worker (h : p.submit = some p') : p'.worker = p.worker := by
  rw [Program.submit] at h
  split at h
  case h_2 =>
    split_ifs at h
    cases h
    rfl
  case h_5 =>
    split at h
    all_goals cases h
    all_goals rfl
  all_goals cases h
  all_goals rfl

theorem Sound.submit (hs : Sound tr p) (h : p.submit = some p') :
    Sound (tr ++ [.submit]) p' := by
  obtain ⟨m, hph, hcount⟩ := hs.phase
  have hw := submit_worker h
  have hlen : ((tr ++ [Event.submit]).filter (· ≠ Event.spin)).length =
      (tr.filter (· ≠ .spin)).length + 1 := by
    rw [System.filter_concat_length, if_pos (by decide)]
  rcases hph.submit hs.locked h with ⟨hph', hout⟩ | ⟨hm, hph', hout⟩
  · refine ⟨hs.locked.submit h, by rw [hout]; exact hs.output, m + 1, by rwa [hout], ?_⟩
    rw [hlen, hw, hout]
    omega
  · have hone : p'.output.length = p.output.length + 1 := by
      rw [hout, List.length_append, List.length_singleton]
    refine ⟨hs.locked.submit h, ?_, 0, by rwa [hone], ?_⟩
    · rw [hone, List.replicate_succ', ← hs.output, hout]
    · rw [hlen, hw, hone]
      omega

theorem Sound.work (hs : Sound tr p) (h : p.work = some p')
    (he : e ≠ .spin ↔ ¬ p.Spinning) : Sound (tr ++ [e]) p' := by
  obtain ⟨m, hph, hcount⟩ := hs.phase
  obtain ⟨hout, m', hph', howes⟩ := hph.work hs.locked h
  have hon := hph'.orderly.2.1
  refine ⟨hs.locked.work h hon, by rw [hout]; exact hs.output, m', by rwa [hout], ?_⟩
  rw [System.filter_concat_length, hout]
  by_cases hspin : p.Spinning
  · rw [if_pos hspin] at howes
    rw [if_neg fun hne => he.mp hne hspin]
    omega
  · rw [if_neg hspin] at howes
    rw [if_pos (he.mpr hspin)]
    omega

theorem run_sound (hr : system.Run System.always tr p) : Sound tr p := by
  refine System.run_invariant (P := fun tr p => Sound tr p) ?_ ?_ hr
  · rintro p rfl
    exact .init
  · intro tr p e p' _ hs _ hstep
    change next p e = some p' at hstep
    cases e with
    | submit => exact hs.submit hstep
    | work =>
      rw [next] at hstep
      split_ifs at hstep with hspin
      exact hs.work hstep (iff_of_true (by decide) hspin)
    | spin =>
      rw [next] at hstep
      split_ifs at hstep with hspin
      exact hs.work hstep (iff_of_false (by decide) (not_not.mpr hspin))

/-- The threads exclude each other, at most one task is queued, no task is run twice or destroyed
before it has run, and each result is that of the task. -/
theorem tasks_run (hr : system.Run System.always tr p) :
    ¬ (p.submitter.holds = true ∧ p.worker.holds = true) ∧ p.taskQueue.length ≤ 1 ∧
      p.submitter ≠ .caught ∧ p.worker ≠ .terminated ∧ .broken ∉ p.shared ∧
      p.output = List.replicate p.output.length taskFunc ∧
      p.shared.length ≤ p.output.length + 1 ∧
      ∀ i < p.output.length, p.shared[i]? = some (.ready taskFunc) := by
  have hs := run_sound hr
  obtain ⟨m, hph, -⟩ := hs.phase
  obtain ⟨hcaught, hon, hqueue, -, rest, hshared, hlen, hbroken⟩ := hph.orderly
  refine ⟨?_, hqueue, hcaught, hon, ?_, hs.output, ?_, ?_⟩
  · rintro ⟨hsub, hwork⟩
    have hboth := (hs.locked.submitter.mp hsub).symm.trans (hs.locked.worker.mp hwork)
    cases hboth
  · rw [hshared, List.mem_append, not_or]
    refine ⟨fun hin => ?_, hbroken⟩
    cases List.eq_of_mem_replicate hin
  · rw [hshared, List.length_append, length_done]
    omega
  · intro i hi
    rw [hshared, List.getElem?_append_left (by rwa [length_done]), getElem?_done hi]

theorem tasks_run_sample : ∃ tr p, system.Run System.always tr p ∧ p.output = [42] ∧
    p.taskQueue = [some 1] ∧ .broken ∉ p.shared := by
  have hr : ∃ p, system.Run System.always
      [.spin, .submit, .spin, .spin, .submit, .submit, .submit, .work, .work, .work, .work, .work,
        .submit, .submit, .submit, .work, .submit] p ∧ p.output = [42] ∧ p.taskQueue = [some 1] :=
    ⟨_, System.run_of_exec (fun _ _ _ h => h) rfl rfl, rfl, rfl⟩
  obtain ⟨p, hr, hout, hqueue⟩ := hr
  obtain ⟨_, _, _, _, hbroken, _⟩ := tasks_run hr
  exact ⟨_, p, hr, hout, hqueue, hbroken⟩

theorem submit_ready {fut : ℕ} {ret : ℤ} (hat : p.submitter = .get fut)
    (hready : p.shared[fut]? = some (.ready ret)) :
    next p .submit = some { p with output := p.output ++ [ret], submitter := .make } := by
  rw [next, Program.submit, hat]
  simp only [hready]

/-- A thread can do something for the next result, after two steps of the worker at most that
end its round. -/
def Program.Goes (p : Program) : Prop := ∃ rest q e q',
  (system.resumed p).Run System.always rest q ∧ rest.length ≤ 2 ∧ e ≠ .spin ∧ system.step q e q'

theorem goes_now (h : next p e = some p') (he : e ≠ .spin) : p.Goes :=
  ⟨[], p, e, p', .start rfl, by simp, he, h⟩

theorem goes_work (h : p.work = some p') (hbusy : ¬ p.Spinning) : p.Goes := by
  have hnext : next p .work = some p' := by rw [next, if_neg hbusy, h]
  exact goes_now hnext (by decide)

theorem spin_run {rest : List Event} (hr : (system.resumed p).Run System.always rest q)
    (h : q.work = some p') (hspin : q.Spinning) :
    (system.resumed p).Run System.always (rest ++ [.spin]) p' := by
  refine .step hr trivial ?_
  change next q .spin = some p'
  rw [next, if_pos hspin, h]

theorem Sound.goes (hs : Sound tr p) : p.Goes := by
  obtain ⟨m, hph, -⟩ := hs.phase
  have hl := hs.locked
  obtain ⟨mtx, queue, shared, output, s, w⟩ := p
  generalize List.length output = k at hph
  simp only at hph
  cases hph with
  | make => exact goes_now (e := .submit) rfl (by decide)
  | lock hfree =>
    cases mtx with
    | none => exact goes_now (e := .submit) rfl (by decide)
    | some t =>
      cases t with
      | submitter => exact absurd (hl.submitter.mpr rfl) (by simp [Submitter.holds])
      | worker =>
        have hholds : w.holds = true := hl.worker.mpr rfl
        rcases hfree with haway | rfl | rfl
        · cases w with
          | lock | destroy => cases hholds
          | test | «continue» | pop | unlock | run | terminated => exact absurd haway id
        · have hrun := spin_run (q := ⟨some .worker, [], done k ++ [.pending], output, .lock k k,
            .test⟩) (.start rfl) rfl ⟨rfl, rfl⟩
          exact ⟨_, _, .submit, _, spin_run hrun rfl ⟨rfl, rfl⟩, by simp, by decide, rfl⟩
        · have hrun := spin_run (q := ⟨some .worker, [], done k ++ [.pending], output, .lock k k,
            .continue⟩) (.start rfl) rfl ⟨rfl, rfl⟩
          exact ⟨_, _, .submit, _, hrun, by simp, by decide, rfl⟩
  | push => exact goes_now (e := .submit) rfl (by decide)
  | unlock => exact goes_now (e := .submit) rfl (by decide)
  | queued haway =>
    cases w with
    | lock =>
      cases mtx with
      | none => exact goes_work rfl (by simp [Program.Spinning])
      | some t =>
        cases t with
        | submitter => exact absurd (hl.submitter.mpr rfl) (by simp [Submitter.holds])
        | worker => exact absurd (hl.worker.mpr rfl) (by simp [Worker.holds])
    | destroy => exact goes_work rfl (by simp [Program.Spinning])
    | test | «continue» | pop | unlock | run | terminated => exact absurd haway id
  | tested => exact goes_work rfl (by simp [Program.Spinning])
  | moved => exact goes_work rfl (by simp [Program.Spinning])
  | popped => exact goes_work rfl (by simp [Program.Spinning, Worker.idle])
  | taken =>
    exact goes_work (if_pos (getElem?_pending k)) (by simp [Program.Spinning, Worker.idle])
  | ran =>
    have hready := getElem?_done (Nat.lt_succ_self k)
    exact goes_now (submit_ready (p := ⟨mtx, [], done (k + 1), output, .get k, w⟩) rfl hready)
      (by decide)

/-- Each result takes eleven steps besides the rounds in which the worker finds the queue empty,
and the threads are never stuck, nor does the mutex stay locked. -/
theorem results_come (hr : system.Run System.always tr p) :
    11 * p.output.length ≤ (tr.filter (· ≠ .spin)).length + 1 ∧
      (tr.filter (· ≠ .spin)).length ≤ 11 * p.output.length + 10 ∧
      ∃ rest q e q', (system.resumed p).Run System.always rest q ∧ rest.length ≤ 2 ∧
        e ≠ .spin ∧ system.step q e q' := by
  have hs := run_sound hr
  obtain ⟨m, hph, hcount⟩ := hs.phase
  have hm := hph.orderly.2.2.2.1
  have howes := p.worker.owes_le
  exact ⟨by omega, by omega, hs.goes⟩

theorem results_come_sample : ∃ tr p, system.Run System.always tr p ∧ p.output.length = 1 ∧
    11 ≤ (tr.filter (· ≠ .spin)).length + 1 ∧ (tr.filter (· ≠ .spin)).length ≤ 21 := by
  have hr : ∃ p, system.Run System.always
      [.submit, .submit, .submit, .submit, .work, .work, .work, .work, .work, .submit, .work,
        .spin] p ∧ p.output.length = 1 :=
    ⟨_, System.run_of_exec (fun _ _ _ h => h) rfl rfl, rfl⟩
  obtain ⟨p, hr, hout⟩ := hr
  obtain ⟨hle, hge, -⟩ := results_come hr
  rw [hout] at hle hge
  exact ⟨_, p, hr, hout, hle, hge⟩

end runs

end ModCpp.PackagedTask
