import ModCpp.BoundedQueue
import ModCpp.MonitorProgress

/-!
# Progress of `sleep_bounded_queue`

A notification may be in vain: the thread that locks the mutex first may take the item that another
one was notified for, which then sleeps again. Every notification belongs to a completed call, and
so do the steps it can be the cause of.
-/

namespace ModCpp.BoundedQueue
open Monitor
variable {τ α : Type*} [DecidableEq τ] [Fintype τ] {Capacity : ℕ} {input : τ → ℕ → α}
  {role : τ → Role} {tr rest : List (Event τ)} {s s' : State τ Cond (Queue τ α)} {t : τ}
  {q q' : Queue τ α} {signals : List (Signal Cond)}

def pushes (q : Queue τ α) : ℕ := ∑ t, q.calls t

def pops (q : Queue τ α) : ℕ := q.popped.length

theorem loop_leave_counts (h : loop Capacity input role t q = .leave q' signals) :
    (∃ c, signals = [.one c]) ∧
    (pushes q' = pushes q + 1 ∧ pops q' = pops q ∧ q'.queue.length = q.queue.length + 1 ∨
      pushes q' = pushes q ∧ pops q' = pops q + 1 ∧ q'.queue.length + 1 = q.queue.length) := by
  unfold loop at h
  cases hrole : role t with
  | producer =>
    simp only [hrole, push] at h
    split_ifs at h with hroom
    cases h
    refine ⟨⟨_, rfl⟩, .inl ⟨?_, rfl, List.length_append⟩⟩
    have hsum := sum_step (t := t) (f := q.calls)
      (g := Function.update q.calls t (q.calls t + 1)) fun u hu => Function.update_of_ne hu _ _
    rw [Function.update_self] at hsum
    simp only [pushes]
    omega
  | consumer =>
    simp only [hrole, pop] at h
    cases hq : q.queue with
    | nil =>
      rw [hq] at h
      cases h
    | cons ans rest =>
      rw [hq] at h
      cases h
      exact ⟨⟨_, rfl⟩, .inr ⟨rfl, List.length_append, rfl⟩⟩

theorem run_balanced (hr : (queueSystem Capacity input role).Run System.always tr s) :
    pushes s.data = pops s.data + s.data.queue.length := by
  refine (run_keeps (I := fun _ q => pushes q = pops q + q.queue.length) ?_ ?_ ?_ ?_ hr).2
  · exact Finset.sum_eq_zero fun _ _ => rfl
  · intro t ph q c h _ _
    exact h
  · intro t ph ph' q q' signals h _ hl _
    rw [body_eq] at hl
    obtain ⟨_, hcounts⟩ := loop_leave_counts (Except.ok.inj hl)
    omega
  · intro t ph q c h _
    exact h

/-- A completed call pays for its own two steps and for those of the thread it notifies. -/
theorem calls_pay (hheld : s.holder = some t) (hawake : (s.phase t).Awake)
    (hb : (program Capacity input role).body t (s.phase t) s.data = .ok (.leave q signals))
    {ph : τ → Phase Cond} (hsig : Signalled signals (Function.update s.phase t .ready) ph) :
    rank ⟨none, ph, q⟩ + 1 + 4 * (pushes s.data + pops s.data) ≤
      rank s + 4 * (pushes q + pops q) := by
  rw [body_eq] at hb
  obtain ⟨hone, hcounts⟩ := loop_leave_counts (Except.ok.inj hb)
  obtain ⟨c, rfl⟩ := hone
  have hrank := rank_leave_one (d := q) hheld hawake hsig (by simp)
  rw [List.length_singleton] at hrank
  omega

/-- With a producer and a consumer there is always a step to take, and from any state on, as long
as nobody wakes unnotified, all but a bounded number of every eight steps complete a `push` and a
`pop`. -/
theorem calls_complete (hcap : 1 ≤ Capacity) (hproducer : ∃ t, role t = .producer)
    (hconsumer : ∃ t, role t = .consumer)
    (hr : (queueSystem Capacity input role).Run System.always tr s)
    (hrest : ((queueSystem Capacity input role).resumed s).Run punctual rest s') :
    (∃ e s'', punctual rest e ∧ (queueSystem Capacity input role).step s' e s'') ∧
    rest.length + 8 * pushes s.data ≤
      2 * Fintype.card τ + 4 * Capacity + 8 * pushes s'.data ∧
    rest.length + 8 * pops s.data ≤ 2 * Fintype.card τ + 4 * Capacity + 8 * pops s'.data := by
  have hr' := run_punctual hr hrest
  have hpaid := steps_paid (fun q => 4 * (pushes q + pops q)) ?_ hr hrest
  · have hrank := rank_le s
    have hbound := (run_noLostWakeup hr).bounded
    have hbound' := (run_noLostWakeup hr').bounded
    have hbalance := run_balanced hr
    have hbalance' := run_balanced hr'
    refine ⟨exists_step ?_ ?_, by omega, by omega⟩
    · exact (run_noLostWakeup hr').exists_awake hcap hproducer hconsumer
    · intro u _
      exact ⟨_, body_eq⟩
  · intro tr s u q signals ph _ hheld hawake hb hsig
    exact calls_pay hheld hawake hb hsig

/-- One call from the start: the next step is there, and the bounds are far off. -/
theorem calls_complete_sample : ∃ rest, ∃ s' : State Bool Cond (Queue Bool ℕ),
    rest.length = 2 ∧ pushes s'.data = 1 ∧
    (∃ e s'', punctual rest e ∧ (queueSystem 1 (fun _ k => k) fun b : Bool =>
      if b then .producer else .consumer).step s' e s'') ∧
    rest.length ≤ 8 * pushes s'.data + 8 := by
  have hrun : ∃ s', ((queueSystem 1 (fun _ k => k) fun b : Bool =>
      if b then .producer else .consumer).resumed ⟨none, fun _ => .ready, start⟩).Run punctual
      ([] ++ [.lock true] ++ [.body true]) s' ∧ pushes s'.data = 1 := by
    refine ⟨_, .step (.step (.start rfl) ?_ (.lock rfl Phase.awake_ready)) ?_
      (.leave rfl rfl (.idle ?_ .nil)), rfl⟩
    · simp [punctual]
    · simp [punctual]
    · decide
  obtain ⟨s', hrun, hone⟩ := hrun
  obtain ⟨hstep, hle, -⟩ := calls_complete le_rfl ⟨true, rfl⟩ ⟨false, rfl⟩ (.start rfl) hrun
  refine ⟨_, s', rfl, hone, hstep, ?_⟩
  exact hle.trans (Nat.add_comm _ _).le

end ModCpp.BoundedQueue
