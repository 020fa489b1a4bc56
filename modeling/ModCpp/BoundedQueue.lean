import ModCpp.Monitor

/-!
# `sleep_bounded_queue` (`bounded_queue.cc`)

Producer threads loop on `push` and consumer threads on `pop`. The values a producer pushes
are given by `input`: its call number `k` pushes `input t k`, and a call keeps its value while it
waits. What the consumers' calls returned is recorded in `popped`, oldest first.
-/

namespace ModCpp.BoundedQueue
open Monitor
variable {τ α : Type*}

inductive Cond
  | producer_cond
  | consumer_cond
  deriving DecidableEq

inductive Role
  | producer
  | consumer
  deriving DecidableEq

def Role.cond : Role → Cond
  | .producer => .producer_cond
  | .consumer => .consumer_cond

structure Queue (τ α : Type*) where
  queue : List α
  calls : τ → ℕ
  popped : List (τ × α)

def start : Queue τ α := ⟨[], fun _ => 0, []⟩

section code
variable [DecidableEq τ] (Capacity : ℕ) (input : τ → ℕ → α) (role : τ → Role)

/-- From the test of the predicate of the wait on. -/
def push (t : τ) (q : Queue τ α) : Outcome Cond (Queue τ α) :=
  if q.queue.length < Capacity then
    .leave { q with
      queue := q.queue ++ [input t (q.calls t)]
      calls := Function.update q.calls t (q.calls t + 1) } [.one .consumer_cond]
  else .wait .producer_cond

def pop (t : τ) (q : Queue τ α) : Outcome Cond (Queue τ α) :=
  match q.queue with
  | [] => .wait .consumer_cond
  | ans :: rest =>
    .leave { q with queue := rest, popped := q.popped ++ [(t, ans)] } [.one .producer_cond]

def loop (t : τ) (q : Queue τ α) : Outcome Cond (Queue τ α) :=
  match role t with
  | .producer => push Capacity input t q
  | .consumer => pop t q

/-- A call starts with its wait, so it does the same when it resumes. -/
def program : Program τ Cond (Queue τ α) where
  enter t q := .ok (loop Capacity input role t q)
  resume t q := .ok (loop Capacity input role t q)

def queueSystem : System (State τ Cond (Queue τ α)) (Event τ) :=
  system (program Capacity input role) start

end code

section steps
variable [DecidableEq τ] {Capacity : ℕ} {input : τ → ℕ → α} {role : τ → Role}
  {t : τ} {p : Phase Cond} {q q' : Queue τ α} {c : Cond} {signals : List (Signal Cond)}

theorem body_eq :
    (program Capacity input role).body t p q = .ok (loop Capacity input role t q) := by
  cases p <;> rfl

theorem loop_wait (h : loop Capacity input role t q = .wait c) :
    role t = .producer ∧ c = .producer_cond ∧ Capacity ≤ q.queue.length ∨
      role t = .consumer ∧ c = .consumer_cond ∧ q.queue = [] := by
  unfold loop at h
  cases hrole : role t with
  | producer =>
    simp only [hrole, push] at h
    split_ifs at h with hfull
    cases h
    exact .inl ⟨rfl, rfl, not_lt.mp hfull⟩
  | consumer =>
    simp only [hrole, pop] at h
    cases hq : q.queue with
    | nil =>
      rw [hq] at h
      cases h
      exact .inr ⟨rfl, rfl, rfl⟩
    | cons ans rest =>
      rw [hq] at h
      cases h

theorem loop_leave (h : loop Capacity input role t q = .leave q' signals) :
    role t = .producer ∧ q.queue.length < Capacity ∧ signals = [.one .consumer_cond] ∧
        q'.queue = q.queue ++ [input t (q.calls t)] ∧ q'.popped = q.popped ∨
      role t = .consumer ∧ signals = [.one .producer_cond] ∧
        ∃ ans, q.queue = ans :: q'.queue ∧ q'.popped = q.popped ++ [(t, ans)] := by
  unfold loop at h
  cases hrole : role t with
  | producer =>
    simp only [hrole, push] at h
    split_ifs at h with hfull
    cases h
    exact .inl ⟨rfl, hfull, rfl, rfl, rfl⟩
  | consumer =>
    simp only [hrole, pop] at h
    cases hq : q.queue with
    | nil =>
      rw [hq] at h
      cases h
    | cons ans rest =>
      rw [hq] at h
      cases h
      exact .inr ⟨rfl, rfl, ans, rfl, rfl⟩

end steps

section invariant
variable [Fintype τ]

/-- Whoever sleeps is covered: there are as many notified consumers as items, and as many
notified producers as free places. -/
structure NoLostWakeup (Capacity : ℕ) (role : τ → Role) (ph : τ → Phase Cond)
    (q : Queue τ α) : Prop where
  bounded : q.queue.length ≤ Capacity
  asleep : ∀ t c, ph t = .asleep c → c = (role t).cond
  woken : ∀ t c, ph t = .woken c → c = (role t).cond
  consumers : Covered ph .consumer_cond q.queue.length
  producers : Covered ph .producer_cond (Capacity - q.queue.length)

variable {Capacity : ℕ} {role : τ → Role} {ph ph' : τ → Phase Cond} {q q' : Queue τ α} {t : τ}
  {c : Cond} {signals : List (Signal Cond)}

theorem NoLostWakeup.not_woken (h : NoLostWakeup Capacity role ph q) (hc : c ≠ (role t).cond) :
    ph t ≠ .woken c := by
  intro hw
  exact hc (h.woken t c hw)

theorem NoLostWakeup.role_of_woken {r : Role} (h : NoLostWakeup Capacity role ph q)
    (hw : ph t = .woken r.cond) : role t = r := by
  have := h.woken _ _ hw
  cases r <;> cases hrole : role t <;> simp_all [Role.cond]

theorem NoLostWakeup.asleep_of_not_awake (h : NoLostWakeup Capacity role ph q)
    (ht : ¬ (ph t).Awake) : ph t = .asleep (role t).cond := by
  cases hp : ph t with
  | ready => simp [hp] at ht
  | asleep c => rw [h.asleep t c hp]
  | woken c => simp [hp] at ht

theorem NoLostWakeup.start : NoLostWakeup Capacity role (fun _ => .ready)
    (start : Queue τ α) where
  bounded := Nat.zero_le _
  asleep := by
    intro t c h
    cases h
  woken := by
    intro t c h
    cases h
  consumers := covered_zero
  producers := by
    intro ⟨t, h⟩
    cases h

variable [DecidableEq τ] {input : τ → ℕ → α}

theorem NoLostWakeup.wait (h : NoLostWakeup Capacity role ph q)
    (hw : loop Capacity input role t q = .wait c) :
    NoLostWakeup Capacity role (Function.update ph t (.asleep c)) q := by
  refine ⟨h.bounded, ?_, ?_, ?_, ?_⟩
  · intro u d hu
    by_cases he : u = t
    · subst he
      rw [Function.update_self] at hu
      cases hu
      obtain ⟨hrole, rfl, _⟩ | ⟨hrole, rfl, _⟩ := loop_wait hw
      · rw [hrole]
        rfl
      · rw [hrole]
        rfl
    · rw [Function.update_of_ne he] at hu
      exact h.asleep u d hu
  · intro u d hu
    by_cases he : u = t
    · subst he
      rw [Function.update_self] at hu
      cases hu
    · rw [Function.update_of_ne he] at hu
      exact h.woken u d hu
  · obtain ⟨hrole, rfl, _⟩ | ⟨_, _, hempty⟩ := loop_wait hw
    · exact h.consumers.other (h.not_woken (by simp [hrole, Role.cond])) (by simp)
    · rw [hempty]
      exact covered_zero
  · obtain ⟨_, _, hfull⟩ | ⟨hrole, rfl, _⟩ := loop_wait hw
    · rw [Nat.sub_eq_zero_of_le hfull]
      exact covered_zero
    · exact h.producers.other (h.not_woken (by simp [hrole, Role.cond])) (by simp)

theorem NoLostWakeup.wake (h : NoLostWakeup Capacity role ph q) (ht : ph t = .asleep c) :
    NoLostWakeup Capacity role (Function.update ph t (.woken c)) q := by
  refine ⟨h.bounded, ?_, ?_, h.consumers.wake ht, h.producers.wake ht⟩
  · intro u d hu
    exact h.asleep u d (asleep_of_update (Phase.awake_woken c) hu)
  · intro u d hu
    by_cases he : u = t
    · subst he
      rw [Function.update_self] at hu
      cases hu
      exact h.asleep _ _ ht
    · rw [Function.update_of_ne he] at hu
      exact h.woken u d hu

theorem NoLostWakeup.leave (h : NoLostWakeup Capacity role ph q)
    (hl : loop Capacity input role t q = .leave q' signals)
    (hs : Signalled signals (Function.update ph t .ready) ph') :
    NoLostWakeup Capacity role ph' q' := by
  have hasleep : ∀ u d, ph' u = .asleep d → d = (role u).cond := by
    intro u d hu
    exact h.asleep u d (asleep_of_update Phase.awake_ready (hs.asleep hu))
  have hwoken : ∀ u d, ph' u = .woken d → d = (role u).cond := by
    intro u d hu
    rcases hs.woken hu with hu | hu
    · by_cases he : u = t
      · subst he
        rw [Function.update_self] at hu
        cases hu
      · rw [Function.update_of_ne he] at hu
        exact h.woken u d hu
    · exact h.asleep u d (asleep_of_update Phase.awake_ready hu)
  obtain ⟨hrole, hroom, rfl, hq, _⟩ | ⟨hrole, rfl, ans, hq, _⟩ := loop_leave hl
  · have hother : ph t ≠ .woken .consumer_cond := by
      intro hw
      have := h.woken _ _ hw
      rw [hrole] at this
      cases this
    have hlen : q'.queue.length = q.queue.length + 1 := by simp [hq]
    refine ⟨by omega, hasleep, hwoken, ?_, ?_⟩
    · rw [hlen]
      exact (h.consumers.other hother (by simp)).put hs
    · have hfree : Capacity - q.queue.length = Capacity - q'.queue.length + 1 := by omega
      have htake := h.producers
      rw [hfree] at htake
      exact htake.take.signal hs
  · have hother : ph t ≠ .woken .producer_cond := by
      intro hw
      have := h.woken _ _ hw
      rw [hrole] at this
      cases this
    have hlen : q.queue.length = q'.queue.length + 1 := by simp [hq]
    have hbound := h.bounded
    refine ⟨by omega, hasleep, hwoken, ?_, ?_⟩
    · have htake := h.consumers
      rw [hlen] at htake
      exact htake.take.signal hs
    · have hfree : Capacity - q'.queue.length = Capacity - q.queue.length + 1 := by omega
      rw [hfree]
      exact (h.producers.other hother (by simp)).put hs

theorem run_noLostWakeup {tr : List (Event τ)} {s : State τ Cond (Queue τ α)}
    (hr : (queueSystem Capacity input role).Run System.always tr s) :
    NoLostWakeup Capacity role s.phase s.data := by
  refine (run_keeps (I := NoLostWakeup Capacity role) .start ?_ ?_ ?_ hr).2
  · intro t ph q c h _ hw
    rw [body_eq] at hw
    exact h.wait (Except.ok.inj hw)
  · intro t ph ph' q q' signals h _ hl hs
    rw [body_eq] at hl
    exact h.leave (Except.ok.inj hl) hs
  · intro t ph q c h ht
    exact h.wake ht

omit [DecidableEq τ] in
/-- If all slept, the queue would be empty for the consumers and full for the producers. -/
theorem NoLostWakeup.exists_awake {ph : τ → Phase Cond} {q : Queue τ α}
    (h : NoLostWakeup Capacity role ph q) (hcap : 1 ≤ Capacity)
    (hproducer : ∃ t, role t = .producer) (hconsumer : ∃ t, role t = .consumer) :
    ∃ t, (ph t).Awake := by
  by_contra hnone
  have hasleep : ∀ u, ph u = .asleep (role u).cond := by
    intro u
    exact h.asleep_of_not_awake fun hu => hnone ⟨u, hu⟩
  have hzero : ∀ c, wokenCount ph c = 0 := by
    intro c
    by_contra hne
    obtain ⟨u, hu⟩ := wokenCount_pos.mp (Nat.pos_of_ne_zero hne)
    rw [hasleep u] at hu
    cases hu
  obtain ⟨t, ht⟩ := hproducer
  obtain ⟨u, hu⟩ := hconsumer
  have hfull := h.producers ⟨t, by rw [hasleep t, ht]; rfl⟩
  have hempty := h.consumers ⟨u, by rw [hasleep u, hu]; rfl⟩
  rw [hzero] at hfull hempty
  omega

/-- No consumer sleeps through an item and no producer through a free place, and with a thread
of each kind somebody is always awake. -/
theorem wakeups_kept (hcap : 1 ≤ Capacity) {tr : List (Event τ)} {s : State τ Cond (Queue τ α)}
    (hr : (queueSystem Capacity input role).Run System.always tr s) :
    ¬ ((∃ t, role t = .consumer ∧ s.phase t = .asleep .consumer_cond) ∧ s.data.queue ≠ [] ∧
        ∀ t, role t = .consumer → s.phase t ≠ .woken .consumer_cond) ∧
      ¬ ((∃ t, role t = .producer ∧ s.phase t = .asleep .producer_cond) ∧
        s.data.queue.length < Capacity ∧
        ∀ t, role t = .producer → s.phase t ≠ .woken .producer_cond) ∧
      ((∃ t, role t = .producer) → (∃ t, role t = .consumer) → ∃ t, (s.phase t).Awake) := by
  have h := run_noLostWakeup hr
  refine ⟨?_, ?_, h.exists_awake hcap⟩
  · intro ⟨⟨t, _, ht⟩, hne, hnone⟩
    have hpos := List.length_pos_iff.mpr hne
    obtain ⟨u, hu⟩ := wokenCount_pos.mp (hpos.trans_le (h.consumers ⟨t, ht⟩))
    exact hnone u (h.role_of_woken hu) hu
  · intro ⟨⟨t, _, ht⟩, hroom, hnone⟩
    have hpos : 0 < Capacity - s.data.queue.length := by omega
    obtain ⟨u, hu⟩ := wokenCount_pos.mp (hpos.trans_le (h.producers ⟨t, ht⟩))
    exact hnone u (h.role_of_woken hu) hu

/-- The consumer finds the queue empty and sleeps; the first item wakes it. -/
theorem wakeups_kept_sample : ∃ tr s,
    (queueSystem 1 (fun _ k => k) fun b : Bool => if b then .producer else .consumer).Run
      System.always tr s ∧
    s.data.queue ≠ [] ∧ s.phase false = .woken .consumer_cond ∧
    ¬ ((∃ t, (if t then Role.producer else .consumer) = .producer ∧
        s.phase t = .asleep .producer_cond) ∧ s.data.queue.length < 1 ∧
      ∀ t, (if t then Role.producer else .consumer) = .producer →
        s.phase t ≠ .woken .producer_cond) := by
  have hr : ∃ tr s,
      (queueSystem 1 (fun _ k => k) fun b : Bool => if b then .producer else .consumer).Run
        System.always tr s ∧ s.data.queue = [0] ∧ s.phase false = .woken .consumer_cond := by
    refine ⟨_, _, .step (.step (.step (.step (.start rfl) trivial
      (.lock (t := false) rfl ?_)) trivial (.wait (c := .consumer_cond) rfl rfl)) trivial
      (.lock (t := true) rfl ?_)) trivial (.leave rfl rfl (.one (t := false) ?_ .nil)), ?_, ?_⟩
    · exact Phase.awake_ready
    · exact Phase.awake_ready
    · rfl
    · rfl
    · rfl
  obtain ⟨tr, s, hr, hq, hph⟩ := hr
  exact ⟨tr, s, hr, by simp [hq], hph, (wakeups_kept le_rfl hr).2.1⟩

/-- With no producer at all, the only consumer sleeps and nobody is left to notify it. -/
theorem all_asleep_without_producers : ∃ tr s,
    (queueSystem 1 (fun _ k => k) fun _ : Unit => .consumer).Run System.always tr s ∧
      ∀ t, ∃ c, s.phase t = .asleep c := by
  refine ⟨_, _, .step (.step (.start rfl) trivial (.lock (t := ()) rfl Phase.awake_ready))
    trivial (.wait (c := .consumer_cond) rfl rfl), ?_⟩
  intro t
  exact ⟨.consumer_cond, rfl⟩

end invariant

end ModCpp.BoundedQueue
