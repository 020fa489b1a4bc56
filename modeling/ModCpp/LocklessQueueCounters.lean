import ModCpp.LocklessQueueRange
import ModCpp.ModularWindow

/-!
# The counters behind the indices of the lockless queue

The indices are the numbers of successful exchanges modulo the capacity. While no exchange
succeeds on a stale index, these numbers stay ordered: completed pops, claimed pops,
published pushes, claimed pushes, and less than a capacity between the first and the last.
Inside that window every comparison of indices is a comparison of the numbers.
-/

namespace ModCpp.LocklessQueue
variable {τ α : Type*} {cap : ℕ} {q q' : Queue τ α} {h h' : History τ α} {t u : τ} {p : Pc α}

def Pc.HoldsPush : Pc α → Prop
  | .store _ _ => True
  | .pushRelease _ => True
  | _ => False

def Pc.HoldsPop : Pc α → Prop
  | .read _ => True
  | .popRelease _ _ => True
  | _ => False

/-- What the locals of thread `t` at `p` say about the numbers of exchanges. -/
def ThreadCounts (cap : ℕ) (h : History τ α) (t : τ) : Pc α → Prop
  | .idle => True
  | .canPush _ cur => cur = h.pushRead t % cap ∧ h.pushRead t ≤ h.pushed.length
  | .pushExchange _ cur => cur = h.pushRead t % cap ∧ h.pushRead t ≤ h.pushed.length ∧
      (h.pushRead t = h.pushed.length → h.pushed.length + 1 < h.returned.length + cap)
  | .store _ cur => cur = h.pushTicket t % cap ∧ h.published.length ≤ h.pushTicket t ∧
      h.pushTicket t < h.pushed.length
  | .pushRelease cur => cur = h.pushTicket t % cap ∧ h.published.length ≤ h.pushTicket t ∧
      h.pushTicket t < h.pushed.length
  | .canPop cur => cur = h.popRead t % cap ∧ h.popRead t ≤ h.popped
  | .popExchange cur => cur = h.popRead t % cap ∧ h.popRead t ≤ h.popped ∧
      (h.popRead t = h.popped → h.popped < h.published.length)
  | .read cur => cur = h.popTicket t % cap ∧ h.returned.length ≤ h.popTicket t ∧
      h.popTicket t < h.popped
  | .popRelease _ cur => cur = h.popTicket t % cap ∧ h.returned.length ≤ h.popTicket t ∧
      h.popTicket t < h.popped

structure Counters (cap : ℕ) (h : History τ α) (q : Queue τ α) : Prop where
  pushIdx : q.pushIdx = h.pushed.length % cap
  shadowPushIdx : q.shadowPushIdx = h.published.length % cap
  popIdx : q.popIdx = h.popped % cap
  shadowPopIdx : q.shadowPopIdx = h.returned.length % cap
  returned_le : h.returned.length ≤ h.popped
  popped_le : h.popped ≤ h.published.length
  published_le : h.published.length ≤ h.pushed.length
  pushed_lt : h.pushed.length < h.returned.length + cap
  thread : ∀ t, ThreadCounts cap h t (q.pc t)
  pushTicket_ne : ∀ t u, t ≠ u → (q.pc t).HoldsPush → (q.pc u).HoldsPush →
    h.pushTicket t ≠ h.pushTicket u
  popTicket_ne : ∀ t u, t ≠ u → (q.pc t).HoldsPop → (q.pc u).HoldsPop →
    h.popTicket t ≠ h.popTicket u

/-- Another thread's step leaves `u` its own marks and lets the numbers grow, though not past a
ticket that `u` holds. -/
structure Passed (h h' : History τ α) (u : τ) (p : Pc α) : Prop where
  pushRead : h'.pushRead u = h.pushRead u
  popRead : h'.popRead u = h.popRead u
  pushTicket : h'.pushTicket u = h.pushTicket u
  popTicket : h'.popTicket u = h.popTicket u
  pushed : h.pushed.length ≤ h'.pushed.length
  popped : h.popped ≤ h'.popped
  published : h.published.length ≤ h'.published.length
  returned : h.returned.length ≤ h'.returned.length
  held_push : p.HoldsPush → h'.published.length ≤ h.pushTicket u
  held_pop : p.HoldsPop → h'.returned.length ≤ h.popTicket u

theorem ThreadCounts.passed (hu : ThreadCounts cap h u p) (hp : Passed h h' u p) :
    ThreadCounts cap h' u p := by
  obtain ⟨h1, h2, h3, h4, h5, h6, h7, h8, h9, h10⟩ := hp
  cases p with
  | idle => trivial
  | canPush val cur =>
    simp only [ThreadCounts, h1] at hu ⊢
    omega
  | pushExchange val cur =>
    simp only [ThreadCounts, h1] at hu ⊢
    omega
  | store val cur =>
    have hs := h9 trivial
    simp only [ThreadCounts, h3] at hu ⊢
    omega
  | pushRelease cur =>
    have hs := h9 trivial
    simp only [ThreadCounts, h3] at hu ⊢
    omega
  | canPop cur =>
    simp only [ThreadCounts, h2] at hu ⊢
    omega
  | popExchange cur =>
    simp only [ThreadCounts, h2] at hu ⊢
    omega
  | read cur =>
    have hs := h10 trivial
    simp only [ThreadCounts, h4] at hu ⊢
    omega
  | popRelease ans cur =>
    have hs := h10 trivial
    simp only [ThreadCounts, h4] at hu ⊢
    omega

theorem Counters.of_step (hc : Counters cap h q) (hpc : ∀ u, u ≠ t → q'.pc u = q.pc u)
    (hpass : ∀ u, u ≠ t → Passed h h' u (q.pc u)) (ht : ThreadCounts cap h' t (q'.pc t))
    (hpush : (q'.pc t).HoldsPush → ∀ u, u ≠ t → (q.pc u).HoldsPush →
      h'.pushTicket t ≠ h.pushTicket u)
    (hpop : (q'.pc t).HoldsPop → ∀ u, u ≠ t → (q.pc u).HoldsPop →
      h'.popTicket t ≠ h.popTicket u)
    (hidx : q'.pushIdx = h'.pushed.length % cap ∧ q'.shadowPushIdx = h'.published.length % cap ∧
      q'.popIdx = h'.popped % cap ∧ q'.shadowPopIdx = h'.returned.length % cap)
    (hord : h'.returned.length ≤ h'.popped ∧ h'.popped ≤ h'.published.length ∧
      h'.published.length ≤ h'.pushed.length ∧ h'.pushed.length < h'.returned.length + cap) :
    Counters cap h' q' := by
  refine ⟨hidx.1, hidx.2.1, hidx.2.2.1, hidx.2.2.2, hord.1, hord.2.1, hord.2.2.1, hord.2.2.2,
    ?_, ?_, ?_⟩
  · intro u
    by_cases hu : u = t
    · subst hu
      exact ht
    · rw [hpc u hu]
      exact (hc.thread u).passed (hpass u hu)
  · intro u v huv hhu hhv
    by_cases hu : u = t
    · subst hu
      have hv : v ≠ u := huv.symm
      rw [(hpass v hv).pushTicket]
      exact hpush hhu v hv (hpc v hv ▸ hhv)
    · rw [(hpass u hu).pushTicket]
      by_cases hv : v = t
      · subst hv
        exact (hpush hhv u hu (hpc u hu ▸ hhu)).symm
      · rw [(hpass v hv).pushTicket]
        exact hc.pushTicket_ne u v huv (hpc u hu ▸ hhu) (hpc v hv ▸ hhv)
  · intro u v huv hhu hhv
    by_cases hu : u = t
    · subst hu
      have hv : v ≠ u := huv.symm
      rw [(hpass v hv).popTicket]
      exact hpop hhu v hv (hpc v hv ▸ hhv)
    · rw [(hpass u hu).popTicket]
      by_cases hv : v = t
      · subst hv
        exact (hpop hhv u hu (hpc u hu ▸ hhu)).symm
      · rw [(hpass v hv).popTicket]
        exact hc.popTicket_ne u v huv (hpc u hu ▸ hhu) (hpc v hv ▸ hhv)

theorem Counters.held_push (hc : Counters cap h q) (hu : (q.pc u).HoldsPush) :
    h.published.length ≤ h.pushTicket u ∧ h.pushTicket u < h.pushed.length := by
  have hth := hc.thread u
  cases hpc : q.pc u with
  | store val cur =>
    rw [hpc] at hth
    exact hth.2
  | pushRelease cur =>
    rw [hpc] at hth
    exact hth.2
  | _ => simp [hpc, Pc.HoldsPush] at hu

theorem Counters.held_pop (hc : Counters cap h q) (hu : (q.pc u).HoldsPop) :
    h.returned.length ≤ h.popTicket u ∧ h.popTicket u < h.popped := by
  have hth := hc.thread u
  cases hpc : q.pc u with
  | read cur =>
    rw [hpc] at hth
    exact hth.2
  | popRelease ans cur =>
    rw [hpc] at hth
    exact hth.2
  | _ => simp [hpc, Pc.HoldsPop] at hu

theorem Counters.idx (hc : Counters cap h q) :
    q.pushIdx = h.pushed.length % cap ∧ q.shadowPushIdx = h.published.length % cap ∧
      q.popIdx = h.popped % cap ∧ q.shadowPopIdx = h.returned.length % cap :=
  ⟨hc.pushIdx, hc.shadowPushIdx, hc.popIdx, hc.shadowPopIdx⟩

theorem Counters.ord (hc : Counters cap h q) :
    h.returned.length ≤ h.popped ∧ h.popped ≤ h.published.length ∧
      h.published.length ≤ h.pushed.length ∧ h.pushed.length < h.returned.length + cap :=
  ⟨hc.returned_le, hc.popped_le, hc.published_le, hc.pushed_lt⟩

structure Silent (h h' : History τ α) (t : τ) : Prop where
  pushed : h'.pushed = h.pushed
  popped : h'.popped = h.popped
  published : h'.published = h.published
  returned : h'.returned = h.returned
  pushTicket : h'.pushTicket = h.pushTicket
  popTicket : h'.popTicket = h.popTicket
  pushRead : ∀ u, u ≠ t → h'.pushRead u = h.pushRead u
  popRead : ∀ u, u ≠ t → h'.popRead u = h.popRead u

theorem silent_self (h : History τ α) (t : τ) : Silent h h t :=
  ⟨rfl, rfl, rfl, rfl, rfl, rfl, fun _ _ => rfl, fun _ _ => rfl⟩

theorem silent_accesses (h : History τ α) (t : τ) (l : List (Access α)) :
    Silent h { h with accesses := l } t :=
  ⟨rfl, rfl, rfl, rfl, rfl, rfl, fun _ _ => rfl, fun _ _ => rfl⟩

theorem silent_pushRead [DecidableEq τ] (h : History τ α) (t : τ) (n : ℕ) :
    Silent h { h with pushRead := Function.update h.pushRead t n } t :=
  ⟨rfl, rfl, rfl, rfl, rfl, rfl, fun _ hu => Function.update_of_ne hu .., fun _ _ => rfl⟩

theorem silent_popRead [DecidableEq τ] (h : History τ α) (t : τ) (n : ℕ) :
    Silent h { h with popRead := Function.update h.popRead t n } t :=
  ⟨rfl, rfl, rfl, rfl, rfl, rfl, fun _ _ => rfl, fun _ hu => Function.update_of_ne hu ..⟩

theorem Counters.silent (hc : Counters cap h q) (hs : Silent h h' t)
    (hpc : ∀ u, u ≠ t → q'.pc u = q.pc u)
    (hidx : q'.pushIdx = q.pushIdx ∧ q'.shadowPushIdx = q.shadowPushIdx ∧
      q'.popIdx = q.popIdx ∧ q'.shadowPopIdx = q.shadowPopIdx)
    (hpush : (q'.pc t).HoldsPush → (q.pc t).HoldsPush)
    (hpop : (q'.pc t).HoldsPop → (q.pc t).HoldsPop) (ht : ThreadCounts cap h' t (q'.pc t)) :
    Counters cap h' q' := by
  apply hc.of_step hpc _ ht
  · intro hh u hut hu
    rw [hs.pushTicket]
    exact hc.pushTicket_ne t u hut.symm (hpush hh) hu
  · intro hh u hut hu
    rw [hs.popTicket]
    exact hc.popTicket_ne t u hut.symm (hpop hh) hu
  · rw [hs.pushed, hs.published, hs.popped, hs.returned, hidx.1, hidx.2.1, hidx.2.2.1, hidx.2.2.2]
    exact hc.idx
  · rw [hs.pushed, hs.published, hs.popped, hs.returned]
    exact hc.ord
  · intro u hu
    constructor
    · exact hs.pushRead u hu
    · exact hs.popRead u hu
    · rw [hs.pushTicket]
    · rw [hs.popTicket]
    · rw [hs.pushed]
    · rw [hs.popped]
    · rw [hs.published]
    · rw [hs.returned]
    · rw [hs.published]
      exact fun hh => (hc.held_push hh).1
    · rw [hs.returned]
      exact fun hh => (hc.held_pop hh).1

theorem Counters.hasPlace_iff (hc : Counters cap h q) :
    HasPlace cap q (h.pushed.length % cap) ↔
      h.pushed.length + 1 < h.returned.length + cap := by
  have hord := hc.ord
  rw [HasPlace, mod_succ, hc.shadowPopIdx]
  constructor
  · intro hne
    by_contra hfull
    have he : h.pushed.length + 1 = h.returned.length + cap := by omega
    exact hne (by rw [he, Nat.add_mod_right])
  · intro hlt he
    have := eq_of_mod_eq (show h.returned.length ≤ h.pushed.length + 1 by omega) hlt he.symm
    omega

theorem Counters.canPop_iff (hc : Counters cap h q) :
    canPop q (h.popped % cap) ↔ h.popped < h.published.length := by
  have hord := hc.ord
  rw [canPop, hc.shadowPushIdx]
  constructor
  · intro hne
    by_contra hempty
    exact hne (by rw [show h.popped = h.published.length by omega])
  · intro hlt he
    have := eq_of_mod_eq hord.2.1 (by omega) he
    omega

theorem Counters.pushTicket_eq (hc : Counters cap h q) {stale : ℕ}
    (hpc : q.pc t = .pushRelease stale) (hs : q.shadowPushIdx = stale) :
    h.pushTicket t = h.published.length := by
  have hth := hc.thread t
  have hord := hc.ord
  rw [hpc] at hth
  obtain ⟨rfl, hle, hlt⟩ := hth
  rw [hc.shadowPushIdx] at hs
  exact (eq_of_mod_eq hle (by omega) hs).symm

theorem Counters.popTicket_eq (hc : Counters cap h q) {ans : α} {stale : ℕ}
    (hpc : q.pc t = .popRelease ans stale) (hs : q.shadowPopIdx = stale) :
    h.popTicket t = h.returned.length := by
  have hth := hc.thread t
  have hord := hc.ord
  rw [hpc] at hth
  obtain ⟨rfl, hle, hlt⟩ := hth
  rw [hc.shadowPopIdx] at hs
  exact (eq_of_mod_eq hle (by omega) hs).symm

theorem Counters.init (hcap : 1 ≤ cap) (data : ℕ → α) :
    Counters cap .empty (⟨data, 0, 0, 0, 0, fun _ => .idle⟩ : Queue τ α) := by
  constructor <;> simp [History.empty, ThreadCounts, Pc.HoldsPush, Pc.HoldsPop]
  omega

section step
variable [DecidableEq τ] {tr : List (Event τ α)} {e : Event τ α}

theorem Counters.step (hc : Counters cap h q) (hok : h.NoWrap e) (hs : Step cap q e q') :
    Counters cap (h.record e) q' := by
  have hord := hc.ord
  have hidx := hc.idx
  cases hs with
  | @pushLoad t val hpc =>
    apply hc.silent (silent_pushRead h t _) (fun _ hu => goto_pc_ne hu) goto_idx
    · simp [Pc.HoldsPush]
    · simp [Pc.HoldsPop]
    · simp [ThreadCounts, hc.pushIdx]
  | @pushChecked t val cur hpc hfree =>
    have hth := hc.thread t
    rw [hpc] at hth
    obtain ⟨rfl, hle⟩ := hth
    apply hc.silent (silent_self h t) (fun _ hu => goto_pc_ne hu) goto_idx
    · simp [Pc.HoldsPush]
    · simp [Pc.HoldsPop]
    · rw [goto_pc_self]
      exact ⟨rfl, hle, fun he => hc.hasPlace_iff.mp (he ▸ hfree)⟩
  | @pushRefused t val cur hpc hfull =>
    apply hc.silent (silent_self h t) (fun _ hu => goto_pc_ne hu) goto_idx
    · simp [Pc.HoldsPush]
    · simp [Pc.HoldsPop]
    · simp [ThreadCounts]
  | @pushClaimed t val cur hpc hcur =>
    have hth := hc.thread t
    rw [hpc] at hth
    have hroom := hth.2.2 hok
    refine hc.of_step (t := t) (fun u hu => goto_pc_ne hu) (fun u hu => ?_) ?_ ?_ ?_ ?_ ?_
    · exact ⟨rfl, rfl, Function.update_of_ne hu .., rfl, by simp [History.record], le_rfl, le_rfl,
        le_rfl, fun hu => (hc.held_push hu).1, fun hu => (hc.held_pop hu).1⟩
    · simp [ThreadCounts, History.record, ← hcur, hc.pushIdx, hord.2.2.1]
    · intro _ u _ hu
      simpa [History.record] using (hc.held_push hu).2.ne'
    · simp [Pc.HoldsPop]
    · simp [History.record, ← hcur, hidx, mod_succ]
    · simp only [History.record, List.length_append, List.length_singleton]
      omega
  | @pushRetried t val cur hpc hcur =>
    apply hc.silent (silent_pushRead h t _) (fun _ hu => goto_pc_ne hu) goto_idx
    · simp [Pc.HoldsPush]
    · simp [Pc.HoldsPop]
    · simp [ThreadCounts, hc.pushIdx]
  | @stored t val cur hpc =>
    have hth := hc.thread t
    rw [hpc] at hth
    refine hc.silent (silent_accesses h t _) (fun _ hu => goto_pc_ne hu) goto_idx ?_ ?_ ?_
    · rw [hpc]
      exact fun _ => trivial
    · simp [Pc.HoldsPop]
    · rw [goto_pc_self]
      exact hth
  | @pushReleased t stale hpc hst =>
    have hticket := hc.pushTicket_eq hpc hst
    have hheld := hc.held_push (u := t) (by rw [hpc]; trivial)
    refine hc.of_step (t := t) (fun u hu => goto_pc_ne hu) (fun u hu => ?_) ?_ ?_ ?_ ?_ ?_
    · refine ⟨rfl, rfl, rfl, rfl, le_rfl, le_rfl, by simp [History.record], le_rfl,
        fun hhu => ?_, fun hhu => (hc.held_pop hhu).1⟩
      have hne := hc.pushTicket_ne t u hu.symm (by rw [hpc]; trivial) hhu
      have hle := (hc.held_push hhu).1
      simp only [History.record, List.length_append, List.length_singleton]
      omega
    · simp [ThreadCounts]
    · simp [Pc.HoldsPush]
    · simp [Pc.HoldsPop]
    · simp [History.record, ← hst, hidx, mod_succ]
    · simp only [History.record, List.length_append, List.length_singleton]
      omega
  | pushWaited => exact hc
  | @popLoad t hpc =>
    apply hc.silent (silent_popRead h t _) (fun _ hu => goto_pc_ne hu) goto_idx
    · simp [Pc.HoldsPush]
    · simp [Pc.HoldsPop]
    · simp [ThreadCounts, hc.popIdx]
  | @popChecked t cur hpc hsome =>
    have hth := hc.thread t
    rw [hpc] at hth
    obtain ⟨rfl, hle⟩ := hth
    apply hc.silent (silent_self h t) (fun _ hu => goto_pc_ne hu) goto_idx
    · simp [Pc.HoldsPush]
    · simp [Pc.HoldsPop]
    · rw [goto_pc_self]
      exact ⟨rfl, hle, fun he => hc.canPop_iff.mp (he ▸ hsome)⟩
  | @popRefused t cur hpc hnone =>
    apply hc.silent (silent_self h t) (fun _ hu => goto_pc_ne hu) goto_idx
    · simp [Pc.HoldsPush]
    · simp [Pc.HoldsPop]
    · simp [ThreadCounts]
  | @popClaimed t cur hpc hcur =>
    have hth := hc.thread t
    rw [hpc] at hth
    have hsome := hth.2.2 hok
    refine hc.of_step (t := t) (fun u hu => goto_pc_ne hu) (fun u hu => ?_) ?_ ?_ ?_ ?_ ?_
    · exact ⟨rfl, rfl, rfl, Function.update_of_ne hu .., le_rfl, Nat.le_succ _, le_rfl, le_rfl,
        fun hu => (hc.held_push hu).1, fun hu => (hc.held_pop hu).1⟩
    · simp [ThreadCounts, History.record, ← hcur, hc.popIdx, hord.1]
    · simp [Pc.HoldsPush]
    · intro _ u _ hu
      simpa [History.record] using (hc.held_pop hu).2.ne'
    · simp [History.record, ← hcur, hidx, mod_succ]
    · simp only [History.record]
      omega
  | @popRetried t cur hpc hcur =>
    apply hc.silent (silent_popRead h t _) (fun _ hu => goto_pc_ne hu) goto_idx
    · simp [Pc.HoldsPush]
    · simp [Pc.HoldsPop]
    · simp [ThreadCounts, hc.popIdx]
  | @read t cur hpc =>
    have hth := hc.thread t
    rw [hpc] at hth
    refine hc.silent (silent_accesses h t _) (fun _ hu => goto_pc_ne hu) goto_idx ?_ ?_ ?_
    · simp [Pc.HoldsPush]
    · rw [hpc]
      exact fun _ => trivial
    · rw [goto_pc_self]
      exact hth
  | @popReleased t ans stale hpc hst =>
    have hticket := hc.popTicket_eq hpc hst
    have hheld := hc.held_pop (u := t) (by rw [hpc]; trivial)
    refine hc.of_step (t := t) (fun u hu => goto_pc_ne hu) (fun u hu => ?_) ?_ ?_ ?_ ?_ ?_
    · refine ⟨rfl, rfl, rfl, rfl, le_rfl, le_rfl, le_rfl, by simp [History.record],
        fun hhu => (hc.held_push hhu).1, fun hhu => ?_⟩
      have hne := hc.popTicket_ne t u hu.symm (by rw [hpc]; trivial) hhu
      have hle := (hc.held_pop hhu).1
      simp only [History.record, List.length_append, List.length_singleton]
      omega
    · simp [ThreadCounts]
    · simp [Pc.HoldsPush]
    · simp [Pc.HoldsPop]
    · simp [History.record, ← hst, hidx, mod_succ]
    · simp only [History.record, List.length_append, List.length_singleton]
      omega
  | popWaited => exact hc

theorem run_counters (hcap : 1 ≤ cap) {tr : List (Event τ α)} (hr : (system cap).Run noWrap tr q) :
    Counters cap (hist tr) q := by
  refine System.run_invariant (P := fun tr q => Counters cap (hist tr) q) ?_ ?_ hr
  · intro q hq
    obtain ⟨data, rfl⟩ := hq
    exact .init hcap data
  · intro tr q e q' _ hc hok hs
    rw [hist_concat]
    exact hc.step hok (step_cases hs)

/-- As long as no exchange succeeds on a stale index, no claimed push over-fills the ring and
no claimed pop takes an empty slot. -/
theorem claims_bounded (hcap : 2 ≤ cap) (hint : cap < 2 ^ 31) (hr : (system cap).Run noWrap tr q) :
    (hist tr).pushed.length ≤ (hist tr).returned.length + (cap - 1) ∧
      (hist tr).popped ≤ (hist tr).published.length ∧ Defined cap q := by
  have hord := (run_counters (by omega) hr).ord
  exact ⟨by omega, hord.2.1, (run_inRing (by omega) hr).defined hint⟩

end step

/-- A thread passes its check, another goes once round the ring and fills it, and the first
thread's exchange succeeds on the index it read at the start. -/
theorem claims_bounded_fails : ∃ tr q, (system 2 : System (Queue Bool ℕ) _).Run System.always tr q ∧
    ¬ ((hist tr).pushed.length ≤ (hist tr).returned.length + (2 - 1) ∧
      (hist tr).popped ≤ (hist tr).published.length) :=
  ⟨[.pushLoad false 7, .canPush false true,
    .pushLoad true 1, .canPush true true, .pushExchange true 1 true, .store true 0,
    .pushRelease true true,
    .popLoad true, .canPop true true, .popExchange true true, .read true 0 1,
    .popRelease true 1 true,
    .pushLoad true 2, .canPush true true, .pushExchange true 2 true,
    .pushExchange false 7 true], _,
    System.run_of_exec exec_step ⟨fun _ => 0, rfl⟩ rfl, by decide⟩

theorem claims_bounded_sample : ∃ tr q, (system 2 : System (Queue Bool ℕ) _).Run noWrap tr q ∧
    (hist tr).pushed.length ≤ (hist tr).returned.length + (2 - 1) ∧
      (hist tr).popped ≤ (hist tr).published.length := by
  have hr : ∃ q, (system 2 : System (Queue Bool ℕ) _).Run noWrap
      [.pushLoad true 1, .canPush true true, .pushExchange true 1 true, .store true 0,
        .pushRelease true true, .popLoad true, .canPop true true, .popExchange true true] q :=
    ⟨_, System.run_of_exec exec_step ⟨fun _ => 0, rfl⟩ rfl⟩
  obtain ⟨q, hr⟩ := hr
  obtain ⟨hpush, hpop, -⟩ := claims_bounded le_rfl (by decide) hr
  exact ⟨_, q, hr, hpush, hpop⟩

section refusals
variable [DecidableEq τ]

def Event.Starts (t : τ) : Event τ α → Prop
  | .pushLoad u _ => u = t
  | .popLoad u => u = t
  | _ => False

instance (t : τ) (e : Event τ α) : Decidable (e.Starts t) := by
  cases e <;> first
    | exact inferInstanceAs (Decidable (_ = _))
    | exact inferInstanceAs (Decidable False)

def callMoments (t : τ) (tr : List (Event τ α)) : List (List (Event τ α)) :=
  momentsSince (Event.Starts t) tr

theorem Counters.full_of_refused (hc : Counters cap h q) {t : τ}
    (hfresh : h.FreshRefusal (.canPush t false)) (hs : Step cap q (.canPush t false) q') :
    h.pushed.length = h.returned.length + (cap - 1) := by
  have hord := hc.ord
  cases hs with
  | @pushRefused _ val cur hpc hfull =>
    have hth := hc.thread t
    rw [hpc] at hth
    rw [hth.1, show h.pushRead t = h.pushed.length from hfresh, hc.hasPlace_iff] at hfull
    omega

theorem Counters.empty_of_refused (hc : Counters cap h q) {t : τ}
    (hfresh : h.FreshRefusal (.canPop t false)) (hs : Step cap q (.canPop t false) q') :
    h.popped = h.published.length := by
  have hord := hc.ord
  cases hs with
  | @popRefused _ cur hpc hnone =>
    have hth := hc.thread t
    rw [hpc] at hth
    rw [hth.1, show h.popRead t = h.popped from hfresh, hc.canPop_iff] at hnone
    omega

/-- A refusal on an index that was not advanced since it was read is justified by the moment
of the check. -/
theorem refusals_justified (hcap : 2 ≤ cap) (hint : cap < 2 ^ 31) {tr : List (Event τ α)}
    (hr : (system cap).Run freshRefusal tr q) :
    (∀ pre t, pre ++ [.canPush t false] <+: tr → ∃ p ∈ callMoments t pre,
      (hist p).pushed.length = (hist p).returned.length + (cap - 1)) ∧
    (∀ pre t, pre ++ [.canPop t false] <+: tr → ∃ p ∈ callMoments t pre,
      (hist p).popped = (hist p).published.length) ∧ Defined cap q := by
  have hstep : ∀ pre e, pre ++ [e] <+: tr → ∃ s s' : Queue τ α,
      Counters cap (hist pre) s ∧ (hist pre).FreshRefusal e ∧ Step cap s e s' := by
    intro pre e hp
    obtain ⟨s', hr'⟩ := System.run_prefix hr hp
    obtain ⟨s, hrs, hok, hs⟩ := System.run_concat hr'
    have hwrap : (system cap).Run noWrap pre s :=
      System.run_mono (fun _ h => h) (fun _ _ _ h => h) (fun _ _ h => h.1) hrs
    exact ⟨s, s', run_counters (by omega) hwrap, hok.2, step_cases hs⟩
  refine ⟨?_, ?_, (run_inRing (by omega) hr).defined hint⟩
  · intro pre t hp
    obtain ⟨s, s', hc, hfresh, hs⟩ := hstep pre _ hp
    exact ⟨pre, self_mem_momentsSince, hc.full_of_refused hfresh hs⟩
  · intro pre t hp
    obtain ⟨s, s', hc, hfresh, hs⟩ := hstep pre _ hp
    exact ⟨pre, self_mem_momentsSince, hc.empty_of_refused hfresh hs⟩

def overtakenPush : List (Event Bool ℕ) :=
  [.pushLoad false 7,
    .pushLoad true 1, .canPush true true, .pushExchange true 1 true, .store true 0,
    .pushRelease true true,
    .popLoad true, .canPop true true, .popExchange true true, .read true 0 1,
    .popRelease true 1 true]

/-- The overtaken push is refused although at most one of three places was ever taken. -/
theorem refusals_justified_fails : ∃ tr q,
    (system 4 : System (Queue Bool ℕ) _).Run System.always tr q ∧
    ¬ ((∀ pre t, pre ++ [.canPush t false] <+: tr → ∃ p ∈ callMoments t pre,
        (hist p).pushed.length = (hist p).returned.length + (4 - 1)) ∧
      (∀ pre t, pre ++ [.canPop t false] <+: tr → ∃ p ∈ callMoments t pre,
        (hist p).popped = (hist p).published.length)) :=
  ⟨overtakenPush ++ [.canPush false false], _,
    System.run_of_exec exec_step ⟨fun _ => 0, rfl⟩ rfl,
    fun h => absurd (h.1 overtakenPush false (List.prefix_refl _)) (by decide)⟩

theorem refusals_justified_sample : ∃ tr q,
    (system 4 : System (Queue Bool ℕ) _).Run freshRefusal tr q ∧
    ∃ p ∈ callMoments true tr.dropLast, (hist p).popped = (hist p).published.length := by
  have hr : ∃ q, (system 4 : System (Queue Bool ℕ) _).Run freshRefusal
      [.pushLoad false 7, .popLoad true, .canPop true false] q :=
    ⟨_, System.run_of_exec exec_step ⟨fun _ => 0, rfl⟩ rfl⟩
  obtain ⟨q, hr⟩ := hr
  obtain ⟨-, hpop, -⟩ := refusals_justified (by omega) (by decide) hr
  exact ⟨_, q, hr, hpop _ true (List.prefix_refl _)⟩

end refusals

end ModCpp.LocklessQueue
