import ModCpp.LocklessQueueCounters
import ModCpp.Progress
import ModCpp.TicketRing

/-!
# Progress of the lockless queue

A thread that has claimed a slot waits for the threads with smaller tickets. Every ticket that
is out is held by some thread, and the one whose ticket is called does not wait. An exchange
fails only if another one has succeeded in the meantime, and a call has one to make, so a run does
a bounded amount of work for each call.
-/

namespace ModCpp.LocklessQueue
variable {τ α : Type*} {cap : ℕ} {q q' : Queue τ α} {h h' : History τ α} {t u : τ} {e : Event τ α}

def Event.Opens : Event τ α → Prop
  | .pushLoad _ _ => True
  | .popLoad _ => True
  | _ => False

/-- A turn of a release loop that finds another thread's ticket is not done leaves everything
as it is. -/
def Event.Works : Event τ α → Prop
  | .pushLoad _ _ => False
  | .popLoad _ => False
  | .pushRelease _ success => success
  | .popRelease _ _ success => success
  | _ => True

instance : DecidablePred (Event.Opens : Event τ α → Prop)
  | .pushLoad _ _ | .popLoad _ => inferInstanceAs (Decidable True)
  | .canPush _ _ | .pushExchange _ _ _ | .store _ _ | .pushRelease _ _ | .canPop _ _
  | .popExchange _ _ | .read _ _ _ | .popRelease _ _ _ => inferInstanceAs (Decidable False)

instance : DecidablePred (Event.Works : Event τ α → Prop)
  | .pushLoad _ _ | .popLoad _ => inferInstanceAs (Decidable False)
  | .pushRelease _ success | .popRelease _ _ success => inferInstanceAs (Decidable (success = true))
  | .canPush _ _ | .pushExchange _ _ _ | .store _ _ | .canPop _ _ | .popExchange _ _
  | .read _ _ _ => inferInstanceAs (Decidable True)

def Queue.Busy (q : Queue τ α) : Prop := ∃ t, q.pc t ≠ .idle

section rank

/-- What an index read some time ago is still good for. -/
def staleness (idx cur : ℕ) : ℕ := if idx = cur then 0 else 2

theorem staleness_le (idx cur : ℕ) : staleness idx cur ≤ 2 := by
  rw [staleness]
  split_ifs <;> omega

@[simp] theorem staleness_self (idx : ℕ) : staleness idx idx = 0 := if_pos rfl

theorem staleness_ne {idx cur : ℕ} (h : idx ≠ cur) : staleness idx cur = 2 := if_neg h

/-- How many steps a call among `n` may still take, with those that the others cause it. -/
def callRank (n pushIdx popIdx : ℕ) : Pc α → ℕ
  | .idle => 0
  | .canPush _ cur => 2 * n + 4 + staleness pushIdx cur
  | .pushExchange _ cur => 2 * n + 3 + staleness pushIdx cur
  | .store _ _ => 2
  | .pushRelease _ => 1
  | .canPop cur => 2 * n + 4 + staleness popIdx cur
  | .popExchange cur => 2 * n + 3 + staleness popIdx cur
  | .read _ => 2
  | .popRelease _ _ => 1

theorem callRank_le (n pushIdx popIdx : ℕ) (p : Pc α) :
    callRank n pushIdx popIdx p ≤ 2 * n + 6 := by
  cases p with
  | canPush val cur =>
    have := staleness_le pushIdx cur
    rw [callRank]
    omega
  | pushExchange val cur =>
    have := staleness_le pushIdx cur
    rw [callRank]
    omega
  | canPop cur =>
    have := staleness_le popIdx cur
    rw [callRank]
    omega
  | popExchange cur =>
    have := staleness_le popIdx cur
    rw [callRank]
    omega
  | _ =>
    rw [callRank]
    omega

/-- An index that is advanced costs another call two steps at most. -/
theorem callRank_advanced (n pushIdx popIdx pushIdx' popIdx' : ℕ) (p : Pc α) :
    callRank n pushIdx' popIdx' p ≤ callRank n pushIdx popIdx p + 2 := by
  cases p with
  | canPush val cur =>
    have := staleness_le pushIdx' cur
    simp only [callRank]
    omega
  | pushExchange val cur =>
    have := staleness_le pushIdx' cur
    simp only [callRank]
    omega
  | canPop cur =>
    have := staleness_le popIdx' cur
    simp only [callRank]
    omega
  | popExchange cur =>
    have := staleness_le popIdx' cur
    simp only [callRank]
    omega
  | _ =>
    simp only [callRank]
    omega

variable [Fintype τ]

def Queue.rankOf (q : Queue τ α) (t : τ) : ℕ :=
  callRank (Fintype.card τ) q.pushIdx q.popIdx (q.pc t)

def Queue.rank (q : Queue τ α) : ℕ := ∑ t, q.rankOf t

theorem rank_le (q : Queue τ α) : q.rank ≤ Fintype.card τ * (2 * Fintype.card τ + 6) :=
  sum_le_card_mul fun _ => callRank_le ..

variable [DecidableEq τ]

theorem rank_init (hq : (system cap).init q) : q.rank = 0 := by
  obtain ⟨data, rfl⟩ := hq
  exact Finset.sum_eq_zero fun _ _ => rfl

theorem rank_goto_add {p : Pc α} (hidx : q'.pushIdx = q.pushIdx ∧ q'.popIdx = q.popIdx)
    (hpc : q'.pc = q.pc) : (q'.goto t p).rank + q.rankOf t =
      q.rank + callRank (Fintype.card τ) q.pushIdx q.popIdx p := by
  have ht : (q'.goto t p).rankOf t = callRank (Fintype.card τ) q.pushIdx q.popIdx p := by
    rw [Queue.rankOf, goto_pushIdx, goto_popIdx, goto_pc_self, hidx.1, hidx.2]
  rw [← ht]
  apply sum_step
  intro u hu
  rw [Queue.rankOf, goto_pushIdx, goto_popIdx, goto_pc_ne hu, hidx.1, hidx.2, hpc]
  rfl

theorem rank_goto {p : Pc α} (hidx : q'.pushIdx = q.pushIdx ∧ q'.popIdx = q.popIdx)
    (hpc : q'.pc = q.pc) (ht : callRank (Fintype.card τ) q.pushIdx q.popIdx p < q.rankOf t) :
    (q'.goto t p).rank < q.rank := by
  have := rank_goto_add (t := t) (p := p) hidx hpc
  omega

theorem rank_claim {p : Pc α} (hpc : q'.pc = q.pc)
    (ht : callRank (Fintype.card τ) q'.pushIdx q'.popIdx p + Fintype.card τ * 2 < q.rankOf t) :
    (q'.goto t p).rank < q.rank := by
  apply sum_lt_of_drop (d := 2) (t := t)
  · intro u hu
    rw [Queue.rankOf, goto_pushIdx, goto_popIdx, goto_pc_ne hu, hpc]
    exact callRank_advanced ..
  · rw [Queue.rankOf, goto_pushIdx, goto_popIdx, goto_pc_self]
    exact ht

theorem Step.rank_lt (hs : Step cap q e q') (he : e.Works) : q'.rank < q.rank := by
  cases hs with
  | pushLoad | popLoad => cases he
  | pushWaited | popWaited => cases he
  | @pushChecked t val cur hpc _ =>
    apply rank_goto ⟨rfl, rfl⟩ rfl
    rw [Queue.rankOf, hpc, callRank, callRank]
    omega
  | @pushRefused t val cur hpc _ =>
    apply rank_goto ⟨rfl, rfl⟩ rfl
    rw [Queue.rankOf, hpc, callRank, callRank]
    omega
  | @pushClaimed t val cur hpc hcur =>
    have hframe : ({ q with pushIdx := (cur + 1) % cap } : Queue τ α).pc = q.pc := rfl
    apply rank_claim hframe
    rw [Queue.rankOf, hpc, callRank, callRank]
    omega
  | @pushRetried t val cur hpc hcur =>
    apply rank_goto ⟨rfl, rfl⟩ rfl
    rw [Queue.rankOf, hpc, callRank, callRank, staleness_self, staleness_ne hcur]
    omega
  | @stored t val cur hpc =>
    apply rank_goto ⟨rfl, rfl⟩ rfl
    rw [Queue.rankOf, hpc, callRank, callRank]
    omega
  | @pushReleased t stale hpc _ =>
    apply rank_goto ⟨rfl, rfl⟩ rfl
    rw [Queue.rankOf, hpc, callRank, callRank]
    omega
  | @popChecked t cur hpc _ =>
    apply rank_goto ⟨rfl, rfl⟩ rfl
    rw [Queue.rankOf, hpc, callRank, callRank]
    omega
  | @popRefused t cur hpc _ =>
    apply rank_goto ⟨rfl, rfl⟩ rfl
    rw [Queue.rankOf, hpc, callRank, callRank]
    omega
  | @popClaimed t cur hpc hcur =>
    have hframe : ({ q with popIdx := (cur + 1) % cap } : Queue τ α).pc = q.pc := rfl
    apply rank_claim hframe
    rw [Queue.rankOf, hpc, callRank, callRank]
    omega
  | @popRetried t cur hpc hcur =>
    apply rank_goto ⟨rfl, rfl⟩ rfl
    rw [Queue.rankOf, hpc, callRank, callRank, staleness_self, staleness_ne hcur]
    omega
  | @read t cur hpc =>
    apply rank_goto ⟨rfl, rfl⟩ rfl
    rw [Queue.rankOf, hpc, callRank, callRank]
    omega
  | @popReleased t ans stale hpc _ =>
    apply rank_goto ⟨rfl, rfl⟩ rfl
    rw [Queue.rankOf, hpc, callRank, callRank]
    omega

theorem Step.rank_le (hs : Step cap q e q') (ho : ¬ e.Opens) (he : ¬ e.Works) :
    q'.rank ≤ q.rank := by
  cases hs with
  | pushLoad | popLoad => exact absurd trivial ho
  | pushWaited | popWaited => exact le_rfl
  | _ => first
    | exact absurd trivial he
    | exact absurd rfl he

theorem Step.rank_open (hs : Step cap q e q') (he : e.Opens) :
    ¬ e.Works ∧ q'.rank ≤ q.rank + (2 * Fintype.card τ + 4) := by
  cases hs with
  | @pushLoad t val hpc =>
    refine ⟨id, ?_⟩
    have := rank_goto_add (q := q) (t := t) (p := .canPush val q.pushIdx) ⟨rfl, rfl⟩ rfl
    rw [callRank, staleness_self] at this
    omega
  | @popLoad t hpc =>
    refine ⟨id, ?_⟩
    have := rank_goto_add (q := q) (t := t) (p := .canPop q.popIdx) ⟨rfl, rfl⟩ rfl
    rw [callRank, staleness_self] at this
    omega
  | _ => cases he

end rank

section tickets
variable {p p' : Pc α}

def Pc.pushSlot : Pc α → Option ℕ
  | .store _ cur => some cur
  | .pushRelease stale => some stale
  | _ => none

def Pc.popSlot : Pc α → Option ℕ
  | .read cur => some cur
  | .popRelease _ stale => some stale
  | _ => none

structure Tickets [Fintype τ] (cap : ℕ) (q : Queue τ α) : Prop where
  push : Ticketed cap q.pushIdx q.shadowPushIdx fun t => (q.pc t).pushSlot
  pop : Ticketed cap q.popIdx q.shadowPopIdx fun t => (q.pc t).popSlot

theorem Tickets.init [Fintype τ] (cap : ℕ) (data : ℕ → α) :
    Tickets cap (⟨data, 0, 0, 0, 0, fun _ => .idle⟩ : Queue τ α) := ⟨.init cap, .init cap⟩

section threads
variable [DecidableEq τ]

theorem goto_slots {β : Type*} (slot : Pc α → β) :
    (fun u => slot ((q.goto t p).pc u)) = Function.update (fun u => slot (q.pc u)) t (slot p) :=
  Function.comp_update slot q.pc t p

theorem goto_slots_same {β : Type*} {slot : Pc α → β} (hslot : slot p = slot (q.pc t)) :
    (fun u => slot ((q.goto t p).pc u)) = fun u => slot (q.pc u) := by
  rw [goto_slots, hslot, Function.update_eq_self]

theorem works_of_next {r : Queue τ α × Event τ α} (hnext : next cap q t .pop = some r)
    (ht : q.pc t ≠ .idle) (hpush : ∀ stale, q.pc t = .pushRelease stale → q.shadowPushIdx = stale)
    (hpop : ∀ ans stale, q.pc t = .popRelease ans stale → q.shadowPopIdx = stale) :
    r.2.Works := by
  unfold next at hnext
  split at hnext
  next hpc => exact absurd hpc ht
  next =>
    obtain ⟨flag, -, rfl⟩ := Option.map_eq_some_iff.mp hnext
    cases flag <;> trivial
  next =>
    obtain ⟨idx, -, rfl⟩ := Option.map_eq_some_iff.mp hnext
    split_ifs <;> trivial
  next =>
    cases hnext
    trivial
  next stale hpc =>
    obtain ⟨idx, -, rfl⟩ := Option.map_eq_some_iff.mp hnext
    rw [if_pos (hpush stale hpc)]
    rfl
  next =>
    split_ifs at hnext <;> cases hnext <;> trivial
  next =>
    obtain ⟨idx, -, rfl⟩ := Option.map_eq_some_iff.mp hnext
    split_ifs <;> trivial
  next =>
    cases hnext
    trivial
  next ans stale hpc =>
    obtain ⟨idx, -, rfl⟩ := Option.map_eq_some_iff.mp hnext
    rw [if_pos (hpop ans stale hpc)]
    rfl

theorem works_of_pushSlot {r : Queue τ α × Event τ α} (hnext : next cap q u .pop = some r)
    (hu : (q.pc u).pushSlot = some q.shadowPushIdx) : r.2.Works := by
  apply works_of_next hnext
  · intro hpc
    rw [hpc] at hu
    cases hu
  · intro stale hpc
    rw [hpc] at hu
    exact (Option.some_inj.mp hu).symm
  · intro ans stale hpc
    rw [hpc] at hu
    cases hu

theorem works_of_popSlot {r : Queue τ α × Event τ α} (hnext : next cap q u .pop = some r)
    (hu : (q.pc u).popSlot = some q.shadowPopIdx) : r.2.Works := by
  apply works_of_next hnext
  · intro hpc
    rw [hpc] at hu
    cases hu
  · intro stale hpc
    rw [hpc] at hu
    cases hu
  · intro ans stale hpc
    rw [hpc] at hu
    exact (Option.some_inj.mp hu).symm

end threads

variable [Fintype τ] [DecidableEq τ]

theorem Tickets.silent (h : Tickets cap q) (hpc : q.pc t = p) (hpush : p'.pushSlot = p.pushSlot)
    (hpop : p'.popSlot = p.popSlot) : Tickets cap (q.goto t p') := by
  constructor
  · rw [goto_slots_same (hpush.trans (congrArg Pc.pushSlot hpc.symm))]
    exact h.push
  · rw [goto_slots_same (hpop.trans (congrArg Pc.popSlot hpc.symm))]
    exact h.pop

theorem Tickets.step (h : Tickets cap q) (hs : Step cap q e q') : Tickets cap q' := by
  cases hs with
  | pushLoad val hpc => exact h.silent hpc rfl rfl
  | pushChecked hpc _ => exact h.silent hpc rfl rfl
  | pushRefused hpc _ => exact h.silent hpc rfl rfl
  | @pushClaimed t val cur hpc hcur =>
    constructor
    · have hclaim := h.push.claim (t := t) (by rw [hpc]; rfl)
      rw [goto_slots, ← hcur]
      exact hclaim
    · rw [goto_slots_same (by rw [hpc]; rfl)]
      exact h.pop
  | pushRetried hpc _ => exact h.silent hpc rfl rfl
  | @stored t val cur hpc =>
    have hdata : Tickets cap { q with data := Function.update q.data cur val } := ⟨h.push, h.pop⟩
    exact hdata.silent hpc rfl rfl
  | @pushReleased t stale hpc hst =>
    constructor
    · have hrelease := h.push.release (t := t) (by rw [hpc, hst]; rfl)
      rw [goto_slots, ← hst]
      exact hrelease
    · rw [goto_slots_same (by rw [hpc]; rfl)]
      exact h.pop
  | pushWaited => exact h
  | popLoad hpc => exact h.silent hpc rfl rfl
  | popChecked hpc _ => exact h.silent hpc rfl rfl
  | popRefused hpc _ => exact h.silent hpc rfl rfl
  | @popClaimed t cur hpc hcur =>
    constructor
    · rw [goto_slots_same (by rw [hpc]; rfl)]
      exact h.push
    · have hclaim := h.pop.claim (t := t) (by rw [hpc]; rfl)
      rw [goto_slots, ← hcur]
      exact hclaim
  | popRetried hpc _ => exact h.silent hpc rfl rfl
  | read hpc => exact h.silent hpc rfl rfl
  | @popReleased t ans stale hpc hst =>
    constructor
    · rw [goto_slots_same (by rw [hpc]; rfl)]
      exact h.push
    · have hrelease := h.pop.release (t := t) (by rw [hpc, hst]; rfl)
      rw [goto_slots, ← hst]
      exact hrelease
  | popWaited => exact h

theorem run_tickets {tr : List (Event τ α)} (hr : (system cap).Run System.always tr q) :
    Tickets cap q := by
  refine System.run_invariant (P := fun _ q => Tickets cap q) ?_ ?_ hr
  · intro q hq
    obtain ⟨data, rfl⟩ := hq
    exact .init cap data
  · intro tr q e q' _ h _ hs
    exact h.step (step_cases hs)

/-- A call in progress does not wait, or there is another one that does not. -/
theorem Tickets.exists_work (h : Tickets cap q) (hd : Defined cap q) (hb : q.Busy) :
    ∃ e q', Event.Works e ∧ (system cap).step q e q' := by
  have hsome : ∃ u, ∀ r, next cap q u .pop = some r → r.2.Works := by
    obtain ⟨t, ht⟩ := hb
    by_cases hpush : (q.pc t).pushSlot = none
    · by_cases hpop : (q.pc t).popSlot = none
      · refine ⟨t, fun r hnext => works_of_next hnext ht ?_ ?_⟩
        · intro stale hpc
          rw [hpc] at hpush
          cases hpush
        · intro ans stale hpc
          rw [hpc] at hpop
          cases hpop
      · obtain ⟨u, hu⟩ := h.pop.exists_next hpop
        exact ⟨u, fun r hnext => works_of_popSlot hnext hu⟩
    · obtain ⟨u, hu⟩ := h.push.exists_next hpush
      exact ⟨u, fun r hnext => works_of_pushSlot hnext hu⟩
  obtain ⟨u, hu⟩ := hsome
  obtain ⟨r, hnext⟩ := hd u .pop
  exact ⟨_, _, hu r hnext, u, .pop, hnext⟩

/-- The queue is never stuck, whatever the interleaving. The steps that do some work are bounded
by the number of calls, one of the calls in progress can always do some, and in so many such steps
all of them can be brought to an end. -/
theorem never_stuck (hcap : 1 ≤ cap) (hint : cap < 2 ^ 31) {tr : List (Event τ α)}
    (hr : (system cap).Run System.always tr q) :
    (tr.filter (·.Works)).length ≤ (2 * Fintype.card τ + 4) * (tr.filter (·.Opens)).length ∧
    ((∃ t, q.pc t ≠ .idle) → ∃ e q', e.Works ∧ (system cap).step q e q') ∧
    ∃ rest q', ((system cap).resumed q).Run System.always rest q' ∧ (∀ e ∈ rest, e.Works) ∧
      rest.length ≤ Fintype.card τ * (2 * Fintype.card τ + 6) ∧ ∀ t, q'.pc t = .idle := by
  have hworks : ∀ (s : Queue τ α) e s', (system cap).step s e s' → Event.Works e →
      s'.rank < s.rank := fun s e s' hs he => (step_cases hs).rank_lt he
  refine ⟨?_, (run_tickets hr).exists_work ((run_inRing hcap hr).defined hint), ?_⟩
  · have hle := System.work_le Queue.rank Event.Opens Event.Works 0 (2 * Fintype.card τ + 4)
      (fun q hq => (rank_init hq).le) (fun s e s' hs => (step_cases hs).rank_open) hworks
      (fun s e s' hs => (step_cases hs).rank_le) hr
    omega
  · have hbusy : ∀ tr (s : Queue τ α), (system cap).Run System.always tr s → s.Busy →
        ∃ e s', Event.Works e ∧ System.always tr e ∧ (system cap).step s e s' := by
      intro tr s hrs hb
      have hdefined := (run_inRing hcap hrs).defined hint
      obtain ⟨e, s', he, hs⟩ := (run_tickets hrs).exists_work hdefined hb
      exact ⟨e, s', he, trivial, hs⟩
    obtain ⟨rest, q', hr', hall, hlen, hdone⟩ :=
      System.exists_done Queue.rank Event.Works Queue.Busy hworks hbusy hr
    refine ⟨rest, q', hr', hall, hlen.trans (rank_le q), ?_⟩
    intro t
    by_contra ht
    exact hdone ⟨t, ht⟩

/-- The second of two pushes has filled its slot and waits for the first one. -/
theorem never_stuck_sample : ∃ q q' : Queue Bool ℕ, ∃ rest,
    q.pc false = .pushRelease 1 ∧ q.shadowPushIdx = 0 ∧
    ((system 4).resumed q).Run System.always rest q' ∧ rest.length ≤ 20 ∧ q'.pc false = .idle := by
  have hr : ∃ q, (system 4 : System (Queue Bool ℕ) _).Run System.always
      [.pushLoad true 7, .canPush true true, .pushExchange true 7 true,
        .pushLoad false 8, .canPush false true, .pushExchange false 8 true, .store false 1,
        .pushRelease false false] q ∧ q.pc false = .pushRelease 1 ∧ q.shadowPushIdx = 0 :=
    ⟨_, System.run_of_exec exec_step ⟨fun _ => 0, rfl⟩ rfl, rfl, rfl⟩
  obtain ⟨q, hr, hpc, hidx⟩ := hr
  obtain ⟨_, _, rest, q', hr', _, hlen, hidle⟩ := never_stuck (by decide) (by decide) hr
  exact ⟨q, q', rest, hpc, hidx, hr', hlen, hidle false⟩

end tickets
section retries

/-- What a thread has read of an index and not yet tried to exchange. -/
def Pc.pushSeen : Pc α → Option ℕ
  | .canPush _ cur => some cur
  | .pushExchange _ cur => some cur
  | _ => none

def Pc.popSeen : Pc α → Option ℕ
  | .canPop cur => some cur
  | .popExchange cur => some cur
  | _ => none

def Event.PushExchanged (success : Bool) : Event τ α → Prop
  | .pushExchange _ _ success' => success' = success
  | _ => False

def Event.PopExchanged (success : Bool) : Event τ α → Prop
  | .popExchange _ success' => success' = success
  | _ => False

instance (success : Bool) : DecidablePred (Event.PushExchanged success : Event τ α → Prop)
  | .pushExchange _ _ success' => inferInstanceAs (Decidable (success' = success))
  | .pushLoad _ _ | .canPush _ _ | .store _ _ | .pushRelease _ _ | .popLoad _ | .canPop _ _
  | .popExchange _ _ | .read _ _ _ | .popRelease _ _ _ => inferInstanceAs (Decidable False)

instance (success : Bool) : DecidablePred (Event.PopExchanged success : Event τ α → Prop)
  | .popExchange _ success' => inferInstanceAs (Decidable (success' = success))
  | .pushLoad _ _ | .canPush _ _ | .pushExchange _ _ _ | .store _ _ | .pushRelease _ _ | .popLoad _
  | .canPop _ _ | .read _ _ _ | .popRelease _ _ _ => inferInstanceAs (Decidable False)

def outdated (idx : ℕ) (seen : Option ℕ) : ℕ := if seen = none ∨ seen = some idx then 0 else 1

theorem outdated_le (idx : ℕ) (seen : Option ℕ) : outdated idx seen ≤ 1 := by
  rw [outdated]
  split_ifs <;> omega

@[simp] theorem outdated_none (idx : ℕ) : outdated idx none = 0 := if_pos (.inl rfl)

@[simp] theorem outdated_self (idx : ℕ) : outdated idx (some idx) = 0 := if_pos (.inr rfl)

theorem outdated_ne {idx cur : ℕ} (h : idx ≠ cur) : outdated idx (some cur) = 1 := by
  rw [outdated, if_neg]
  rintro (h' | h')
  · cases h'
  · exact h (Option.some_inj.mp h').symm

variable [Fintype τ] {p : Pc α} {idx : ℕ} {seen : Pc α → Option ℕ} {pc : τ → Pc α}

def stale (idx : ℕ) (seen : Pc α → Option ℕ) (pc : τ → Pc α) : ℕ := ∑ t, outdated idx (seen (pc t))

variable [DecidableEq τ]

theorem stale_update {c : ℕ} (ht : outdated idx (seen p) + c ≤ outdated idx (seen (pc t))) :
    stale idx seen (Function.update pc t p) + c ≤ stale idx seen pc := by
  have hsum := sum_step (f := fun u => outdated idx (seen (pc u)))
    (g := fun u => outdated idx (seen (Function.update pc t p u))) (t := t) (by
      intro u hu
      rw [Function.update_of_ne hu])
  rw [Function.update_self] at hsum
  rw [stale, stale]
  omega

theorem stale_advanced (idx : ℕ) (pc : τ → Pc α) (hp : seen p = none) :
    stale idx seen (Function.update pc t p) ≤ Fintype.card τ - 1 := by
  have hle := sum_le_of_zero (g := fun u => outdated idx (seen (Function.update pc t p u)))
    (t := t) (fun u => outdated_le ..) (by rw [Function.update_self, hp, outdated_none])
  rwa [Nat.mul_one] at hle

theorem Step.pushStale (hs : Step cap q e q') (he : ¬ e.PushExchanged true) :
    stale q'.pushIdx Pc.pushSeen q'.pc + (if e.PushExchanged false then 1 else 0) ≤
      stale q.pushIdx Pc.pushSeen q.pc := by
  cases hs with
  | pushWaited | popWaited => exact le_rfl
  | pushClaimed => exact absurd rfl he
  | pushRetried hpc hcur =>
    apply stale_update
    rw [hpc, Pc.pushSeen, Pc.pushSeen, goto_pushIdx, outdated_ne hcur]
    exact (congrArg (· + 1) (outdated_self q.pushIdx)).le
  | pushLoad val hpc =>
    apply stale_update
    rw [hpc, Pc.pushSeen]
    exact (outdated_self q.pushIdx).le
  | pushChecked hpc | pushRefused hpc | stored hpc | pushReleased hpc | popLoad hpc
  | popChecked hpc | popRefused hpc | popClaimed hpc | popRetried hpc | read hpc
  | popReleased hpc =>
    apply stale_update
    rw [hpc]
    first
      | exact le_rfl
      | exact Nat.zero_le _

theorem Step.popStale (hs : Step cap q e q') (he : ¬ e.PopExchanged true) :
    stale q'.popIdx Pc.popSeen q'.pc + (if e.PopExchanged false then 1 else 0) ≤
      stale q.popIdx Pc.popSeen q.pc := by
  cases hs with
  | pushWaited | popWaited => exact le_rfl
  | popClaimed => exact absurd rfl he
  | popRetried hpc hcur =>
    apply stale_update
    rw [hpc, Pc.popSeen, Pc.popSeen, goto_popIdx, outdated_ne hcur]
    exact (congrArg (· + 1) (outdated_self q.popIdx)).le
  | popLoad hpc =>
    apply stale_update
    rw [hpc, Pc.popSeen]
    exact (outdated_self q.popIdx).le
  | pushLoad val hpc | pushChecked hpc | pushRefused hpc | pushClaimed hpc | pushRetried hpc
  | stored hpc | pushReleased hpc | popChecked hpc | popRefused hpc | read hpc
  | popReleased hpc =>
    apply stale_update
    rw [hpc]
    first
      | exact le_rfl
      | exact Nat.zero_le _

theorem Step.pushAdvanced (hs : Step cap q e q') (he : e.PushExchanged true) :
    ¬ e.PushExchanged false ∧ stale q'.pushIdx Pc.pushSeen q'.pc ≤
      stale q.pushIdx Pc.pushSeen q.pc + (Fintype.card τ - 1) := by
  cases hs with
  | pushClaimed => exact ⟨Bool.noConfusion, Nat.le_add_left_of_le (stale_advanced _ _ rfl)⟩
  | pushRetried => cases he
  | _ => exact absurd he id

theorem Step.popAdvanced (hs : Step cap q e q') (he : e.PopExchanged true) :
    ¬ e.PopExchanged false ∧ stale q'.popIdx Pc.popSeen q'.pc ≤
      stale q.popIdx Pc.popSeen q.pc + (Fintype.card τ - 1) := by
  cases hs with
  | popClaimed => exact ⟨Bool.noConfusion, Nat.le_add_left_of_le (stale_advanced _ _ rfl)⟩
  | popRetried => cases he
  | _ => exact absurd he id

theorem Step.pushMissed (hs : Step cap q e q') (he : e.PushExchanged false) :
    stale q'.pushIdx Pc.pushSeen q'.pc < stale q.pushIdx Pc.pushSeen q.pc := by
  have hstale := hs.pushStale fun hsuccess => (hs.pushAdvanced hsuccess).1 he
  rwa [if_pos he] at hstale

theorem Step.popMissed (hs : Step cap q e q') (he : e.PopExchanged false) :
    stale q'.popIdx Pc.popSeen q'.pc < stale q.popIdx Pc.popSeen q.pc := by
  have hstale := hs.popStale fun hsuccess => (hs.popAdvanced hsuccess).1 he
  rwa [if_pos he] at hstale

theorem stale_init (hq : (system cap).init q) :
    stale q.pushIdx Pc.pushSeen q.pc = 0 ∧ stale q.popIdx Pc.popSeen q.pc = 0 := by
  obtain ⟨data, rfl⟩ := hq
  exact ⟨Finset.sum_eq_zero fun _ _ => rfl, Finset.sum_eq_zero fun _ _ => rfl⟩

/-- An exchange that advances an index makes each of the other threads try once more at most. -/
theorem retries_bounded {tr : List (Event τ α)} (hr : (system cap).Run System.always tr q) :
    (tr.filter (·.PushExchanged false)).length ≤
      (Fintype.card τ - 1) * (tr.filter (·.PushExchanged true)).length ∧
    (tr.filter (·.PopExchanged false)).length ≤
      (Fintype.card τ - 1) * (tr.filter (·.PopExchanged true)).length := by
  constructor
  · have hwaits : ∀ (q : Queue τ α) e q', (system cap).step q e q' → ¬ e.PushExchanged true →
        ¬ e.PushExchanged false →
        stale q'.pushIdx Pc.pushSeen q'.pc ≤ stale q.pushIdx Pc.pushSeen q.pc := by
      intro q e q' hs hp _
      have hstale := (step_cases hs).pushStale hp
      omega
    have hle := System.work_le (fun q => stale q.pushIdx Pc.pushSeen q.pc)
      (Event.PushExchanged true) (Event.PushExchanged false) 0 (Fintype.card τ - 1)
      (fun q hq => (stale_init hq).1.le)
      (fun q e q' hs => (step_cases hs).pushAdvanced) (fun q e q' hs => (step_cases hs).pushMissed)
      hwaits hr
    omega
  · have hwaits : ∀ (q : Queue τ α) e q', (system cap).step q e q' → ¬ e.PopExchanged true →
        ¬ e.PopExchanged false →
        stale q'.popIdx Pc.popSeen q'.pc ≤ stale q.popIdx Pc.popSeen q.pc := by
      intro q e q' hs hp _
      have hstale := (step_cases hs).popStale hp
      omega
    have hle := System.work_le (fun q => stale q.popIdx Pc.popSeen q.pc) (Event.PopExchanged true)
      (Event.PopExchanged false) 0 (Fintype.card τ - 1) (fun q hq => (stale_init hq).2.le)
      (fun q e q' hs => (step_cases hs).popAdvanced) (fun q e q' hs => (step_cases hs).popMissed)
      hwaits hr
    omega

/-- The push that was overtaken fails once. -/
theorem retries_bounded_sample : ∃ tr q, (system 4 : System (Queue Bool ℕ) _).Run
    System.always tr q ∧ (tr.filter (·.PushExchanged false)).length = 1 ∧
    (tr.filter (·.PushExchanged false)).length ≤
      (2 - 1) * (tr.filter (·.PushExchanged true)).length := by
  have hr : ∃ q, (system 4 : System (Queue Bool ℕ) _).Run System.always
      [.pushLoad true 7, .pushLoad false 8, .canPush true true, .canPush false true,
        .pushExchange true 7 true, .pushExchange false 8 false, .canPush false true,
        .pushExchange false 8 true] q :=
    ⟨_, System.run_of_exec exec_step ⟨fun _ => 0, rfl⟩ rfl⟩
  obtain ⟨q, hr⟩ := hr
  exact ⟨_, q, hr, by decide, (retries_bounded hr).1⟩

end retries
end ModCpp.LocklessQueue
