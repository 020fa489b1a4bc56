import ModCpp.BoundedFifo
import ModCpp.LocklessQueueDelivery
import ModCpp.LocklessQueueProgress

/-!
# The lockless queue with one producer and one consumer

Nobody but the producer exchanges `push_idx`, so what it has read there stays true until its own
exchange, and the same holds for the consumer. None of the loops then takes a second turn, and
the calls in the order of their returns are those of a sequential queue.
-/

namespace ModCpp.LocklessQueue
variable {τ α : Type*} {cap : ℕ} {q q' : Queue τ α} {h h' : History τ α} {t u : τ}
  {p p₀ : Pc α} {e : Event τ α} {producer consumer : τ}

def Event.Admitted (producer consumer : τ) : Event τ α → Prop
  | .pushLoad t _ => t = producer
  | .popLoad t => t = consumer
  | _ => True

instance [DecidableEq τ] (producer consumer : τ) :
    DecidablePred (Event.Admitted producer consumer : Event τ α → Prop)
  | .pushLoad _ _ | .popLoad _ => inferInstanceAs (Decidable (_ = _))
  | .canPush _ _ | .pushExchange _ _ _ | .store _ _ | .pushRelease _ _ | .canPop _ _
  | .popExchange _ _ | .read _ _ _ | .popRelease _ _ _ => inferInstanceAs (Decidable True)

/-- The producer makes all calls of `push` and the consumer all of `pop`. They may be the same
thread. -/
def oneEach (producer consumer : τ) : List (Event τ α) → Event τ α → Prop :=
  fun _ e => e.Admitted producer consumer

instance [DecidableEq τ] (producer consumer : τ) (tr : List (Event τ α)) (e : Event τ α) :
    Decidable (oneEach producer consumer tr e) :=
  inferInstanceAs (Decidable (e.Admitted producer consumer))

section returns
variable [DecidableEq τ]

structure Returns (τ α : Type*) where
  arg : τ → Option α
  calls : List (BoundedFifo.Call α)

def Returns.record (r : Returns τ α) : Event τ α → Returns τ α
  | .pushLoad t val => { r with arg := Function.update r.arg t (some val) }
  | .canPush _ false => { r with calls := r.calls ++ [.refused] }
  | .pushRelease t true => { r with calls := r.calls ++ ((r.arg t).map .push).toList }
  | .canPop _ false => { r with calls := r.calls ++ [.empty] }
  | .popRelease _ ans true => { r with calls := r.calls ++ [.pop ans] }
  | .canPush _ true | .pushExchange _ _ _ | .store _ _ | .pushRelease _ false | .popLoad _
  | .canPop _ true | .popExchange _ _ | .read _ _ _ | .popRelease _ _ false => r

def returns (tr : List (Event τ α)) : Returns τ α := history Returns.record ⟨fun _ => none, []⟩ tr

@[simp] theorem returns_nil : returns ([] : List (Event τ α)) = ⟨fun _ => none, []⟩ := rfl

@[simp] theorem returns_concat (tr : List (Event τ α)) (e : Event τ α) :
    returns (tr ++ [e]) = (returns tr).record e := history_concat _ _ _ _

end returns

def History.contents (h : History τ α) : List α :=
  (h.pushed.take h.published.length).drop h.returned.length

def Pc.InPush : Pc α → Prop
  | .canPush _ _ | .pushExchange _ _ | .store _ _ | .pushRelease _ => True
  | .idle | .canPop _ | .popExchange _ | .read _ | .popRelease _ _ => False

def Pc.InPop : Pc α → Prop
  | .canPop _ | .popExchange _ | .read _ | .popRelease _ _ => True
  | .idle | .canPush _ _ | .pushExchange _ _ | .store _ _ | .pushRelease _ => False

/-- Where the producer is, in terms of what it has read and of the pushes published so far. -/
def PushTurn (pushed : List α) (published read : ℕ) (arg : Option α) : Pc α → Prop
  | .canPush val _ => read = pushed.length ∧ published = pushed.length ∧ arg = some val
  | .pushExchange val _ => read = pushed.length ∧ published = pushed.length ∧ arg = some val
  | .store val _ => pushed.length = published + 1 ∧ arg = some val ∧ pushed[published]? = some val
  | .pushRelease _ => pushed.length = published + 1 ∧ ∃ val, arg = some val ∧
      pushed[published]? = some val
  | .idle | .canPop _ | .popExchange _ | .read _ | .popRelease _ _ => published = pushed.length

def PopTurn (popped returned read : ℕ) : Pc α → Prop
  | .canPop _ => read = popped ∧ returned = popped
  | .popExchange _ => read = popped ∧ returned = popped
  | .read _ => popped = returned + 1
  | .popRelease _ _ => popped = returned + 1
  | .idle | .canPush _ _ | .pushExchange _ _ | .store _ _ | .pushRelease _ => returned = popped

theorem pushTurn_out {pushed : List α} {published read : ℕ} {arg : Option α} (hp : ¬ p.InPush) :
    PushTurn pushed published read arg p ↔ published = pushed.length := by
  cases p <;> simp [Pc.InPush, PushTurn] at hp ⊢

theorem popTurn_out {popped returned read : ℕ} (hp : ¬ p.InPop) :
    PopTurn popped returned read p ↔ returned = popped := by
  cases p <;> simp [Pc.InPop, PopTurn] at hp ⊢

structure Solo (producer consumer : τ) (h : History τ α) (arg : τ → Option α) (q : Queue τ α) :
    Prop where
  pusher : ∀ t, (q.pc t).InPush → t = producer
  popper : ∀ t, (q.pc t).InPop → t = consumer
  pushing : PushTurn h.pushed h.published.length (h.pushRead producer) (arg producer)
    (q.pc producer)
  popping : PopTurn h.popped h.returned.length (h.popRead consumer) (q.pc consumer)

section step
variable {arg arg' : τ → Option α}

theorem Solo.init (data : ℕ → α) :
    Solo producer consumer (.empty : History τ α) arg ⟨data, 0, 0, 0, 0, fun _ => .idle⟩ := by
  refine ⟨?_, ?_, rfl, rfl⟩
  · intro t ht
    cases ht
  · intro t ht
    cases ht

theorem Solo.push_turn (hs : Solo producer consumer h arg q) (hpc : q.pc t = p) (hp : p.InPush) :
    t = producer ∧ PushTurn h.pushed h.published.length (h.pushRead t) (arg t) p := by
  subst hpc
  obtain rfl := hs.pusher t hp
  exact ⟨rfl, hs.pushing⟩

theorem Solo.pop_turn (hs : Solo producer consumer h arg q) (hpc : q.pc t = p) (hp : p.InPop) :
    t = consumer ∧ PopTurn h.popped h.returned.length (h.popRead t) p := by
  subst hpc
  obtain rfl := hs.popper t hp
  exact ⟨rfl, hs.popping⟩

theorem Solo.push_exchanges (hs : Solo producer consumer h arg q) (hc : Counters cap h q) {val : α}
    {cur : ℕ} (hpc : q.pc t = .pushExchange val cur) : q.pushIdx = cur := by
  have hcount := hc.thread t
  have hturn := (hs.push_turn hpc trivial).2
  rw [hpc] at hcount
  rw [hc.pushIdx, hcount.1, hturn.1]

theorem Solo.push_releases (hs : Solo producer consumer h arg q) (hc : Counters cap h q)
    {stale : ℕ} (hpc : q.pc t = .pushRelease stale) : q.shadowPushIdx = stale := by
  have hcount := hc.thread t
  have hturn := (hs.push_turn hpc trivial).2
  rw [hpc] at hcount
  obtain ⟨hstale, hle, hlt⟩ := hcount
  have hticket : h.pushTicket t = h.published.length := by
    have hlen := hturn.1
    omega
  rw [hc.shadowPushIdx, hstale, hticket]

theorem Solo.pop_exchanges (hs : Solo producer consumer h arg q) (hc : Counters cap h q)
    {cur : ℕ} (hpc : q.pc t = .popExchange cur) : q.popIdx = cur := by
  have hcount := hc.thread t
  have hturn := (hs.pop_turn hpc trivial).2
  rw [hpc] at hcount
  rw [hc.popIdx, hcount.1, hturn.1]

theorem Solo.pop_releases (hs : Solo producer consumer h arg q) (hc : Counters cap h q) {ans : α}
    {stale : ℕ} (hpc : q.pc t = .popRelease ans stale) : q.shadowPopIdx = stale := by
  have hcount := hc.thread t
  have hturn : h.popped = h.returned.length + 1 := (hs.pop_turn hpc trivial).2
  rw [hpc] at hcount
  obtain ⟨hstale, hle, hlt⟩ := hcount
  have hticket : h.popTicket t = h.returned.length := by omega
  rw [hc.shadowPopIdx, hstale, hticket]

variable [DecidableEq τ]

theorem Solo.fresh (hs : Solo producer consumer h arg q) (hstep : Step cap q e q') :
    h.NoWrap e ∧ h.FreshRefusal e := by
  cases hstep with
  | @pushRefused t _ _ hpc _ =>
    have hturn := (hs.push_turn hpc trivial).2
    exact ⟨trivial, hturn.1⟩
  | @pushClaimed t _ _ hpc _ =>
    have hturn := (hs.push_turn hpc trivial).2
    exact ⟨hturn.1, trivial⟩
  | @popRefused t _ hpc _ =>
    have hturn := (hs.pop_turn hpc trivial).2
    exact ⟨trivial, hturn.1⟩
  | @popClaimed t _ hpc _ =>
    have hturn := (hs.pop_turn hpc trivial).2
    exact ⟨hturn.1, trivial⟩
  | _ => exact ⟨trivial, trivial⟩

theorem Solo.push (hs : Solo producer consumer h arg q) (ht : t = producer) (hfrom : q.pc t = p₀)
    (hpc : q'.pc = Function.update q.pc t p) (hold : ¬ p₀.InPop) (hnew : ¬ p.InPop)
    (hturn : PushTurn h'.pushed h'.published.length (h'.pushRead t) (arg' t) p)
    (hpopped : h'.popped = h.popped) (hreturned : h'.returned = h.returned)
    (hread : h'.popRead = h.popRead) : Solo producer consumer h' arg' q' := by
  subst ht
  refine ⟨?_, ?_, ?_, ?_⟩
  · intro u hu
    by_contra hne
    rw [hpc, Function.update_of_ne hne] at hu
    exact hne (hs.pusher u hu)
  · intro u hu
    by_cases hne : u = t
    · rw [hne, hpc, Function.update_self] at hu
      exact absurd hu hnew
    · rw [hpc, Function.update_of_ne hne] at hu
      exact hs.popper u hu
  · rwa [hpc, Function.update_self]
  · have hpop := hs.popping
    rw [hpopped, hreturned, hread, hpc]
    by_cases hne : consumer = t
    · rw [hne, hfrom] at hpop
      rw [hne, Function.update_self]
      exact (popTurn_out hnew).mpr ((popTurn_out hold).mp hpop)
    · rwa [Function.update_of_ne hne]

theorem Solo.pop (hs : Solo producer consumer h arg q) (ht : t = consumer) (hfrom : q.pc t = p₀)
    (hpc : q'.pc = Function.update q.pc t p) (hold : ¬ p₀.InPush) (hnew : ¬ p.InPush)
    (hturn : PopTurn h'.popped h'.returned.length (h'.popRead t) p)
    (hpushed : h'.pushed = h.pushed) (hpublished : h'.published = h.published)
    (hread : h'.pushRead = h.pushRead) : Solo producer consumer h' arg q' := by
  subst ht
  refine ⟨?_, ?_, ?_, ?_⟩
  · intro u hu
    by_cases hne : u = t
    · rw [hne, hpc, Function.update_self] at hu
      exact absurd hu hnew
    · rw [hpc, Function.update_of_ne hne] at hu
      exact hs.pusher u hu
  · intro u hu
    by_contra hne
    rw [hpc, Function.update_of_ne hne] at hu
    exact hne (hs.popper u hu)
  · have hpush := hs.pushing
    rw [hpushed, hpublished, hread, hpc]
    by_cases hne : producer = t
    · rw [hne, hfrom] at hpush
      rw [hne, Function.update_self]
      exact (pushTurn_out hnew).mpr ((pushTurn_out hold).mp hpush)
    · rwa [Function.update_of_ne hne]
  · rwa [hpc, Function.update_self]

theorem Solo.step {r : Returns τ α} (hs : Solo producer consumer h r.arg q) (hc : Counters cap h q)
    (hok : e.Admitted producer consumer) (hstep : Step cap q e q') :
    Solo producer consumer (h.record e) (r.record e).arg q' := by
  cases hstep with
  | @pushLoad t val hpc =>
    have hidle := hs.pushing
    rw [← show t = producer from hok, hpc] at hidle
    refine hs.push hok hpc rfl id id ?_ rfl rfl rfl
    exact ⟨Function.update_self .., hidle, Function.update_self ..⟩
  | @pushChecked t val cur hpc hcan =>
    obtain ⟨ht, hturn⟩ := hs.push_turn hpc trivial
    exact hs.push ht hpc rfl id id hturn rfl rfl rfl
  | @pushRefused t val cur hpc hfull =>
    obtain ⟨ht, hturn⟩ := hs.push_turn hpc trivial
    exact hs.push ht hpc rfl id id hturn.2.1 rfl rfl rfl
  | @pushClaimed t val cur hpc hcur =>
    obtain ⟨ht, hturn⟩ := hs.push_turn hpc trivial
    obtain ⟨-, hpublished, harg⟩ := hturn
    refine hs.push ht hpc rfl id id ⟨?_, harg, ?_⟩ rfl rfl rfl
    · simp [History.record, hpublished]
    · simp [History.record, hpublished]
  | @pushRetried t val cur hpc hcur => exact absurd (hs.push_exchanges hc hpc) hcur
  | @stored t val cur hpc =>
    obtain ⟨ht, hturn⟩ := hs.push_turn hpc trivial
    exact hs.push ht hpc rfl id id ⟨hturn.1, val, hturn.2⟩ rfl rfl rfl
  | @pushReleased t stale hpc hst =>
    obtain ⟨ht, hturn⟩ := hs.push_turn hpc trivial
    refine hs.push ht hpc rfl id id ?_ rfl rfl rfl
    exact (List.length_append ..).trans hturn.1.symm
  | @pushWaited t stale hpc hst => exact absurd (hs.push_releases hc hpc) hst
  | @popLoad t hpc =>
    have hidle := hs.popping
    rw [← show t = consumer from hok, hpc] at hidle
    refine hs.pop hok hpc rfl id id ?_ rfl rfl rfl
    exact ⟨Function.update_self .., hidle⟩
  | @popChecked t cur hpc hcan =>
    obtain ⟨ht, hturn⟩ := hs.pop_turn hpc trivial
    exact hs.pop ht hpc rfl id id hturn rfl rfl rfl
  | @popRefused t cur hpc hnone =>
    obtain ⟨ht, hturn⟩ := hs.pop_turn hpc trivial
    exact hs.pop ht hpc rfl id id hturn.2 rfl rfl rfl
  | @popClaimed t cur hpc hcur =>
    obtain ⟨ht, hturn⟩ := hs.pop_turn hpc trivial
    refine hs.pop ht hpc rfl id id ?_ rfl rfl rfl
    exact congrArg (· + 1) hturn.2.symm
  | @popRetried t cur hpc hcur => exact absurd (hs.pop_exchanges hc hpc) hcur
  | @read t cur hpc =>
    obtain ⟨ht, hturn⟩ := hs.pop_turn hpc trivial
    exact hs.pop ht hpc rfl id id hturn rfl rfl rfl
  | @popReleased t ans stale hpc hst =>
    obtain ⟨ht, hturn⟩ := hs.pop_turn hpc trivial
    refine hs.pop ht hpc rfl id id ?_ rfl rfl rfl
    exact (List.length_append ..).trans (Eq.symm hturn)
  | @popWaited t ans stale hpc hst => exact absurd (hs.pop_releases hc hpc) hst

theorem Solo.fifo {r : Returns τ α} (hs : Solo producer consumer h r.arg q) (hc : Counters cap h q)
    (hd : Delivery cap h q) (hstep : Step cap q e q') :
    (r.record e).calls = r.calls ∧ (h.record e).contents = h.contents ∨
    ∃ call, (r.record e).calls = r.calls ++ [call] ∧
      BoundedFifo.Step (cap - 1) h.contents call (h.record e).contents := by
  have hord := hc.ord
  have hlen : h.contents.length = h.published.length - h.returned.length := by
    rw [History.contents, List.length_drop, List.length_take, Nat.min_eq_left hord.2.2.1]
  have hfresh := (hs.fresh hstep).2
  cases hstep with
  | @pushRefused t val cur hpc hfull =>
    have hpublished := (hs.push_turn hpc trivial).2.2.1
    have hroom := hc.full_of_refused hfresh (.pushRefused hpc hfull)
    exact .inr ⟨.refused, rfl, .refused (by omega)⟩
  | @pushClaimed t val cur hpc hcur =>
    refine .inl ⟨rfl, ?_⟩
    rw [History.contents, History.record, List.take_append_of_le_length hord.2.2.1]
    rfl
  | @pushReleased t stale hpc hst =>
    obtain ⟨-, hpushed, val, harg, hval⟩ := hs.push_turn hpc trivial
    have hadd : (h.record (.pushRelease t true)).contents = h.contents ++ [val] := by
      simp only [History.contents, History.record, List.length_append, List.length_singleton]
      rw [List.take_add_one, hval, List.drop_append_of_le_length]
      · rfl
      · rw [List.length_take]
        omega
    refine .inr ⟨.push val, ?_, ?_⟩
    · simp [Returns.record, harg]
    · rw [hadd]
      exact .push (by omega)
  | @popRefused t cur hpc hnone =>
    have hreturned := (hs.pop_turn hpc trivial).2.2
    have hempty := hc.empty_of_refused hfresh (.popRefused hpc hnone)
    have hnil : h.contents = [] := List.length_eq_zero_iff.mp (by omega)
    refine .inr ⟨.empty, rfl, ?_⟩
    rw [show (h.record (.canPop t false)).contents = h.contents from rfl, hnil]
    exact .empty
  | @popReleased t ans stale hpc hst =>
    have hpopped : h.popped = h.returned.length + 1 := (hs.pop_turn hpc trivial).2
    have hans : h.pushed[h.returned.length]? = some ans := by
      have hread := hd.thread t
      rw [hpc] at hread
      rw [← hc.popTicket_eq hpc hst]
      exact hread.1
    have htaken : h.contents = ans :: (h.record (.popRelease t ans true)).contents := by
      have hget : (h.pushed.take h.published.length)[h.returned.length]? = some ans := by
        rw [List.getElem?_take_of_lt (by omega), hans]
      obtain ⟨hlt, hget⟩ := List.getElem?_eq_some_iff.mp hget
      rw [History.contents, List.drop_eq_getElem_cons hlt, hget]
      simp [History.contents, History.record]
    refine .inr ⟨.pop ans, rfl, ?_⟩
    rw [htaken]
    exact .pop
  | _ => exact .inl ⟨rfl, rfl⟩

theorem next_thread {t : τ} {call : Call α} {r : Queue τ α × Event τ α}
    (hnext : next cap q t call = some r) : r.2.thread = t := by
  unfold next at hnext
  split at hnext
  next => cases call <;> cases hnext <;> rfl
  next =>
    obtain ⟨flag, -, rfl⟩ := Option.map_eq_some_iff.mp hnext
    cases flag <;> rfl
  next =>
    obtain ⟨idx, -, rfl⟩ := Option.map_eq_some_iff.mp hnext
    split_ifs <;> rfl
  next => cases hnext; rfl
  next =>
    obtain ⟨idx, -, rfl⟩ := Option.map_eq_some_iff.mp hnext
    split_ifs <;> rfl
  next => split_ifs at hnext <;> cases hnext <;> rfl
  next =>
    obtain ⟨idx, -, rfl⟩ := Option.map_eq_some_iff.mp hnext
    split_ifs <;> rfl
  next => cases hnext; rfl
  next =>
    obtain ⟨idx, -, rfl⟩ := Option.map_eq_some_iff.mp hnext
    split_ifs <;> rfl

def Pc.turns : Pc α → ℕ
  | .idle => 0
  | .canPush _ _ | .canPop _ => 4
  | .pushExchange _ _ | .popExchange _ => 3
  | .store _ _ | .read _ => 2
  | .pushRelease _ | .popRelease _ _ => 1

theorem Solo.turns_lt (hs : Solo producer consumer h arg q) (hc : Counters cap h q)
    (hstep : Step cap q e q') : ∃ p, q'.pc = Function.update q.pc e.thread p ∧
      p.turns + 1 ≤ (q.pc e.thread).turns + (if e.Opens then 5 else 0) := by
  cases hstep with
  | pushRetried hpc hcur => exact absurd (hs.push_exchanges hc hpc) hcur
  | pushWaited hpc hst => exact absurd (hs.push_releases hc hpc) hst
  | popRetried hpc hcur => exact absurd (hs.pop_exchanges hc hpc) hcur
  | popWaited hpc hst => exact absurd (hs.pop_releases hc hpc) hst
  | pushLoad _ hpc => exact ⟨_, rfl, by simp [Event.thread, Event.Opens, Pc.turns, hpc]⟩
  | popLoad hpc => exact ⟨_, rfl, by simp [Event.thread, Event.Opens, Pc.turns, hpc]⟩
  | stored hpc => exact ⟨_, rfl, by simp [Event.thread, Event.Opens, Pc.turns, hpc]⟩
  | read hpc => exact ⟨_, rfl, by simp [Event.thread, Event.Opens, Pc.turns, hpc]⟩
  | pushChecked hpc _ | pushRefused hpc _ | pushClaimed hpc _ | pushReleased hpc _
  | popChecked hpc _ | popRefused hpc _ | popClaimed hpc _ | popReleased hpc _ =>
    exact ⟨_, rfl, by simp [Event.thread, Event.Opens, Pc.turns, hpc]⟩

end step

section runs
variable [DecidableEq τ] {tr : List (Event τ α)}

theorem run_solo (hcap : 1 ≤ cap) (hr : (system cap).Run (oneEach producer consumer) tr q) :
    (system cap).Run noWrap tr q ∧ Solo producer consumer (hist tr) (returns tr).arg q := by
  induction hr with
  | start hi =>
    obtain ⟨data, rfl⟩ := hi
    exact ⟨.start ⟨data, rfl⟩, .init data⟩
  | step _ hok hstep ih =>
    obtain ⟨hr, hs⟩ := ih
    have hcases := step_cases hstep
    refine ⟨hr.step (hs.fresh hcases).1 hstep, ?_⟩
    rw [hist_concat, returns_concat]
    exact hs.step (run_counters hcap hr) hok hcases

/-- With one producer and one consumer the queue is linearizable: the calls in the order of
their returns are those of a sequential queue with room for one value less than the capacity. -/
theorem spsc_linearizable (hcap : 1 ≤ cap) (hint : cap < 2 ^ 31)
    (hr : (system cap).Run (oneEach producer consumer) tr q) :
    (BoundedFifo.system α (cap - 1)).Run System.always (returns tr).calls (hist tr).contents ∧
      (hist tr).contents.length ≤ cap - 1 ∧
      (returns tr).calls.filterMap BoundedFifo.Call.popped ++ (hist tr).contents =
        (returns tr).calls.filterMap BoundedFifo.Call.pushed ∧ Defined cap q := by
  have hfifo : (BoundedFifo.system α (cap - 1)).Run System.always (returns tr).calls
      (hist tr).contents := by
    induction hr with
    | start hi => exact .start rfl
    | step hr hok hstep ih =>
      obtain ⟨hr', hs⟩ := run_solo hcap hr
      rw [hist_concat, returns_concat]
      rcases hs.fifo (run_counters hcap hr') (run_delivery hcap hr') (step_cases hstep) with
        ⟨hcalls, hsame⟩ | ⟨call, hcalls, hmove⟩
      · rwa [hcalls, hsame]
      · rw [hcalls]
        exact ih.step trivial hmove
  exact ⟨hfifo, BoundedFifo.run_length_le hfifo, BoundedFifo.run_fifo hfifo,
    (run_inRing hcap hr).defined hint⟩

theorem spsc_linearizable_sample : ∃ tr q,
    (system 3 : System (Queue Bool ℕ) _).Run (oneEach true false) tr q ∧
      (returns tr).calls = [.empty, .push 5, .pop 5] ∧
      (BoundedFifo.system ℕ 2).Run System.always (returns tr).calls (hist tr).contents := by
  have hr : ∃ q, (system 3 : System (Queue Bool ℕ) _).Run (oneEach true false)
      [.popLoad false, .pushLoad true 5, .canPush true true, .canPop false false,
        .pushExchange true 5 true, .store true 0, .popLoad false, .pushRelease true true,
        .canPop false true, .pushLoad true 6, .popExchange false true, .read false 0 5,
        .canPush true true, .pushExchange true 6 true, .popRelease false 5 true] q :=
    ⟨_, System.run_of_exec exec_step ⟨fun _ => 0, rfl⟩ rfl⟩
  obtain ⟨q, hr⟩ := hr
  exact ⟨_, q, hr, rfl, (spsc_linearizable (by decide) (by decide) hr).1⟩

theorem run_turns (hcap : 1 ≤ cap) (hr : (system cap).Run (oneEach producer consumer) tr q)
    (u : τ) : tr.countP (fun e => e.thread = u) + (q.pc u).turns ≤
      5 * tr.countP (fun e => e.thread = u ∧ e.Opens) := by
  induction hr with
  | start hi =>
    obtain ⟨data, rfl⟩ := hi
    exact le_rfl
  | @step tr q q' e hr hok hstep ih =>
    obtain ⟨hr', hs⟩ := run_solo hcap hr
    obtain ⟨p, hpc, hlt⟩ := hs.turns_lt (run_counters hcap hr') (step_cases hstep)
    rw [List.countP_append, List.countP_append, List.countP_singleton, List.countP_singleton, hpc]
    by_cases hu : e.thread = u
    · subst hu
      rw [Function.update_self]
      by_cases hopen : e.Opens
      · simp only [hopen, if_true, decide_true, and_self] at hlt ⊢
        omega
      · simp only [hopen, if_true, if_false, decide_true, decide_false, and_false] at hlt ⊢
        omega
    · rw [Function.update_of_ne (Ne.symm hu)]
      simp only [hu, decide_false, false_and]
      exact ih

/-- With one producer and one consumer the queue is wait-free: whatever the other does, a thread
inside a call can take a step that gets on, and a call is at most five steps. -/
theorem spsc_wait_free (hcap : 1 ≤ cap) (hint : cap < 2 ^ 31)
    (hr : (system cap).Run (oneEach producer consumer) tr q) (t : τ) :
    tr.countP (fun e => e.thread = t) ≤ 5 * tr.countP (fun e => e.thread = t ∧ e.Opens) ∧
      (q.pc t ≠ .idle → ∃ e q', (system cap).step q e q' ∧ e.thread = t ∧ e.Works) := by
  constructor
  · have hturns := run_turns hcap hr t
    omega
  · intro ht
    obtain ⟨hr', hs⟩ := run_solo hcap hr
    have hc := run_counters hcap hr'
    obtain ⟨r, hnext⟩ := (run_inRing hcap hr).defined hint t .pop
    refine ⟨r.2, r.1, ⟨t, .pop, hnext⟩, next_thread hnext, works_of_next hnext ht ?_ ?_⟩
    · exact fun stale hpc => hs.push_releases hc hpc
    · exact fun ans stale hpc => hs.pop_releases hc hpc

/-- The producer alone, on an empty queue. -/
theorem spsc_wait_free_sample : ∃ tr q,
    (system 3 : System (Queue Bool ℕ) _).Run (oneEach true false) tr q ∧
      tr.countP (fun e => e.thread = true) = 3 ∧
      tr.countP (fun e => e.thread = true) ≤ 5 * tr.countP (fun e => e.thread = true ∧ e.Opens) ∧
      ∃ e q', (system 3).step q e q' ∧ e.thread = true ∧ e.Works := by
  have hr : ∃ q, (system 3 : System (Queue Bool ℕ) _).Run (oneEach true false)
      [.pushLoad true 5, .canPush true true, .pushExchange true 5 true] q ∧ q.pc true ≠ .idle :=
    ⟨_, System.run_of_exec exec_step ⟨fun _ => 0, rfl⟩ rfl, by intro hidle; cases hidle⟩
  obtain ⟨q, hr, hbusy⟩ := hr
  obtain ⟨hle, hnext⟩ := spsc_wait_free (by decide) (by decide) hr true
  exact ⟨_, q, hr, by decide, hle, hnext hbusy⟩

end runs

end ModCpp.LocklessQueue
