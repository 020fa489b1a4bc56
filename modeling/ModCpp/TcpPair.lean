import ModCpp.TcpThreads
import ModCpp.TcpWindows

/-!
# The threads, one body at a time

Here the body of each function that a thread or the application runs is one step: `do_recv`,
`handle_ack`, `handle_timeout` and `tcp_send` each run from their first statement to their last
with nothing in between. Such a schedule is one of those in which the threads may come in anywhere.
-/

namespace ModCpp.Tcp
variable {S R : ℕ} {n n' : Net}

/-- Where the handler thread is in `handler_fn`: at its wait, before either of the two tests
after it, or at its end. -/
inductive HandlerAt
  | wait
  | acks
  | timeout
  | terminated
  deriving DecidableEq

structure Pair where
  net : Net
  recverTerminated : Bool
  handlerAt : HandlerAt

inductive Action
  | tcpConnect
  | tcpSend (data : UInt8)
  | tcpRecv
  | tick
  | recver
  | handlerWakes
  | handlerAck
  | handlerTimeout

/-- An exception of `tcp_send` goes to the application. -/
def Pair.next (S R : ℕ) (p : Pair) : Action → Option Pair
  | .tcpConnect => some { p with net := p.net.tcpConnect }
  | .tcpSend data => some { p with net := (p.net.tcpSend S data).1 }
  | .tcpRecv => some { p with net := p.net.tcpRecv.1 }
  | .tick => some { p with net := p.net.tick }
  | .recver =>
    if p.recverTerminated = true ∨ p.net.pktQueue = [] then none
    else (ended (p.net.doRecv R) none).map fun net => { p with net, recverTerminated := true }
  | .handlerWakes =>
    if p.handlerAt = .wait ∧
        (timeOutLimit ≤ p.net.sender.tcpCounter ∨ p.net.ackQueue ≠ []) then
      some { p with handlerAt := .acks }
    else none
  | .handlerAck =>
    if p.handlerAt = .acks then
      some { p with
        net := if p.net.ackQueue = [] then p.net else p.net.handleAck
        handlerAt := .timeout }
    else none
  | .handlerTimeout =>
    if p.handlerAt = .timeout then
      if timeOutLimit ≤ p.net.sender.tcpCounter then
        (ended (p.net.handleTimeout S) none).map fun net => { p with net, handlerAt := .terminated }
      else some { p with handlerAt := .terminated }
    else none

def Pair.init (p : Pair) : Prop :=
  ∃ buf tcpBuf, p = ⟨Net.init buf tcpBuf, false, .wait⟩

def pairSystem (S R : ℕ) : System Pair Action where
  init := Pair.init
  step p a p' := p.next S R a = some p'

variable {p p' : Pair} {a : Action} {tr : List Action}

theorem tcpSend_eq (data : UInt8) : (n.tcpSend S data).1 = n ∨
    Accepts S n ∧ (n.tcpSend S data).1 = n.accept S data := by
  rcases tcpSend_cases (S := S) n data with ⟨failure, hthrow⟩ | ⟨hroom, haccept⟩
  · rw [hthrow]
    exact .inl rfl
  · have hconn := recvCond_of_accepted haccept
    rw [haccept]
    exact .inr ⟨⟨hconn, hroom⟩, rfl⟩

def Action.isSend : Action → Bool
  | .tcpSend _ => true
  | _ => false

/-- What the network of a run of threads sees is a run of the functions of the two ends. -/
theorem exists_net_step (hstep : p.next S R a = some p') :
    p'.net = p.net ∧ a.isSend = false ∨ ∃ e, next S R p.net e = some p'.net ∧
      ∀ h : History, (h.record e).calls = h.calls + if a.isSend then 1 else 0 := by
  cases a with
  | tcpConnect =>
    cases hstep
    exact .inr ⟨.tcpConnect, rfl, fun _ => rfl⟩
  | tcpSend data =>
    cases hstep
    refine .inr ⟨.tcpSend data (p.net.tcpSend S data).2, if_pos rfl, ?_⟩
    intro h
    generalize (p.net.tcpSend S data).2 = thrown
    cases thrown <;> rfl
  | tcpRecv =>
    cases hstep
    refine .inr ⟨.tcpRecv p.net.tcpRecv.2, if_pos rfl, ?_⟩
    intro h
    generalize p.net.tcpRecv.2 = res
    cases res <;> rfl
  | tick =>
    cases hstep
    exact .inr ⟨.tick, rfl, fun _ => rfl⟩
  | recver =>
    rw [Pair.next] at hstep
    split_ifs at hstep with hwait
    obtain ⟨net, hnet, rfl⟩ := Option.map_eq_some_iff.mp hstep
    refine .inr ⟨.doRecv none, ?_, fun _ => rfl⟩
    rw [next, if_neg fun hempty => hwait (.inr hempty)]
    exact hnet
  | handlerWakes =>
    rw [Pair.next] at hstep
    split_ifs at hstep
    cases hstep
    exact .inl ⟨rfl, rfl⟩
  | handlerAck =>
    rw [Pair.next] at hstep
    split_ifs at hstep
    · cases hstep
      exact .inl ⟨rfl, rfl⟩
    · cases hstep
      exact .inr ⟨.handleAck, rfl, fun _ => rfl⟩
  | handlerTimeout =>
    rw [Pair.next] at hstep
    split_ifs at hstep
    · obtain ⟨net, hnet, rfl⟩ := Option.map_eq_some_iff.mp hstep
      exact .inr ⟨.handleTimeout none, hnet, fun _ => rfl⟩
    · cases hstep
      exact .inl ⟨rfl, rfl⟩

theorem run_net (hr : (pairSystem S R).Run System.always tr p) : ∃ tr',
    (system S R).Run System.always tr' p.net ∧ (hist tr').calls = tr.countP Action.isSend := by
  refine System.run_invariant (P := fun tr p => ∃ tr', (system S R).Run System.always tr' p.net ∧
    (hist tr').calls = tr.countP Action.isSend) ?_ ?_ hr
  · intro p hp
    obtain ⟨buf, tcpBuf, rfl⟩ := hp
    exact ⟨[], .start ⟨buf, tcpBuf, rfl⟩, rfl⟩
  · intro tr p a p' _ ih _ hstep
    obtain ⟨tr', hr', hcalls⟩ := ih
    rcases exists_net_step hstep with ⟨hsame, hsend⟩ | ⟨e, hnext, hcount⟩
    · refine ⟨tr', by rwa [hsame], ?_⟩
      simp [hcalls, hsend]
    · refine ⟨tr' ++ [e], .step hr' trivial hnext, ?_⟩
      rw [hist_concat, hcount, hcalls, List.countP_append, List.countP_singleton]

section threads
variable {q : Threads} {turns : List Turn} {i : ℤ}

def HandlerAt.stage : HandlerAt → HandlerStage
  | .wait => .wait
  | .acks => .ackTest
  | .timeout => .timerTest
  | .terminated => .terminated

/-- Between two bodies the application is in none of its functions. -/
def Pair.threads (p : Pair) : Threads := ⟨p.net, .idle, p.recverTerminated, p.handlerAt.stage⟩

/-- The threads get to `q` if they get to where a turn leads to `q`. -/
def Threads.Reached (S R : ℕ) (q : Threads) : Prop :=
  ∃ turns, (threadSystem S R).Run System.always turns q

theorem Threads.Reached.next {q' : Threads} {t : Turn} (h : q.Reached S R)
    (hstep : q.next S R t = some q') : q'.Reached S R := by
  obtain ⟨turns, hr⟩ := h
  exact ⟨_, hr.step trivial hstep⟩

theorem next_resend (hat : q.handlerStage = .resend i) :
    q.next S R .handlerResend = q.handlerResend S i := by
  rw [Threads.next, hat]

theorem resend_round (hlt : toUint64 i < q.net.sender.currentSeq)
    (hres : q.net.resend S i = (n', none)) : i < intMax ∧ ∃ m, m.resend S (i + 1) = (n', none) ∧
      q.handlerResend S i = some { q with net := m, handlerStage := .resend (i + 1) } := by
  rw [Net.resend, if_pos hlt] at hres
  rw [Threads.handlerResend, if_pos hlt]
  rcases andThen_cases hres with ⟨failure, hthrow⟩ | ⟨m, hm, hres⟩
  · rw [hthrow] at hres
    cases hres
  · by_cases hmax : i < intMax
    · rw [if_pos hmax] at hres
      refine ⟨hmax, m, hres, ?_⟩
      rw [hm, ended, if_pos rfl, Option.bind_some, if_pos hmax]
    · rw [if_neg hmax] at hres
      cases hres

/-- The loop of `handle_timeout`, round by round. -/
theorem resend_reached (room : ℕ) (hroom : (intMax - i).toNat ≤ room) (hq : q.Reached S R)
    (hat : q.handlerStage = .resend i) (hres : q.net.resend S i = (n', none)) :
    ({ q with net := n', handlerStage := .resetTimer } : Threads).Reached S R := by
  induction room generalizing q i with
  | zero =>
    by_cases hlt : toUint64 i < q.net.sender.currentSeq
    · obtain ⟨hmax, _⟩ := resend_round hlt hres
      omega
    · rw [Net.resend, if_neg hlt] at hres
      cases hres
      exact hq.next ((next_resend hat).trans (if_neg hlt))
  | succ room ih =>
    by_cases hlt : toUint64 i < q.net.sender.currentSeq
    · obtain ⟨hmax, m, hres', hnext⟩ := resend_round hlt hres
      have hq' := hq.next ((next_resend hat).trans hnext)
      have hrest := ih (i := i + 1) (by omega) hq' rfl hres'
      exact hrest
    · rw [Net.resend, if_neg hlt] at hres
      cases hres
      exact hq.next ((next_resend hat).trans (if_neg hlt))

theorem timeout_reached (hq : q.Reached S R) (hat : q.handlerStage = .timerTest)
    (hlimit : timeOutLimit ≤ q.net.sender.tcpCounter) (hres : q.net.handleTimeout S = (n', none)) :
    ({ q with net := n', handlerStage := .terminated } : Threads).Reached S R := by
  rcases andThen_cases hres with ⟨failure, hthrow⟩ | ⟨m, hm, hreset⟩
  · rw [Net.handleTimeout, hthrow] at hres
    cases hres
  · cases hreset
    let q₁ : Threads := { q with handlerStage := .resend (toInt q.net.sender.sendBase) }
    have hfirst : q.next S R .handlerTimeout = some q₁ := by
      rw [Threads.next, if_pos hat, if_pos hlimit]
    have hloop := resend_reached _ le_rfl (hq.next hfirst) rfl hm
    exact hloop.next (t := .handlerReset) rfl

theorem send_reached (hq : q.Reached S R) (hidle : q.sendStage = .idle) (data : UInt8) :
    ({ q with net := (q.net.tcpSend S data).1 } : Threads).Reached S R := by
  have hfirst : q.next S R (.tcpSend data) = some (q.tcpSend S data) := if_pos hidle
  by_cases hacc : Accepts S q.net
  · have htests : q.tcpSend S data = { q with net := q.net.store S data, sendStage := .ipSend } :=
      if_pos hacc
    have hsent : ({ q with net := q.net.store S data, sendStage := .ipSend } : Threads).ipSend S =
        { q with
          net := (q.net.store S data).carry [⟨data, q.net.sender.currentSeq⟩]
          sendStage := .count } := by
      simp [Threads.ipSend, Net.ipSend, Net.store, Net.carry, hacc.1]
    have hdone : (q.net.tcpSend S data).1 =
        ((q.net.store S data).carry [⟨data, q.net.sender.currentSeq⟩]).count.resetTimer := by
      rw [Net.tcpSend, if_neg (by rw [hacc.1]; decide), if_neg hacc.2]
      simp [Net.ipSend, hacc.1, Outcome.andThen, Net.store, Net.carry, Net.count, Net.resetTimer]
    rw [htests] at hfirst
    have hipSend := (hq.next hfirst).next (t := .ipSend) (congrArg some hsent)
    have hcount := hipSend.next (t := .count) rfl
    rw [hdone, hidle]
    exact hcount.next (t := .resetTimer) rfl
  · have hthrow : (q.net.tcpSend S data).1 = q.net := by
      rcases tcpSend_eq (S := S) (n := q.net) data with hsame | ⟨hacc', _⟩
      · exact hsame
      · exact absurd hacc' hacc
    rw [hthrow]
    exact hq

theorem Pair.Reached.next (hp : p.threads.Reached S R) (hstep : p.next S R a = some p') :
    p'.threads.Reached S R := by
  cases a with
  | tcpConnect =>
    cases hstep
    exact hp.next (t := .tcpConnect) rfl
  | tcpSend data =>
    cases hstep
    exact send_reached hp rfl data
  | tcpRecv =>
    cases hstep
    exact hp.next (t := .tcpRecv) rfl
  | tick =>
    cases hstep
    exact hp.next (t := .tick) rfl
  | recver =>
    obtain ⟨hwait, hstep⟩ := Option.ite_none_left_eq_some.mp hstep
    obtain ⟨net, hnet, rfl⟩ := Option.map_eq_some_iff.mp hstep
    refine hp.next (t := .recver) ((if_neg hwait).trans ?_)
    rw [show p.threads.net = p.net from rfl, hnet]
    rfl
  | handlerWakes =>
    obtain ⟨⟨hat, hwoken⟩, hstep⟩ := Option.ite_none_right_eq_some.mp hstep
    cases hstep
    refine hp.next (t := .handlerWakes) (if_pos ⟨?_, hwoken⟩)
    rw [Pair.threads, hat, HandlerAt.stage]
  | handlerAck =>
    obtain ⟨hat, hstep⟩ := Option.ite_none_right_eq_some.mp hstep
    cases hstep
    refine hp.next (t := .handlerAck) (if_pos ?_)
    rw [Pair.threads, hat, HandlerAt.stage]
  | handlerTimeout =>
    obtain ⟨hat, hstep⟩ := Option.ite_none_right_eq_some.mp hstep
    have hstage : p.threads.handlerStage = .timerTest := by
      rw [Pair.threads, hat, HandlerAt.stage]
    by_cases hlimit : timeOutLimit ≤ p.net.sender.tcpCounter
    · rw [if_pos hlimit] at hstep
      obtain ⟨net, hnet, rfl⟩ := Option.map_eq_some_iff.mp hstep
      exact timeout_reached hp hstage hlimit (ended_eq hnet)
    · rw [if_neg hlimit] at hstep
      cases hstep
      refine hp.next (t := .handlerTimeout) ((if_pos hstage).trans ?_)
      simp [Pair.threads, hlimit, HandlerAt.stage]

/-- Where a run of whole bodies gets to, the threads can get. -/
theorem bodies_reached (hr : (pairSystem S R).Run System.always tr p) :
    p.threads.Reached S R := by
  refine System.run_invariant (P := fun _ p => p.threads.Reached S R) ?_ ?_ hr
  · rintro p ⟨buf, tcpBuf, rfl⟩
    exact ⟨[], .start ⟨buf, tcpBuf, rfl⟩⟩
  · intro _ p a p' _ hp _ hstep
    exact Pair.Reached.next hp hstep

end threads

end ModCpp.Tcp
