import ModCpp.TcpDelivery

/-!
# The threads of the TCP pair

The constructors start one thread on `do_recv` and one on `handler_fn`. Neither function loops,
so each thread terminates after one run of its function. The timer thread ticks as long as the
sender is not destroyed, and the application calls `tcp_connect`, `tcp_send` and `tcp_recv`.

A step is what a thread does between two moments at which another may come in. `do_recv` and
`handle_ack` each hold the lock of the queue they work on to their end, and are one step.
`tcp_send` and `handle_timeout` hold a lock only inside `ip_send`.
-/

namespace ModCpp.Tcp
variable {S R : ℕ}

/-- What the application's thread does next in `tcp_send`, if it is in it. -/
inductive SendStage
  | idle
  | ipSend
  | count
  | resetTimer
  deriving DecidableEq

/-- What the handler's thread does next in `handler_fn`: it waits, looks at `ack_queue`, looks at
`tcp_counter`, tests `i` in the loop of `handle_timeout`, ends that, or has terminated. -/
inductive HandlerStage
  | wait
  | ackTest
  | timerTest
  | resend (i : ℤ)
  | resetTimer
  | terminated
  deriving DecidableEq

structure Threads where
  net : Net
  sendStage : SendStage
  recverTerminated : Bool
  handlerStage : HandlerStage

inductive Turn
  | tcpConnect
  | tcpSend (data : UInt8)
  | ipSend
  | count
  | resetTimer
  | tcpRecv
  | tick
  | recver
  | handlerWakes
  | handlerAck
  | handlerTimeout
  | handlerResend
  | handlerReset

def timeOutLimit : ℤ := 5

/-- The tests `tcp_send` makes before it accepts a byte. -/
def Accepts (S : ℕ) (n : Net) : Prop :=
  n.sender.recvCond = true ∧ ¬ (S : ℤ) ≤ toInt (sub64 n.sender.currentSeq n.sender.sendBase)

instance (S : ℕ) (n : Net) : Decidable (Accepts S n) := inferInstanceAs (Decidable (_ ∧ _))

/-- `buf[current_seq % SendWindow] = {data, current_seq}` -/
def Net.store (S : ℕ) (n : Net) (data : UInt8) : Net :=
  { n with sender := { n.sender with
      buf := Function.update n.sender.buf (n.sender.currentSeq % S) ⟨data, n.sender.currentSeq⟩ } }

def Net.count (n : Net) : Net :=
  { n with sender := { n.sender with currentSeq := add64 n.sender.currentSeq 1 } }

namespace Threads

/-- `tcp_send` up to its call of `ip_send`. Its exceptions go to the application. -/
def tcpSend (S : ℕ) (p : Threads) (data : UInt8) : Threads :=
  if Accepts S p.net then { p with net := p.net.store S data, sendStage := .ipSend } else p

def ipSend (S : ℕ) (p : Threads) : Threads :=
  let (net, thrown) := p.net.ipSend (p.net.sender.buf (p.net.sender.currentSeq % S))
  { p with net, sendStage := if thrown = none then .count else .idle }

/-- The test of the loop in `handle_timeout` and, if it holds, one round. An exception in a thread
ends the program. -/
def handlerResend (S : ℕ) (p : Threads) (i : ℤ) : Option Threads :=
  if toUint64 i < p.net.sender.currentSeq then
    (ended (p.net.resendAt S i) none).bind fun net =>
      if i < intMax then some { p with net, handlerStage := .resend (i + 1) } else none
  else some { p with handlerStage := .resetTimer }

def next (S R : ℕ) (p : Threads) : Turn → Option Threads
  | .tcpConnect => if p.sendStage = .idle then some { p with net := p.net.tcpConnect } else none
  | .tcpSend data => if p.sendStage = .idle then some (p.tcpSend S data) else none
  | .ipSend => if p.sendStage = .ipSend then some (p.ipSend S) else none
  | .count =>
    if p.sendStage = .count then some { p with net := p.net.count, sendStage := .resetTimer }
    else none
  | .resetTimer =>
    if p.sendStage = .resetTimer then some { p with net := p.net.resetTimer, sendStage := .idle }
    else none
  | .tcpRecv => if p.sendStage = .idle then some { p with net := p.net.tcpRecv.1 } else none
  | .tick => some { p with net := p.net.tick }
  | .recver =>
    if p.recverTerminated = true ∨ p.net.pktQueue = [] then none
    else (ended (p.net.doRecv R) none).map fun net => { p with net, recverTerminated := true }
  | .handlerWakes =>
    if p.handlerStage = .wait ∧
        (timeOutLimit ≤ p.net.sender.tcpCounter ∨ p.net.ackQueue ≠ []) then
      some { p with handlerStage := .ackTest }
    else none
  | .handlerAck =>
    if p.handlerStage = .ackTest then
      some { p with
        net := if p.net.ackQueue = [] then p.net else p.net.handleAck
        handlerStage := .timerTest }
    else none
  | .handlerTimeout =>
    if p.handlerStage = .timerTest then
      some { p with
        handlerStage := if timeOutLimit ≤ p.net.sender.tcpCounter
          then .resend (toInt p.net.sender.sendBase) else .terminated }
    else none
  | .handlerResend =>
    match p.handlerStage with
    | .resend i => p.handlerResend S i
    | _ => none
  | .handlerReset =>
    if p.handlerStage = .resetTimer then
      some { p with net := p.net.resetTimer, handlerStage := .terminated }
    else none

def init (p : Threads) : Prop :=
  ∃ buf tcpBuf, p = ⟨Net.init buf tcpBuf, .idle, false, .wait⟩

end Threads

def threadSystem (S R : ℕ) : System Threads Turn where
  init := Threads.init
  step p t p' := p.next S R t = some p'

/-- Somebody is left to deliver what is queued and to send again what is not acknowledged. -/
structure Served (p : Threads) : Prop where
  recver : p.net.pktQueue ≠ [] → p.recverTerminated = false
  handler : p.net.sender.sendBase < p.net.sender.currentSeq → p.handlerStage ≠ .terminated

/-- The handler's thread is about to send a packet again. -/
def HandlerStage.Resends (n : Net) : HandlerStage → Prop
  | .resend i => toUint64 i < n.sender.currentSeq
  | .wait | .ackTest | .timerTest | .resetTimer | .terminated => False

/-- Packets are sent only to a receiver whose thread is left, a sequence number that is not yet
acknowledged is used up only while the handler's thread is left, and that takes its last step only
when all is acknowledged. -/
def Timely (p : Threads) : Turn → Prop
  | .ipSend => p.recverTerminated = false
  | .count => p.handlerStage = .terminated →
      add64 p.net.sender.currentSeq 1 ≤ p.net.sender.sendBase
  | .handlerTimeout => timeOutLimit ≤ p.net.sender.tcpCounter ∨
      p.net.sender.currentSeq ≤ p.net.sender.sendBase
  | .handlerResend => p.handlerStage.Resends p.net → p.recverTerminated = false
  | .handlerReset => p.net.sender.currentSeq ≤ p.net.sender.sendBase
  | .tcpConnect | .tcpSend _ | .resetTimer | .tcpRecv | .tick | .recver | .handlerWakes
  | .handlerAck => True

instance (n : Net) : (h : HandlerStage) → Decidable (h.Resends n)
  | .resend i => inferInstanceAs (Decidable (toUint64 i < _))
  | .wait | .ackTest | .timerTest | .resetTimer | .terminated => .isFalse id

instance (p : Threads) : (t : Turn) → Decidable (Timely p t)
  | .ipSend => inferInstanceAs (Decidable (_ = false))
  | .count => inferInstanceAs (Decidable (_ → _))
  | .handlerTimeout => inferInstanceAs (Decidable (_ ∨ _))
  | .handlerResend => inferInstanceAs (Decidable (_ → _))
  | .handlerReset => inferInstanceAs (Decidable (_ ≤ _))
  | .tcpConnect | .tcpSend _ | .resetTimer | .tcpRecv | .tick | .recver | .handlerWakes
  | .handlerAck => .isTrue trivial

def timelySystem (S R : ℕ) : System Threads Turn := (threadSystem S R).restrict Timely

section served
variable {p p' : Threads} {t : Turn} {tr : List Turn} {i : ℤ}

theorem Served.of_same (hs : Served p) (hqueue : p'.net.pktQueue = p.net.pktQueue)
    (hrecver : p'.recverTerminated = p.recverTerminated)
    (hbase : p'.net.sender.sendBase = p.net.sender.sendBase)
    (hseq : p'.net.sender.currentSeq = p.net.sender.currentSeq)
    (hhandler : p'.handlerStage = p.handlerStage) : Served p' := by
  constructor
  · rw [hqueue, hrecver]
    exact hs.recver
  · rw [hbase, hseq, hhandler]
    exact hs.handler

theorem Served.tcpSend (hs : Served p) (data : UInt8) : Served (p.tcpSend S data) := by
  rw [Threads.tcpSend]
  split_ifs
  · exact hs.of_same rfl rfl rfl rfl rfl
  · exact hs

theorem Served.ipSend_iff (hs : Served p) :
    Served (p.ipSend S) ↔ p.recverTerminated = false := by
  constructor
  · intro hs'
    exact hs'.recver (List.concat_ne_nil _ _)
  · intro hrecver
    exact ⟨fun _ => hrecver, hs.handler⟩

theorem Served.count_iff (hs : Served p) :
    Served { p with net := p.net.count, sendStage := .resetTimer } ↔
      (p.handlerStage = .terminated → add64 p.net.sender.currentSeq 1 ≤ p.net.sender.sendBase) := by
  constructor
  · intro hs' hended
    exact not_lt.mp fun hlt => hs'.handler hlt hended
  · intro hleft
    exact ⟨hs.recver, fun hlt hended => not_lt.mpr (hleft hended) hlt⟩

theorem Served.recver_ends (hs : Served p) {net : Net}
    (hnet : ended (p.net.doRecv R) none = some net) :
    Served { p with net, recverTerminated := true } := by
  have hres := ended_eq hnet
  have hsame : (p.net.doRecv R).1.pktQueue = [] ∧ (p.net.doRecv R).1.sender = p.net.sender := by
    rw [Net.doRecv, Net.sendAck]
    split_ifs
    · exact ⟨rfl, rfl⟩
    · exact ⟨rfl, rfl⟩
  rw [hres] at hsame
  constructor
  · intro hne
    exact absurd hsame.1 hne
  · intro hlt
    apply hs.handler
    rw [← hsame.2]
    exact hlt

/-- The last step of the handler's thread. -/
theorem Served.ends_iff (hs : Served p) {net : Net} (hqueue : net.pktQueue = p.net.pktQueue)
    (hbase : net.sender.sendBase = p.net.sender.sendBase)
    (hseq : net.sender.currentSeq = p.net.sender.currentSeq) :
    Served { p with net, handlerStage := .terminated } ↔
      p.net.sender.currentSeq ≤ p.net.sender.sendBase := by
  rw [← hbase, ← hseq]
  constructor
  · intro hs'
    exact not_lt.mp fun hlt => hs'.handler hlt rfl
  · intro hall
    refine ⟨?_, fun hlt => absurd hlt (not_lt.mpr hall)⟩
    rw [hqueue]
    exact hs.recver

theorem resendAt_ended {n net : Net} (h : ended (n.resendAt S i) none = some net) :
    net.pktQueue ≠ [] := by
  have hres := ended_eq h
  rw [Net.resendAt] at hres
  split_ifs at hres
  · cases hres
  · obtain ⟨hnet, -⟩ := Prod.mk.inj hres
    rw [← hnet]
    exact List.concat_ne_nil _ _

theorem Served.resend_iff (hs : Served p) (hstep : p.handlerResend S i = some p') :
    Served p' ↔ (toUint64 i < p.net.sender.currentSeq → p.recverTerminated = false) := by
  rw [Threads.handlerResend] at hstep
  by_cases htest : toUint64 i < p.net.sender.currentSeq
  · rw [if_pos htest] at hstep
    obtain ⟨net, hnet, hstep⟩ := Option.bind_eq_some_iff.mp hstep
    obtain ⟨-, hstep⟩ := Option.ite_none_right_eq_some.mp hstep
    cases hstep
    have hne := resendAt_ended hnet
    constructor
    · exact fun hs' _ => hs'.recver hne
    · exact fun hrecver => ⟨fun _ => hrecver htest, fun _ => by simp⟩
  · rw [if_neg htest] at hstep
    cases hstep
    refine iff_of_true ⟨hs.recver, fun _ => by simp⟩ ?_
    exact fun h => absurd h htest

/-- A step keeps the threads that are needed exactly if it is timely. -/
theorem Served.next_iff (hs : Served p) (hstep : p.next S R t = some p') :
    Served p' ↔ Timely p t := by
  cases t with
  | tcpConnect =>
    obtain ⟨-, hstep⟩ := Option.ite_none_right_eq_some.mp hstep
    cases hstep
    exact iff_of_true (hs.of_same rfl rfl rfl rfl rfl) trivial
  | tcpSend data =>
    obtain ⟨-, hstep⟩ := Option.ite_none_right_eq_some.mp hstep
    cases hstep
    exact iff_of_true (hs.tcpSend data) trivial
  | ipSend =>
    obtain ⟨-, hstep⟩ := Option.ite_none_right_eq_some.mp hstep
    cases hstep
    exact hs.ipSend_iff
  | count =>
    obtain ⟨-, hstep⟩ := Option.ite_none_right_eq_some.mp hstep
    cases hstep
    exact hs.count_iff
  | resetTimer =>
    obtain ⟨-, hstep⟩ := Option.ite_none_right_eq_some.mp hstep
    cases hstep
    exact iff_of_true (hs.of_same rfl rfl rfl rfl rfl) trivial
  | tcpRecv =>
    obtain ⟨-, hstep⟩ := Option.ite_none_right_eq_some.mp hstep
    cases hstep
    refine iff_of_true ?_ trivial
    rw [Net.tcpRecv]
    split <;> exact hs.of_same rfl rfl rfl rfl rfl
  | tick =>
    cases hstep
    exact iff_of_true (hs.of_same rfl rfl rfl rfl rfl) trivial
  | recver =>
    obtain ⟨-, hstep⟩ := Option.ite_none_left_eq_some.mp hstep
    obtain ⟨net, hnet, rfl⟩ := Option.map_eq_some_iff.mp hstep
    exact iff_of_true (hs.recver_ends hnet) trivial
  | handlerWakes =>
    obtain ⟨-, hstep⟩ := Option.ite_none_right_eq_some.mp hstep
    cases hstep
    exact iff_of_true ⟨hs.recver, fun _ => by simp⟩ trivial
  | handlerAck =>
    obtain ⟨-, hstep⟩ := Option.ite_none_right_eq_some.mp hstep
    cases hstep
    refine iff_of_true ⟨?_, fun _ => by simp⟩ trivial
    split_ifs
    · exact hs.recver
    · exact hs.recver
  | handlerTimeout =>
    obtain ⟨-, hstep⟩ := Option.ite_none_right_eq_some.mp hstep
    cases hstep
    rw [Timely]
    split_ifs with hlimit
    · exact iff_of_true ⟨hs.recver, fun _ => by simp⟩ (.inl hlimit)
    · rw [or_iff_right hlimit]
      exact hs.ends_iff rfl rfl rfl
  | handlerResend =>
    rw [Threads.next] at hstep
    split at hstep
    · rename_i i hat
      rw [hs.resend_iff hstep, Timely, hat]
      rfl
    · cases hstep
  | handlerReset =>
    obtain ⟨-, hstep⟩ := Option.ite_none_right_eq_some.mp hstep
    cases hstep
    exact hs.ends_iff rfl rfl rfl

/-- In a run of timely steps somebody is always left, and no other step keeps it so. -/
theorem threads_serve (hr : (timelySystem S R).Run System.always tr p) :
    Served p ∧ ∀ t p', p.next S R t = some p' → (Served p' ↔ Timely p t) := by
  have hs : Served p := by
    refine System.run_invariant (P := fun _ p => Served p) ?_ ?_ hr
    · rintro p ⟨buf, tcpBuf, rfl⟩
      constructor <;> simp [Net.init]
    · rintro _ p t p' - hs - ⟨htimely, hstep⟩
      exact (hs.next_iff hstep).mpr htimely
  exact ⟨hs, fun t p' hstep => hs.next_iff hstep⟩

theorem timely_of_exec (buf tcpBuf : ℕ → IpPkt)
    (h : System.replay (System.restrictExec Timely (Threads.next S R)) System.always []
      ⟨Net.init buf tcpBuf, .idle, false, .wait⟩ tr = some p) :
    (timelySystem S R).Run System.always tr p := by
  refine System.run_of_exec ?_ ⟨buf, tcpBuf, rfl⟩ h
  exact System.restrictExec_step (S := threadSystem S R) fun _ _ _ hstep => hstep

/-- A byte is accepted when the handler's thread has left the loop of `handle_timeout` and is about
to end. -/
theorem threads_serve_sample : ∃ tr p, (timelySystem 2 3).Run System.always tr p ∧
    Served p ∧ p.net.sender.sendBase < p.net.sender.currentSeq ∧ ¬ Timely p .handlerReset ∧
    ∃ p', p.next 2 3 .handlerReset = some p' ∧ ¬ Served p' := by
  have hr : ∃ p, (timelySystem 2 3).Run System.always
      [.tcpConnect, .tick, .tick, .tick, .tick, .tick, .handlerWakes, .handlerAck, .handlerTimeout,
        .handlerResend, .tcpSend 7, .ipSend, .count, .resetTimer] p ∧
      p.net.sender.sendBase < p.net.sender.currentSeq ∧ ¬ Timely p .handlerReset ∧
      ∃ p', p.next 2 3 .handlerReset = some p' :=
    ⟨_, timely_of_exec (fun _ => ⟨0, 0⟩) (fun _ => ⟨0, 0⟩) rfl, by decide, by decide, _, rfl⟩
  obtain ⟨p, hr, hpending, hlate, p', hstep⟩ := hr
  obtain ⟨hs, hexact⟩ := threads_serve hr
  refine ⟨_, p, hr, hs, hpending, hlate, p', hstep, ?_⟩
  rw [hexact _ _ hstep]
  exact hlate

/-- The receiver's thread ends after the first packet, and the second one stays queued. -/
theorem threads_serve_fails :
    ¬ ∀ tr p, (threadSystem 1024 1024).Run System.always tr p → Served p := by
  intro hall
  have hr : ∃ p, (threadSystem 1024 1024).Run System.always
      [.tcpConnect, .tcpSend 7, .ipSend, .count, .resetTimer, .recver, .tcpSend 8, .ipSend] p ∧
        p.recverTerminated = true ∧ p.net.pktQueue = [⟨8, 1⟩] :=
    ⟨_, System.run_of_exec (fun _ _ _ h => h) ⟨fun _ => ⟨0, 0⟩, fun _ => ⟨0, 0⟩, rfl⟩ rfl, rfl,
      rfl⟩
  obtain ⟨p, hr, hended, hqueue⟩ := hr
  have hserved := (hall _ p hr).recver (by simp [hqueue])
  rw [hended] at hserved
  cases hserved

end served

end ModCpp.Tcp
