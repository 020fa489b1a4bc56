import ModCpp.MachineWord
import ModCpp.Runs
import Mathlib.Data.Finset.Card
import Mathlib.Logic.Function.Basic

/-!
# The TCP pair

`TCP_Sender` and `TCP_Receiver` exchange packets and acks over two queues. A step is one run
of the body of one of their functions, which may leave by an exception, or an action of the
network, which may put any entries it has carried so far on the queues.
-/

namespace ModCpp.Tcp

structure IpPkt where
  data : UInt8
  seq : ℕ
  deriving DecidableEq

structure Sender where
  buf : ℕ → IpPkt
  sendBase : ℕ
  currentSeq : ℕ
  tcpCounter : ℤ
  recvCond : Bool

structure Receiver where
  recvBase : ℕ
  tcpBuf : ℕ → IpPkt
  appBuf : List IpPkt
  readySeq : Finset ℕ
  sendCond : Bool

/-- The two ends, the queues between them, and all entries the queues have ever held. -/
structure Net where
  sender : Sender
  receiver : Receiver
  pktQueue : List IpPkt
  ackQueue : List IpPkt
  pktCarried : List IpPkt
  ackCarried : List IpPkt

/-- The state a body ends in, and the exception or undefined behaviour that ended it. -/
abbrev Outcome := Net × Option Failure

def Outcome.andThen (o : Outcome) (f : Net → Outcome) : Outcome :=
  match o.2 with
  | some failure => (o.1, some failure)
  | none => f o.1

theorem andThen_cases {o : Outcome} {f : Net → Outcome} {n : Net} {thrown : Option Failure}
    (h : o.andThen f = (n, thrown)) :
    (∃ failure, o = (n, some failure)) ∨ ∃ m, o = (m, none) ∧ f m = (n, thrown) := by
  obtain ⟨m, result⟩ := o
  cases result with
  | some failure =>
    cases h
    exact .inl ⟨failure, rfl⟩
  | none => exact .inr ⟨m, rfl, h⟩

def connectionLoss : Failure := .exception "connection loss"

def senderBufferIsFull : Failure := .exception "sender buffer is full"

def Net.resetTimer (n : Net) : Net := { n with sender := { n.sender with tcpCounter := 0 } }

def Net.ipSend (n : Net) (pkt : IpPkt) : Outcome :=
  ({ n with pktQueue := n.pktQueue ++ [pkt], pktCarried := n.pktCarried ++ [pkt] },
    if n.sender.recvCond then none else some connectionLoss)

def Net.tcpSend (sendWindow : ℕ) (n : Net) (data : UInt8) : Outcome :=
  if n.sender.recvCond = false then (n, some connectionLoss)
  else if (sendWindow : ℤ) ≤ toInt (sub64 n.sender.currentSeq n.sender.sendBase) then
    (n, some senderBufferIsFull)
  else
    let slot := n.sender.currentSeq % sendWindow
    let buf := Function.update n.sender.buf slot ⟨data, n.sender.currentSeq⟩
    ({ n with sender := { n.sender with buf } }.ipSend (buf slot)).andThen fun n =>
      ({ n with sender := { n.sender with currentSeq := add64 n.sender.currentSeq 1 } }.resetTimer,
        none)

def Net.resendAt (sendWindow : ℕ) (n : Net) (i : ℤ) : Outcome :=
  if i.tmod sendWindow < 0 then (n, some (.undefined "buf[i % SendWindow]"))
  else n.ipSend (n.sender.buf (i.tmod sendWindow).toNat)

def Net.resend (sendWindow : ℕ) (n : Net) (i : ℤ) : Outcome :=
  if toUint64 i < n.sender.currentSeq then
    (n.resendAt sendWindow i).andThen fun n =>
      if i < intMax then n.resend sendWindow (i + 1) else (n, some (.undefined "i ++"))
  else (n, none)
termination_by (intMax - i).toNat
decreasing_by omega

def Net.handleTimeout (sendWindow : ℕ) (n : Net) : Outcome :=
  (n.resend sendWindow (toInt n.sender.sendBase)).andThen fun n => (n.resetTimer, none)

def Net.handleAck (n : Net) : Net :=
  { n with
    sender := { n.sender with
      sendBase := n.ackQueue.foldl (fun base (ack : IpPkt) => max base ack.seq) n.sender.sendBase }
    ackQueue := [] }.resetTimer

def Net.sendAck (n : Net) (pkt : IpPkt) : Outcome :=
  if n.receiver.sendCond = false then (n, some connectionLoss)
  else ({ n with ackQueue := n.ackQueue ++ [pkt], ackCarried := n.ackCarried ++ [pkt] }, none)

/-- What the first loop of `do_recv` does with one packet. -/
def Receiver.take (receiveWindow : ℕ) (r : Receiver) (pkt : IpPkt) : Receiver :=
  if add64 r.recvBase receiveWindow ≤ pkt.seq then r
  else if r.recvBase ≤ pkt.seq then
    { r with
      tcpBuf := Function.update r.tcpBuf (pkt.seq % receiveWindow) pkt
      readySeq := insert pkt.seq r.readySeq }
  else r

/-- The second loop of `do_recv`. Its rounds meet different members of `ready_seq`, so there
are at most as many of them as `ready_seq` has members. -/
def Receiver.advance (receiveWindow : ℕ) : ℕ → Receiver → Receiver
  | 0, r => r
  | rounds + 1, r =>
    if r.recvBase ∈ r.readySeq then
      Receiver.advance receiveWindow rounds
        { r with
          appBuf := r.appBuf ++ [r.tcpBuf (r.recvBase % receiveWindow)]
          recvBase := add64 r.recvBase 1 }
    else r

theorem advance_done {receiveWindow rounds : ℕ} {r : Receiver}
    (hcard : (r.readySeq.filter (r.recvBase ≤ ·)).card ≤ rounds)
    (hwrap : r.recvBase + rounds < 2 ^ 64) :
    (r.advance receiveWindow rounds).recvBase ∉ r.readySeq := by
  induction rounds generalizing r with
  | zero =>
    intro hmem
    rw [Nat.le_zero, Finset.card_eq_zero] at hcard
    have hin : r.recvBase ∈ r.readySeq.filter (r.recvBase ≤ ·) :=
      Finset.mem_filter.mpr ⟨hmem, le_rfl⟩
    rw [hcard] at hin
    simp at hin
  | succ rounds ih =>
    rw [Receiver.advance]
    split_ifs with hready
    · have hnext : add64 r.recvBase 1 = r.recvBase + 1 := add64_of_lt (by omega)
      rw [hnext]
      have hfewer : (r.readySeq.filter (r.recvBase + 1 ≤ ·)).card <
          (r.readySeq.filter (r.recvBase ≤ ·)).card := by
        apply Finset.card_lt_card
        rw [Finset.ssubset_iff_of_subset]
        · exact ⟨r.recvBase, by simpa using hready, by simp⟩
        · intro k hk
          simp only [Finset.mem_filter] at hk ⊢
          exact ⟨hk.1, by omega⟩
      exact ih (r := { r with
        appBuf := r.appBuf ++ [r.tcpBuf (r.recvBase % receiveWindow)]
        recvBase := r.recvBase + 1 }) (by simp only; omega) (by simp only; omega)
    · exact hready

/-- As many rounds as `ready_seq` has members complete the second loop of `do_recv`. -/
theorem advance_card_done {receiveWindow : ℕ} {r : Receiver}
    (hwrap : r.recvBase + r.readySeq.card < 2 ^ 64) :
    (r.advance receiveWindow r.readySeq.card).recvBase ∉ r.readySeq :=
  advance_done (Finset.card_filter_le _ _) hwrap

def Net.doRecv (receiveWindow : ℕ) (n : Net) : Outcome :=
  let r := n.pktQueue.foldl (Receiver.take receiveWindow) n.receiver
  let r := r.advance receiveWindow r.readySeq.card
  { n with receiver := r, pktQueue := [] }.sendAck ⟨0, r.recvBase⟩

def Net.tcpRecv (n : Net) : Net × Option IpPkt :=
  match n.receiver.appBuf with
  | [] => (n, none)
  | res :: appBuf => ({ n with receiver := { n.receiver with appBuf } }, some res)

def Net.tcpConnect (n : Net) : Net :=
  { n with
    sender := { n.sender with recvCond := true }
    receiver := { n.receiver with sendCond := true } }

def Net.tick (n : Net) : Net :=
  { n with
    sender := { n.sender with tcpCounter := Int.bmod (n.sender.tcpCounter + 1) (2 ^ 32) } }

/-- A step with what it returned or threw. -/
inductive Event
  | tcpSend (data : UInt8) (thrown : Option Failure)
  | doRecv (thrown : Option Failure)
  | handleAck
  | handleTimeout (thrown : Option Failure)
  | tcpRecv (res : Option IpPkt)
  | tcpConnect
  | tick
  | network (pkts acks : List IpPkt)

def ended {β : Type*} [DecidableEq β] (o : Net × β) (result : β) : Option Net :=
  if o.2 = result then some o.1 else none

/-- The state after an event, where the event is possible. `do_recv` waits for a packet, and
`handle_ack` and `handle_timeout` may run at any time. -/
def next (sendWindow receiveWindow : ℕ) (n : Net) : Event → Option Net
  | .tcpSend data thrown => ended (n.tcpSend sendWindow data) thrown
  | .doRecv thrown => if n.pktQueue = [] then none else ended (n.doRecv receiveWindow) thrown
  | .handleAck => some n.handleAck
  | .handleTimeout thrown => ended (n.handleTimeout sendWindow) thrown
  | .tcpRecv res => ended n.tcpRecv res
  | .tcpConnect => some n.tcpConnect
  | .tick => some n.tick
  | .network pkts acks =>
    if (∀ pkt ∈ pkts, pkt ∈ n.pktCarried) ∧ ∀ ack ∈ acks, ack ∈ n.ackCarried then
      some { n with pktQueue := pkts, ackQueue := acks }
    else none

def Net.init (buf tcpBuf : ℕ → IpPkt) : Net where
  sender := ⟨buf, 0, 0, 0, false⟩
  receiver := ⟨0, tcpBuf, [], ∅, false⟩
  pktQueue := []
  ackQueue := []
  pktCarried := []
  ackCarried := []

def system (sendWindow receiveWindow : ℕ) : System Net Event where
  init n := ∃ buf tcpBuf, n = Net.init buf tcpBuf
  step n e n' := next sendWindow receiveWindow n e = some n'

/-- The calls of `tcp_send`, the bytes it accepted, and the bytes `tcp_recv` returned. -/
structure History where
  calls : ℕ
  accepted : List UInt8
  returned : List UInt8

def History.record (h : History) : Event → History
  | .tcpSend data none => { h with calls := h.calls + 1, accepted := h.accepted ++ [data] }
  | .tcpSend _ (some _) => { h with calls := h.calls + 1 }
  | .tcpRecv (some res) => { h with returned := h.returned ++ [res.data] }
  | .tcpRecv none => h
  | .doRecv _ | .handleAck | .handleTimeout _ | .tcpConnect | .tick | .network _ _ => h

def hist (tr : List Event) : History := history History.record ⟨0, [], []⟩ tr

@[simp] theorem hist_nil : hist [] = ⟨0, [], []⟩ := rfl

@[simp] theorem hist_concat (tr : List Event) (e : Event) :
    hist (tr ++ [e]) = (hist tr).record e := history_concat _ _ _ _

end ModCpp.Tcp
