import ModCpp.TcpDelivery
import Mathlib.Data.List.Range

/-!
# The windows of the two ends

`pktCarried` is all that `ip_send` ever sent, oldest first, so its first entry with a sequence
number is the packet first sent with it.
-/

namespace ModCpp.Tcp
variable {S R : ℕ} {h : History} {n n' : Net} {e : Event} {accepted : List UInt8}

/-- The packets `handle_timeout` sends again from `i` on. -/
def Sender.resent (S : ℕ) (s : Sender) (i : ℕ) : List IpPkt :=
  (List.range' i (s.currentSeq - i)).map fun k => s.buf (k % S)

def Net.carry (n : Net) (pkts : List IpPkt) : Net :=
  { n with pktQueue := n.pktQueue ++ pkts, pktCarried := n.pktCarried ++ pkts }

theorem resendAt_eq (i : ℕ) (hconn : n.sender.recvCond = true) :
    n.resendAt S i = (n.carry [n.sender.buf (i % S)], none) := by
  rw [Net.resendAt, Int.tmod_eq_emod_of_nonneg (by omega), ← Int.natCast_mod, if_neg (by omega),
    Int.toNat_natCast, Net.ipSend, if_pos hconn]
  rfl

theorem resendAt_sender (i : ℤ) : (n.resendAt S i).1.sender = n.sender := by
  rw [Net.resendAt]
  split_ifs <;> rfl

theorem resend_eq (i : ℕ) (hseq : n.sender.currentSeq < 2 ^ 31) (hi : i ≤ n.sender.currentSeq)
    (hconn : i < n.sender.currentSeq → n.sender.recvCond = true) :
    n.resend S i = (n.carry (n.sender.resent S i), none) := by
  obtain ⟨rest, hrest⟩ : ∃ rest, n.sender.currentSeq = i + rest := ⟨_, (Nat.add_sub_of_le hi).symm⟩
  induction rest generalizing n i with
  | zero =>
    rw [Net.resend, toUint64_natCast (by omega), if_neg (by omega)]
    simp [Sender.resent, Net.carry, hrest]
  | succ rest ih =>
    have hmax : (i : ℤ) < intMax := by
      rw [intMax]
      omega
    have hconn' := hconn (by omega)
    rw [Net.resend, toUint64_natCast (by omega), if_pos (by omega), resendAt_eq i hconn',
      Outcome.andThen]
    simp only [if_pos hmax]
    have hnext := ih (n := n.carry [n.sender.buf (i % S)]) (i + 1) hseq
      (show i + 1 ≤ n.sender.currentSeq by omega) (fun _ => hconn')
      (show n.sender.currentSeq = i + 1 + rest by omega)
    have hcast : (i : ℤ) + 1 = ((i + 1 : ℕ) : ℤ) := by omega
    rw [hcast, hnext]
    have hlen : n.sender.currentSeq - i = n.sender.currentSeq - (i + 1) + 1 := by omega
    simp [Net.carry, Sender.resent, hlen, List.range'_succ]

theorem handleTimeout_idle
    (hloop : ¬ toUint64 (toInt n.sender.sendBase) < n.sender.currentSeq) :
    n.handleTimeout S = (n.resetTimer, none) := by
  rw [Net.handleTimeout, Net.resend, if_neg hloop]
  rfl

theorem take_sendCond (r : Receiver) (pkt : IpPkt) : (r.take R pkt).sendCond = r.sendCond := by
  rw [Receiver.take]
  split_ifs <;> rfl

theorem foldl_take_sendCond (pkts : List IpPkt) (r : Receiver) :
    (pkts.foldl (Receiver.take R) r).sendCond = r.sendCond := by
  induction pkts generalizing r with
  | nil => rfl
  | cons pkt pkts ih => rw [List.foldl_cons, ih, take_sendCond]

theorem advance_sendCond (rounds : ℕ) (r : Receiver) :
    (r.advance R rounds).sendCond = r.sendCond := by
  induction rounds generalizing r with
  | zero => rfl
  | succ rounds ih =>
    rw [Receiver.advance]
    split_ifs with hready
    · rw [ih]
    · rfl

/-- The receiver after the two loops of `do_recv`. -/
def Net.received (R : ℕ) (n : Net) : Receiver :=
  let r := n.pktQueue.foldl (Receiver.take R) n.receiver
  r.advance R r.readySeq.card

theorem received_sendCond : (n.received R).sendCond = n.receiver.sendCond := by
  rw [Net.received, advance_sendCond, foldl_take_sendCond]

theorem doRecv_eq (hconn : n.receiver.sendCond = true) :
    n.doRecv R = ({ n with
      receiver := n.received R
      pktQueue := []
      ackQueue := n.ackQueue ++ [⟨0, (n.received R).recvBase⟩]
      ackCarried := n.ackCarried ++ [⟨0, (n.received R).recvBase⟩] }, none) := by
  have hconn' := received_sendCond (n := n) (R := R)
  rw [hconn] at hconn'
  rw [Net.doRecv, Net.sendAck, if_neg ?_]
  · rfl
  · intro hlost
    exact absurd (hconn'.symm.trans hlost) (by decide)

/-- Every accepted byte was sent, and bytes are accepted only over a connection. -/
structure Linked (h : History) (n : Net) : Prop where
  sent : ∀ k, k < h.accepted.length → ∃ pkt ∈ n.pktCarried, pkt.seq = k
  conds : n.receiver.sendCond = n.sender.recvCond
  connected : h.accepted ≠ [] → n.sender.recvCond = true

theorem Linked.init (buf tcpBuf : ℕ → IpPkt) : Linked ⟨0, [], []⟩ (Net.init buf tcpBuf) := by
  constructor <;> simp [Net.init]

theorem Linked.of_eq (hl : Linked h n) (hcarried : ∀ pkt ∈ n.pktCarried, pkt ∈ n'.pktCarried)
    (hrecv : n'.sender.recvCond = n.sender.recvCond)
    (hsend : n'.receiver.sendCond = n.receiver.sendCond) : Linked h n' := by
  refine ⟨?_, ?_, ?_⟩
  · intro k hk
    obtain ⟨pkt, hp, hseq⟩ := hl.sent k hk
    exact ⟨pkt, hcarried pkt hp, hseq⟩
  · rw [hsend, hrecv, hl.conds]
  · rw [hrecv]
    exact hl.connected

theorem Delivery.timeout_eq (hd : Delivery S R h n) (hl : Linked h n) (hcalls : h.calls < 2 ^ 31) :
    n.handleTimeout S = ((n.carry (n.sender.resent S n.sender.sendBase)).resetTimer, none) := by
  have hlen := hd.accepted_le
  have hseq := hd.sending.currentSeq
  have hbase := hd.sending.sendBase_le.trans hd.receiving.recvBase_le
  rw [Net.handleTimeout, toInt_of_lt (by omega), resend_eq _ (by omega) (by omega), Outcome.andThen]
  intro hlt
  apply hl.connected
  intro hnone
  rw [hnone, List.length_nil] at hseq
  omega

theorem recvCond_of_accepted {data : UInt8} (h : n.tcpSend S data = (n', none)) :
    n.sender.recvCond = true := by
  by_contra hlost
  rw [Net.tcpSend, if_pos (Bool.eq_false_of_not_eq_true hlost)] at h
  cases h

theorem Linked.accept (hl : Linked h n) (hd : Delivery S R h n) {data : UInt8}
    (hconn : n.sender.recvCond = true) :
    Linked (h.record (.tcpSend data none)) (n.accept S data) := by
  refine ⟨?_, hl.conds, fun _ => hconn⟩
  intro k hk
  simp only [History.record, List.length_append, List.length_singleton] at hk
  by_cases hlast : k = h.accepted.length
  · refine ⟨⟨data, n.sender.currentSeq⟩, ?_, ?_⟩
    · simp [Net.accept]
    · rw [hlast, hd.sending.currentSeq]
  · obtain ⟨pkt, hp, hseq⟩ := hl.sent k (by omega)
    exact ⟨pkt, List.mem_append_left _ hp, hseq⟩

theorem doRecv_conds : (n.doRecv R).1.receiver.sendCond = n.receiver.sendCond ∧
    (n.doRecv R).1.sender = n.sender ∧ (n.doRecv R).1.pktCarried = n.pktCarried := by
  rw [Net.doRecv, Net.sendAck]
  split_ifs with hlost
  · exact ⟨received_sendCond, rfl, rfl⟩
  · exact ⟨received_sendCond, rfl, rfl⟩

theorem Linked.step (hl : Linked h n) (hd : Delivery S R h n) (hcalls : h.calls < 2 ^ 31)
    (hstep : next S R n e = some n') : Linked (h.record e) n' := by
  cases e with
  | tcpSend data thrown =>
    have hres := ended_eq hstep
    rcases tcpSend_cases (S := S) n data with ⟨failure, hthrow⟩ | ⟨_, haccept⟩
    · rw [hthrow] at hres
      cases hres
      exact ⟨hl.sent, hl.conds, hl.connected⟩
    · rw [haccept] at hres
      cases hres
      exact hl.accept hd (recvCond_of_accepted haccept)
  | doRecv thrown =>
    rw [next] at hstep
    split_ifs at hstep
    obtain ⟨hcond, hsender, hcarried⟩ := doRecv_conds (n := n) (R := R)
    rw [ended_eq hstep] at hcond hsender hcarried
    refine hl.of_eq ?_ (by rw [hsender]) hcond
    rw [hcarried]
    exact fun _ hp => hp
  | handleAck =>
    cases hstep
    exact hl.of_eq (fun _ hp => hp) rfl rfl
  | handleTimeout thrown =>
    have hres := ended_eq hstep
    rw [hd.timeout_eq hl hcalls] at hres
    cases hres
    exact hl.of_eq (fun _ hp => List.mem_append_left _ hp) rfl rfl
  | tcpRecv res =>
    have hres := ended_eq hstep
    have haccepted : (h.record (.tcpRecv res)).accepted = h.accepted := by cases res <;> rfl
    have hkept : Linked h n' := by
      rw [Net.tcpRecv] at hres
      split at hres
      all_goals
        cases hres
        exact hl.of_eq (fun _ hp => hp) rfl rfl
    refine ⟨?_, hkept.conds, ?_⟩
    · rw [haccepted]
      exact hkept.sent
    · rw [haccepted]
      exact hkept.connected
  | tcpConnect =>
    cases hstep
    exact ⟨hl.sent, rfl, fun _ => rfl⟩
  | tick =>
    cases hstep
    exact hl.of_eq (fun _ hp => hp) rfl rfl
  | network pkts acks =>
    rw [next] at hstep
    split_ifs at hstep
    cases hstep
    exact hl.of_eq (fun _ hp => hp) rfl rfl

theorem run_linked {tr : List Event} (hr : (system S R).Run System.always tr n)
    (hcalls : (hist tr).calls < 2 ^ 31) : Delivery S R (hist tr) n ∧ Linked (hist tr) n := by
  refine System.run_invariant (P := fun tr n => (hist tr).calls < 2 ^ 31 →
    Delivery S R (hist tr) n ∧ Linked (hist tr) n) ?_ ?_ hr hcalls
  · intro n hn _
    obtain ⟨buf, tcpBuf, rfl⟩ := hn
    exact ⟨.init buf tcpBuf, .init buf tcpBuf⟩
  · intro tr n e n' _ ih _ hstep hlt
    rw [hist_concat] at hlt ⊢
    have hlt' := calls_le_record.trans_lt hlt
    obtain ⟨hd, hl⟩ := ih hlt'
    exact ⟨hd.step hlt' hstep, hl.step hd hlt' hstep⟩

theorem pkt_eq {pkt pkt' : IpPkt} (hdata : pkt.data = pkt'.data) (hseq : pkt.seq = pkt'.seq) :
    pkt = pkt' := by
  cases pkt
  cases pkt'
  cases hdata
  cases hseq
  rfl

theorem Delivery.find_sent (hd : Delivery S R h n) (hl : Linked h n) {k : ℕ}
    (hbase : n.sender.sendBase ≤ k) (hk : k < h.accepted.length) :
    n.pktCarried.find? (fun pkt => pkt.seq = k) = some (n.sender.buf (k % S)) := by
  obtain ⟨pkt, hp, hseq⟩ := hl.sent k hk
  obtain ⟨first, hfirst⟩ : ∃ first, n.pktCarried.find? (fun pkt => pkt.seq = k) = some first := by
    rw [← Option.isSome_iff_exists, List.find?_isSome]
    exact ⟨pkt, hp, decide_eq_true hseq⟩
  have hfirstSeq : first.seq = k := by simpa using List.find?_some hfirst
  have hfirstData := hd.pkts first (List.mem_of_find?_eq_some hfirst)
  obtain ⟨hslot, hg⟩ := hd.sending.slot k hbase hk
  rw [Genuine, hfirstSeq] at hfirstData
  rw [Genuine, hslot] at hg
  have hdata : first.data = (n.sender.buf (k % S)).data :=
    Option.some_inj.mp (hfirstData.symm.trans hg)
  rw [hfirst, pkt_eq hdata (hfirstSeq.trans hslot.symm)]

/-- What is acknowledged was delivered, the windows bound each other, and the sender still
holds every packet that is not acknowledged. -/
theorem windows_hold {tr : List Event} (hr : (system S R).Run System.always tr n)
    (hcalls : (hist tr).calls < 2 ^ 31) :
    (∀ ack, ack ∈ n.ackQueue ∨ ack ∈ n.ackCarried → ack.seq ≤ n.receiver.recvBase) ∧
      n.sender.sendBase ≤ n.receiver.recvBase ∧ n.receiver.recvBase ≤ n.sender.currentSeq ∧
      n.sender.currentSeq ≤ n.sender.sendBase + S ∧
      ∀ seq, n.sender.sendBase ≤ seq → seq < n.sender.currentSeq →
        n.pktCarried.find? (fun pkt => pkt.seq = seq) = some (n.sender.buf (seq % S)) := by
  obtain ⟨hd, hl⟩ := run_linked hr hcalls
  have hseq := hd.sending.currentSeq
  refine ⟨?_, hd.sending.sendBase_le, ?_, ?_, ?_⟩
  · intro ack ha
    rcases ha with ha | ha
    · exact hd.acks ack (hd.ackQueue ack ha)
    · exact hd.acks ack ha
  · rw [hseq]
    exact hd.receiving.recvBase_le
  · rw [hseq]
    exact hd.sending.window
  · intro seq hbase hlt
    exact hd.find_sent hl hbase (by omega)

theorem windows_hold_sample : ∃ tr n, (system 2 3).Run System.always tr n ∧
    n.pktCarried.find? (fun pkt => pkt.seq = 2) = some ⟨9, 2⟩ ∧
    n.sender.currentSeq ≤ n.sender.sendBase + 2 := by
  have hr : ∃ n, (system 2 3).Run System.always
      [.tcpConnect, .tcpSend 7 none, .tcpSend 8 none, .doRecv none, .handleAck, .tcpSend 9 none,
        .network [] []] n ∧ n.sender.buf 0 = ⟨9, 2⟩ ∧
          n.sender.sendBase = 2 ∧ n.sender.currentSeq = 3 :=
    ⟨_, System.run_of_exec (fun _ _ _ h => h) ⟨fun _ => ⟨0, 0⟩, fun _ => ⟨0, 0⟩, rfl⟩ rfl, rfl,
      rfl, rfl⟩
  obtain ⟨n, hr, hbuf, hbase, hseq⟩ := hr
  obtain ⟨_, _, _, hwin, hslot⟩ := windows_hold hr (by decide)
  refine ⟨_, n, hr, ?_, hwin⟩
  rw [hslot 2 (by omega) (by omega), hbuf]

end ModCpp.Tcp
