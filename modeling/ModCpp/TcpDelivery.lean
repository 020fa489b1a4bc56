import ModCpp.ModularWindow
import ModCpp.Tcp

/-!
# Delivery over an unreliable network

Every packet the network has ever carried is a byte that `tcp_send` accepted under its
sequence number, so it does no harm at any later time. The two windows keep the slots of the
bytes still to be sent and still to be delivered apart.
-/

namespace ModCpp.Tcp
variable {S R : ℕ} {h : History} {n n' : Net} {e : Event} {pkt : IpPkt} {accepted : List UInt8}
  {returned : List UInt8} {r : Receiver} {recvBase : ℕ} {s : Sender}

/-- The packet carries the byte accepted under its sequence number. -/
def Genuine (accepted : List UInt8) (pkt : IpPkt) : Prop := accepted[pkt.seq]? = some pkt.data

theorem Genuine.append (hg : Genuine accepted pkt) (rest : List UInt8) :
    Genuine (accepted ++ rest) pkt := getElem?_of_prefix (List.prefix_append _ _) hg

/-- The sender keeps every byte that is not acknowledged in its slot. -/
structure Sending (S : ℕ) (accepted : List UInt8) (recvBase : ℕ) (s : Sender) : Prop where
  currentSeq : s.currentSeq = accepted.length
  sendBase_le : s.sendBase ≤ recvBase
  window : accepted.length ≤ s.sendBase + S
  slot : ∀ k, s.sendBase ≤ k → k < accepted.length →
    (s.buf (k % S)).seq = k ∧ Genuine accepted (s.buf (k % S))

/-- The receiver has passed on the bytes below its base, and holds in its slots the bytes
beyond it that are ready. -/
structure Receiving (R : ℕ) (accepted returned : List UInt8) (r : Receiver) : Prop where
  recvBase_le : r.recvBase ≤ accepted.length
  ready : ∀ k ∈ r.readySeq, r.recvBase ≤ k →
    k < r.recvBase + R ∧ (r.tcpBuf (k % R)).seq = k ∧ Genuine accepted (r.tcpBuf (k % R))
  delivered : returned ++ r.appBuf.map IpPkt.data = accepted.take r.recvBase

structure Delivery (S R : ℕ) (h : History) (n : Net) : Prop where
  accepted_le : h.accepted.length ≤ h.calls
  sending : Sending S h.accepted n.receiver.recvBase n.sender
  receiving : Receiving R h.accepted h.returned n.receiver
  pkts : ∀ pkt ∈ n.pktCarried, Genuine h.accepted pkt
  acks : ∀ ack ∈ n.ackCarried, ack.seq ≤ n.receiver.recvBase
  pktQueue : ∀ pkt ∈ n.pktQueue, pkt ∈ n.pktCarried
  ackQueue : ∀ ack ∈ n.ackQueue, ack ∈ n.ackCarried

theorem Sending.of_eq (hs : Sending S accepted recvBase s) {s' : Sender} {recvBase' : ℕ}
    (hseq : s'.currentSeq = s.currentSeq) (hbase : s'.sendBase = s.sendBase)
    (hbuf : s'.buf = s.buf) (hle : recvBase ≤ recvBase') : Sending S accepted recvBase' s' where
  currentSeq := by rw [hseq, hs.currentSeq]
  sendBase_le := by
    rw [hbase]
    exact hs.sendBase_le.trans hle
  window := by
    rw [hbase]
    exact hs.window
  slot := by
    rw [hbase, hbuf]
    exact hs.slot

theorem Receiving.take (hr : Receiving R accepted returned r) (hg : Genuine accepted pkt) :
    Receiving R accepted returned (r.take R pkt) := by
  rw [Receiver.take]
  split_ifs with hupper hbase
  · exact hr
  · have hwrap : add64 r.recvBase R ≤ r.recvBase + R := Nat.mod_le _ _
    have hlt : pkt.seq < r.recvBase + R := by omega
    refine ⟨hr.recvBase_le, ?_, hr.delivered⟩
    intro k hk hle
    simp only [Finset.mem_insert] at hk hle ⊢
    by_cases hne : k = pkt.seq
    · rw [hne, Function.update_self]
      exact ⟨hlt, rfl, hg⟩
    · obtain ⟨hwin, hslot⟩ := hr.ready k (hk.resolve_left hne) hle
      rw [update_mod_of_ne hbase hlt hle hwin hne]
      exact ⟨hwin, hslot⟩
  · exact hr

theorem take_recvBase : (r.take R pkt).recvBase = r.recvBase := by
  rw [Receiver.take]
  split_ifs <;> rfl

theorem foldl_take_recvBase (pkts : List IpPkt) :
    (pkts.foldl (Receiver.take R) r).recvBase = r.recvBase := by
  induction pkts generalizing r with
  | nil => rfl
  | cons pkt pkts ih => rw [List.foldl_cons, ih, take_recvBase]

theorem Receiving.foldl_take (hr : Receiving R accepted returned r) {pkts : List IpPkt}
    (hg : ∀ pkt ∈ pkts, Genuine accepted pkt) :
    Receiving R accepted returned (pkts.foldl (Receiver.take R) r) := by
  induction pkts generalizing r with
  | nil => exact hr
  | cons pkt pkts ih =>
    rw [List.foldl_cons]
    exact ih (hr.take (hg pkt List.mem_cons_self)) fun p hp => hg p (List.mem_cons_of_mem _ hp)

theorem Receiving.advance (hr : Receiving R accepted returned r)
    (hlen : accepted.length < 2 ^ 64) (rounds : ℕ) :
    Receiving R accepted returned (r.advance R rounds) ∧
      r.recvBase ≤ (r.advance R rounds).recvBase := by
  induction rounds generalizing r with
  | zero => exact ⟨hr, le_rfl⟩
  | succ rounds ih =>
    rw [Receiver.advance]
    split_ifs with hready
    · obtain ⟨hwin, hseq, hg⟩ := hr.ready r.recvBase hready le_rfl
      rw [Genuine, hseq] at hg
      have hlt : r.recvBase < accepted.length := (List.getElem?_eq_some_iff.mp hg).1
      have hnext : add64 r.recvBase 1 = r.recvBase + 1 := add64_of_lt (by omega)
      rw [hnext]
      have hr' : Receiving R accepted returned { r with
          appBuf := r.appBuf ++ [r.tcpBuf (r.recvBase % R)]
          recvBase := r.recvBase + 1 } := by
        refine ⟨hlt, ?_, ?_⟩
        · intro k hk hle
          obtain ⟨hwin, hslot⟩ := hr.ready k hk (Nat.le_of_succ_le hle)
          exact ⟨by simp only; omega, hslot⟩
        · simp only [List.map_append, List.map_cons, List.map_nil]
          rw [← List.append_assoc, hr.delivered, List.take_add_one, hg]
          rfl
      obtain ⟨hadv, hle⟩ := ih hr'
      exact ⟨hadv, Nat.le_of_succ_le hle⟩
    · exact ⟨hr, le_rfl⟩

theorem Delivery.ipSend (hd : Delivery S R h n) (hg : Genuine h.accepted pkt) :
    Delivery S R h (n.ipSend pkt).1 where
  accepted_le := hd.accepted_le
  sending := hd.sending
  receiving := hd.receiving
  pkts p hp := by
    rcases List.mem_append.mp hp with hp | hp
    · exact hd.pkts p hp
    · rwa [List.mem_singleton.mp hp]
  acks := hd.acks
  pktQueue p hp := by
    rcases List.mem_append.mp hp with hp | hp
    · exact List.mem_append_left _ (hd.pktQueue p hp)
    · exact List.mem_append_right _ hp
  ackQueue := hd.ackQueue

theorem Delivery.setSender (hd : Delivery S R h n)
    (hs : Sending S h.accepted n.receiver.recvBase s) : Delivery S R h { n with sender := s } where
  accepted_le := hd.accepted_le
  sending := hs
  receiving := hd.receiving
  pkts := hd.pkts
  acks := hd.acks
  pktQueue := hd.pktQueue
  ackQueue := hd.ackQueue

theorem Delivery.resetTimer (hd : Delivery S R h n) : Delivery S R h n.resetTimer :=
  hd.setSender (hd.sending.of_eq rfl rfl rfl le_rfl)

def Net.accept (S : ℕ) (n : Net) (data : UInt8) : Net :=
  let pkt : IpPkt := ⟨data, n.sender.currentSeq⟩
  { n with
    sender := { n.sender with
      buf := Function.update n.sender.buf (n.sender.currentSeq % S) pkt
      currentSeq := add64 n.sender.currentSeq 1
      tcpCounter := 0 }
    pktQueue := n.pktQueue ++ [pkt]
    pktCarried := n.pktCarried ++ [pkt] }

theorem tcpSend_cases (n : Net) (data : UInt8) :
    (∃ failure, n.tcpSend S data = (n, some failure)) ∨
      (¬ (S : ℤ) ≤ toInt (sub64 n.sender.currentSeq n.sender.sendBase) ∧
        n.tcpSend S data = (n.accept S data, none)) := by
  rw [Net.tcpSend]
  split_ifs with hcond hfull
  · exact .inl ⟨_, rfl⟩
  · exact .inl ⟨_, rfl⟩
  · refine .inr ⟨hfull, ?_⟩
    simp [Net.ipSend, hcond, Net.accept, Net.resetTimer, Outcome.andThen]

/-- The window check keeps the slot of a new byte away from those of the bytes still needed. -/
theorem Sending.accept (hs : Sending S accepted recvBase s) (hrecv : recvBase ≤ accepted.length)
    (hlen : accepted.length < 2 ^ 31) (hroom : ¬ (S : ℤ) ≤ toInt (sub64 s.currentSeq s.sendBase))
    (data : UInt8) :
    Sending S (accepted ++ [data]) recvBase { s with
      buf := Function.update s.buf (s.currentSeq % S) ⟨data, s.currentSeq⟩
      currentSeq := add64 s.currentSeq 1
      tcpCounter := 0 } := by
  have hseq := hs.currentSeq
  have hbase := hs.sendBase_le
  have hroom' : accepted.length < s.sendBase + S := by
    rw [hseq, sub64_of_le (by omega) (by omega), toInt_of_lt (by omega)] at hroom
    omega
  constructor
  · simp only [List.length_append, List.length_singleton, hseq]
    exact add64_of_lt (by omega)
  · exact hbase
  · simp only [List.length_append, List.length_singleton]
    omega
  · intro k hk hk'
    simp only [List.length_append, List.length_singleton] at hk' ⊢
    rw [hseq]
    by_cases hne : k = accepted.length
    · rw [hne, Function.update_self]
      exact ⟨rfl, List.getElem?_concat_length⟩
    · have hle : s.sendBase ≤ accepted.length := by omega
      rw [update_mod_of_ne hle hroom' hk (by omega) hne]
      obtain ⟨hslot, hg⟩ := hs.slot k hk (by omega)
      exact ⟨hslot, hg.append _⟩

theorem Receiving.append (hr : Receiving R accepted returned r) (data : UInt8) :
    Receiving R (accepted ++ [data]) returned r where
  recvBase_le := hr.recvBase_le.trans (by simp)
  ready k hk hle := by
    obtain ⟨hwin, hseq, hg⟩ := hr.ready k hk hle
    exact ⟨hwin, hseq, hg.append _⟩
  delivered := by rw [hr.delivered, List.take_append_of_le_length hr.recvBase_le]

theorem Delivery.accept (hd : Delivery S R h n) {data : UInt8}
    (hcalls : h.calls < 2 ^ 31)
    (hroom : ¬ (S : ℤ) ≤ toInt (sub64 n.sender.currentSeq n.sender.sendBase)) :
    Delivery S R (h.record (.tcpSend data none)) (n.accept S data) := by
  have hlen := hd.accepted_le
  constructor
  · simpa [History.record] using hlen
  · exact hd.sending.accept hd.receiving.recvBase_le (by omega) hroom data
  · exact hd.receiving.append data
  · intro pkt hp
    rcases List.mem_append.mp hp with hp | hp
    · exact (hd.pkts pkt hp).append _
    · rw [List.mem_singleton.mp hp, Genuine, hd.sending.currentSeq]
      exact List.getElem?_concat_length
  · exact hd.acks
  · intro pkt hp
    rcases List.mem_append.mp hp with hp | hp
    · exact List.mem_append_left _ (hd.pktQueue pkt hp)
    · exact List.mem_append_right _ hp
  · exact hd.ackQueue

theorem Delivery.resendAt (hd : Delivery S R h n) {i : ℕ} (hi : n.sender.sendBase ≤ i)
    (hi' : i < 2 ^ 64) (hlt : toUint64 i < n.sender.currentSeq) {thrown : Option Failure}
    (hres : n.resendAt S i = (n', thrown)) : Delivery S R h n' ∧ n'.sender = n.sender := by
  rw [toUint64_natCast hi', hd.sending.currentSeq] at hlt
  obtain ⟨_, hg⟩ := hd.sending.slot i hi hlt
  rw [Net.resendAt, Int.tmod_eq_emod_of_nonneg (by omega), ← Int.natCast_mod, if_neg (by omega),
    Int.toNat_natCast] at hres
  cases hres
  exact ⟨hd.ipSend hg, rfl⟩

theorem Delivery.resend (hd : Delivery S R h n) {i room : ℕ} (hi : n.sender.sendBase ≤ i)
    (hroom : (i + room : ℤ) = intMax) {thrown : Option Failure}
    (hres : n.resend S i = (n', thrown)) : Delivery S R h n' := by
  have hword : i < 2 ^ 64 := by
    rw [intMax] at hroom
    omega
  induction room generalizing n i with
  | zero =>
    rw [Net.resend] at hres
    by_cases hlt : toUint64 i < n.sender.currentSeq
    · rw [if_pos hlt] at hres
      rcases andThen_cases hres with ⟨failure, hone⟩ | ⟨m, hone, hrest⟩
      · exact (hd.resendAt hi hword hlt hone).1
      · rw [if_neg (by omega)] at hrest
        cases hrest
        exact (hd.resendAt hi hword hlt hone).1
    · rw [if_neg hlt] at hres
      cases hres
      exact hd
  | succ room ih =>
    rw [Net.resend] at hres
    by_cases hlt : toUint64 i < n.sender.currentSeq
    · rw [if_pos hlt] at hres
      rcases andThen_cases hres with ⟨failure, hone⟩ | ⟨m, hone, hrest⟩
      · exact (hd.resendAt hi hword hlt hone).1
      · obtain ⟨hm, hsender⟩ := hd.resendAt hi hword hlt hone
        rw [if_pos (by omega)] at hrest
        rw [intMax] at hroom
        exact ih hm (i := i + 1) (by rw [hsender]; omega) (by rw [intMax]; push_cast; omega) hrest
          (by omega)
    · rw [if_neg hlt] at hres
      cases hres
      exact hd

theorem Delivery.handleTimeout (hd : Delivery S R h n) (hcalls : h.calls < 2 ^ 31)
    {thrown : Option Failure} (hres : n.handleTimeout S = (n', thrown)) : Delivery S R h n' := by
  have hlen := hd.accepted_le
  have hbase := hd.sending.sendBase_le.trans hd.receiving.recvBase_le
  have hroom : (n.sender.sendBase + (2 ^ 31 - 1 - n.sender.sendBase : ℕ) : ℤ) = intMax := by
    rw [intMax]
    omega
  rw [Net.handleTimeout, toInt_of_lt (by omega)] at hres
  rcases andThen_cases hres with ⟨failure, hloop⟩ | ⟨m, hloop, hreset⟩
  · exact hd.resend le_rfl hroom hloop
  · cases hreset
    exact (hd.resend le_rfl hroom hloop).resetTimer

theorem foldl_max_le {acks : List IpPkt} {base bound : ℕ} (hbase : base ≤ bound)
    (hacks : ∀ ack ∈ acks, ack.seq ≤ bound) :
    base ≤ acks.foldl (fun base (ack : IpPkt) => max base ack.seq) base ∧
      acks.foldl (fun base (ack : IpPkt) => max base ack.seq) base ≤ bound := by
  induction acks generalizing base with
  | nil => exact ⟨le_rfl, hbase⟩
  | cons ack acks ih =>
    have hack := hacks ack List.mem_cons_self
    obtain ⟨hle, hle'⟩ := ih (max_le hbase hack) fun a ha => hacks a (List.mem_cons_of_mem _ ha)
    exact ⟨(le_max_left _ _).trans hle, hle'⟩

theorem Delivery.handleAck (hd : Delivery S R h n) : Delivery S R h n.handleAck := by
  obtain ⟨hle, hle'⟩ := foldl_max_le hd.sending.sendBase_le
    fun ack ha => hd.acks ack (hd.ackQueue ack ha)
  constructor
  · exact hd.accepted_le
  · constructor
    · exact hd.sending.currentSeq
    · exact hle'
    · exact hd.sending.window.trans (Nat.add_le_add_right hle S)
    · exact fun k hk hk' => hd.sending.slot k (hle.trans hk) hk'
  · exact hd.receiving
  · exact hd.pkts
  · exact hd.acks
  · exact hd.pktQueue
  · simp [Net.handleAck, Net.resetTimer]

theorem Delivery.doRecv (hd : Delivery S R h n) (hcalls : h.calls < 2 ^ 31) :
    Delivery S R h (n.doRecv R).1 := by
  have hlen := hd.accepted_le
  have htake := hd.receiving.foldl_take fun pkt hp => hd.pkts pkt (hd.pktQueue pkt hp)
  obtain ⟨hadv, hle⟩ := htake.advance (by omega)
    (n.pktQueue.foldl (Receiver.take R) n.receiver).readySeq.card
  rw [foldl_take_recvBase] at hle
  have hsend := hd.sending.of_eq (Eq.refl n.sender.currentSeq) rfl rfl hle
  rw [Net.doRecv, Net.sendAck]
  split_ifs with hcond
  · exact ⟨hlen, hsend, hadv, hd.pkts, fun ack ha => (hd.acks ack ha).trans hle, by simp,
      hd.ackQueue⟩
  · refine ⟨hlen, hsend, hadv, hd.pkts, ?_, by simp, ?_⟩
    · intro ack ha
      rcases List.mem_append.mp ha with ha | ha
      · exact (hd.acks ack ha).trans hle
      · rw [List.mem_singleton.mp ha]
    · intro ack ha
      rcases List.mem_append.mp ha with ha | ha
      · exact List.mem_append_left _ (hd.ackQueue ack ha)
      · exact List.mem_append_right _ ha

theorem Delivery.tcpSend (hd : Delivery S R h n) {data : UInt8} {thrown : Option Failure}
    (hcalls : h.calls < 2 ^ 31) (hres : n.tcpSend S data = (n', thrown)) :
    Delivery S R (h.record (.tcpSend data thrown)) n' := by
  rcases tcpSend_cases (S := S) n data with ⟨failure, hthrow⟩ | ⟨hroom, haccept⟩
  · rw [hthrow] at hres
    cases hres
    exact ⟨Nat.le_succ_of_le hd.accepted_le, hd.sending, hd.receiving, hd.pkts, hd.acks,
      hd.pktQueue, hd.ackQueue⟩
  · rw [haccept] at hres
    cases hres
    exact hd.accept hcalls hroom

theorem Delivery.tcpRecv (hd : Delivery S R h n) {res : Option IpPkt}
    (hres : n.tcpRecv = (n', res)) : Delivery S R (h.record (.tcpRecv res)) n' := by
  rw [Net.tcpRecv] at hres
  split at hres
  next hempty =>
    cases hres
    exact hd
  next pkt appBuf hpkt =>
    cases hres
    have hdel := hd.receiving.delivered
    rw [hpkt, List.map_cons] at hdel
    refine ⟨hd.accepted_le, hd.sending, ?_, hd.pkts, hd.acks, hd.pktQueue, hd.ackQueue⟩
    refine ⟨hd.receiving.recvBase_le, hd.receiving.ready, ?_⟩
    rw [History.record, List.append_assoc]
    exact hdel

theorem Delivery.network (hd : Delivery S R h n) {pkts acks : List IpPkt}
    (hpkts : ∀ pkt ∈ pkts, pkt ∈ n.pktCarried) (hacks : ∀ ack ∈ acks, ack ∈ n.ackCarried) :
    Delivery S R h { n with pktQueue := pkts, ackQueue := acks } :=
  ⟨hd.accepted_le, hd.sending, hd.receiving, hd.pkts, hd.acks, hpkts, hacks⟩

theorem Delivery.init (buf tcpBuf : ℕ → IpPkt) :
    Delivery S R ⟨0, [], []⟩ (Net.init buf tcpBuf) := by
  constructor
  · exact le_rfl
  · constructor <;> simp [Net.init]
  · constructor <;> simp [Net.init]
  all_goals simp [Net.init]

theorem ended_eq {β : Type*} [DecidableEq β] {o : Net × β} {result : β}
    (h : ended o result = some n') : o = (n', result) := by
  rw [ended] at h
  split_ifs at h with hr
  exact Prod.ext (Option.some_inj.mp h) hr

theorem calls_le_record : h.calls ≤ (h.record e).calls := by
  unfold History.record
  split <;> simp

theorem Delivery.step (hd : Delivery S R h n) (hcalls : h.calls < 2 ^ 31)
    (hstep : next S R n e = some n') : Delivery S R (h.record e) n' := by
  cases e with
  | tcpSend data thrown => exact hd.tcpSend hcalls (ended_eq hstep)
  | doRecv thrown =>
    rw [next] at hstep
    split_ifs at hstep
    have hrecv := hd.doRecv hcalls
    rw [ended_eq hstep] at hrecv
    exact hrecv
  | handleAck =>
    cases hstep
    exact hd.handleAck
  | handleTimeout thrown => exact hd.handleTimeout hcalls (ended_eq hstep)
  | tcpRecv res => exact hd.tcpRecv (ended_eq hstep)
  | tcpConnect =>
    cases hstep
    exact ⟨hd.accepted_le, hd.sending.of_eq rfl rfl rfl le_rfl,
      ⟨hd.receiving.recvBase_le, hd.receiving.ready, hd.receiving.delivered⟩, hd.pkts, hd.acks,
      hd.pktQueue, hd.ackQueue⟩
  | tick =>
    cases hstep
    exact hd.setSender (hd.sending.of_eq rfl rfl rfl le_rfl)
  | network pkts acks =>
    rw [next] at hstep
    split_ifs at hstep with hcarried
    cases hstep
    exact hd.network hcarried.1 hcarried.2

theorem run_delivery {tr : List Event} (hr : (system S R).Run System.always tr n)
    (hcalls : (hist tr).calls < 2 ^ 31) : Delivery S R (hist tr) n := by
  refine System.run_invariant
    (P := fun tr n => (hist tr).calls < 2 ^ 31 → Delivery S R (hist tr) n) ?_ ?_ hr hcalls
  · intro n hn _
    obtain ⟨buf, tcpBuf, rfl⟩ := hn
    exact .init buf tcpBuf
  · intro tr n e n' _ ih _ hstep hlt
    rw [hist_concat] at hlt ⊢
    have hlt' := calls_le_record.trans_lt hlt
    exact (ih hlt').step hlt' hstep

/-- Whatever the network drops, duplicates, reorders or delays, the bytes `tcp_recv` has
returned and those waiting for it are the first `recv_base` accepted ones, in order. -/
theorem delivered_in_order {tr : List Event} (hr : (system S R).Run System.always tr n)
    (hcalls : (hist tr).calls < 2 ^ 31) :
    (hist tr).returned ++ n.receiver.appBuf.map IpPkt.data =
        (hist tr).accepted.take n.receiver.recvBase ∧
      n.receiver.recvBase ≤ (hist tr).accepted.length := by
  have hd := run_delivery hr hcalls
  exact ⟨hd.receiving.delivered, hd.receiving.recvBase_le⟩

theorem delivered_in_order_sample : ∃ tr n, (system 2 3).Run System.always tr n ∧
    (hist tr).returned ++ n.receiver.appBuf.map IpPkt.data = [7, 8] := by
  have hr : ∃ n, (system 2 3).Run System.always
      [.tcpConnect, .tcpSend 7 none, .tcpSend 8 none, .tcpSend 9 (some senderBufferIsFull),
        .network [⟨8, 1⟩] [], .doRecv none, .network [⟨8, 1⟩, ⟨7, 0⟩] [], .doRecv none,
        .tcpRecv (some ⟨7, 0⟩), .handleAck] n ∧ n.receiver.recvBase = 2 :=
    ⟨_, System.run_of_exec (fun _ _ _ h => h) ⟨fun _ => ⟨0, 0⟩, fun _ => ⟨0, 0⟩, rfl⟩ rfl, rfl⟩
  obtain ⟨n, hr, hbase⟩ := hr
  have hdel := (delivered_in_order hr (by decide)).1
  rw [hbase] at hdel
  exact ⟨_, n, hr, hdel⟩

end ModCpp.Tcp
