import ModCpp.TcpWindows

/-!
# One round without losses repairs the pair

The sender times out, the receiver takes whatever is queued then, and the sender takes the acks.
Old packets in the queue do no harm, and the packets sent again fill every gap of the
receiver's window.
-/

namespace ModCpp.Tcp
variable {S R : ℕ} {h : History} {n n' : Net} {pkt : IpPkt} {accepted returned : List UInt8}
  {r : Receiver}

/-- `handle_timeout`, then `do_recv` unless it would wait, then `handle_ack`. -/
def Net.round (S R : ℕ) (n : Net) : Outcome :=
  (n.handleTimeout S).andThen fun n =>
    (if n.pktQueue = [] then (n, none) else n.doRecv R : Outcome).andThen fun n =>
      (n.handleAck, none)

theorem take_readySeq (r : Receiver) (pkt : IpPkt) : r.readySeq ⊆ (r.take R pkt).readySeq := by
  rw [Receiver.take]
  split_ifs
  · exact Finset.Subset.refl _
  · exact Finset.subset_insert _ _
  · exact Finset.Subset.refl _

theorem foldl_take_readySeq (pkts : List IpPkt) (r : Receiver) :
    r.readySeq ⊆ (pkts.foldl (Receiver.take R) r).readySeq := by
  induction pkts generalizing r with
  | nil => exact Finset.Subset.refl _
  | cons pkt pkts ih => exact (take_readySeq r pkt).trans (ih (r.take R pkt))

theorem ready_of_take (hwrap : r.recvBase + R < 2 ^ 64) (hle : r.recvBase ≤ pkt.seq)
    (hlt : pkt.seq < r.recvBase + R) : pkt.seq ∈ (r.take R pkt).readySeq := by
  rw [Receiver.take, add64_of_lt hwrap, if_neg (by omega), if_pos hle]
  exact Finset.mem_insert_self _ _

theorem ready_of_foldl_take {pkts : List IpPkt} (hp : pkt ∈ pkts)
    (hwrap : r.recvBase + R < 2 ^ 64) (hle : r.recvBase ≤ pkt.seq)
    (hlt : pkt.seq < r.recvBase + R) : pkt.seq ∈ (pkts.foldl (Receiver.take R) r).readySeq := by
  induction pkts generalizing r with
  | nil => simp at hp
  | cons first pkts ih =>
    rcases List.mem_cons.mp hp with rfl | hp
    · exact foldl_take_readySeq pkts _ (ready_of_take hwrap hle hlt)
    · have hbase : (r.take R first).recvBase = r.recvBase := take_recvBase
      exact ih hp (by rw [hbase]; exact hwrap) (by rw [hbase]; exact hle) (by rw [hbase]; exact hlt)

theorem Receiving.ready_lt (hr : Receiving R accepted returned r) {k : ℕ} (hk : k ∈ r.readySeq) :
    k < accepted.length := by
  by_cases hle : r.recvBase ≤ k
  · obtain ⟨_, hseq, hg⟩ := hr.ready k hk hle
    rw [Genuine, hseq] at hg
    exact (List.getElem?_eq_some_iff.mp hg).1
  · have := hr.recvBase_le
    omega

theorem Receiving.card_readySeq (hr : Receiving R accepted returned r) :
    r.readySeq.card ≤ accepted.length := by
  have hsub : r.readySeq ⊆ Finset.range accepted.length := by
    intro k hk
    exact Finset.mem_range.mpr (hr.ready_lt hk)
  simpa using Finset.card_le_card hsub

theorem Delivery.received_recvBase (hd : Delivery S R h n) (hcalls : h.calls < 2 ^ 31)
    (hR : 16 * R < 2 ^ 64) (hqueue : ∀ k, n.receiver.recvBase ≤ k → k < h.accepted.length →
      ∃ pkt ∈ n.pktQueue, pkt.seq = k) :
    min h.accepted.length (n.receiver.recvBase + R) ≤ (n.received R).recvBase := by
  have hlen := hd.accepted_le
  have hbase := hd.receiving.recvBase_le
  have htake := hd.receiving.foldl_take fun pkt hp => hd.pkts pkt (hd.pktQueue pkt hp)
  have hcard := htake.card_readySeq
  obtain ⟨_, hle⟩ := htake.advance (by omega)
    (n.pktQueue.foldl (Receiver.take R) n.receiver).readySeq.card
  rw [foldl_take_recvBase] at hle
  have hdone : (n.received R).recvBase ∉
      (n.pktQueue.foldl (Receiver.take R) n.receiver).readySeq := by
    apply advance_card_done
    rw [foldl_take_recvBase]
    omega
  change n.receiver.recvBase ≤ (n.received R).recvBase at hle
  by_contra hshort
  apply hdone
  obtain ⟨pkt, hp, hseq⟩ := hqueue _ hle (by omega)
  rw [← hseq]
  exact ready_of_foldl_take hp (by omega) (by omega) (by omega)

theorem base_le_foldl_max (acks : List IpPkt) (base : ℕ) :
    base ≤ acks.foldl (fun base (ack : IpPkt) => max base ack.seq) base := by
  induction acks generalizing base with
  | nil => exact le_rfl
  | cons ack acks ih => exact (le_max_left _ _).trans (ih (max base ack.seq))

theorem le_foldl_max {acks : List IpPkt} {base : ℕ} {ack : IpPkt} (ha : ack ∈ acks) :
    ack.seq ≤ acks.foldl (fun base (ack : IpPkt) => max base ack.seq) base := by
  induction acks generalizing base with
  | nil => simp at ha
  | cons first acks ih =>
    rcases List.mem_cons.mp ha with rfl | ha
    · exact (le_max_right _ _).trans (base_le_foldl_max acks (max base ack.seq))
    · exact ih ha

theorem Delivery.handleAck_sendBase (hd : Delivery S R h n)
    (hack : n.sender.sendBase = n.receiver.recvBase ∨
      ∃ ack ∈ n.ackQueue, ack.seq = n.receiver.recvBase) :
    n.handleAck.sender.sendBase = n.receiver.recvBase := by
  obtain ⟨_, hle⟩ := foldl_max_le hd.sending.sendBase_le
    fun ack ha => hd.acks ack (hd.ackQueue ack ha)
  refine le_antisymm hle ?_
  rcases hack with hbase | ⟨ack, ha, hseq⟩
  · exact hbase.ge.trans (base_le_foldl_max n.ackQueue n.sender.sendBase)
  · exact hseq.ge.trans (le_foldl_max ha)

theorem Delivery.afterTimeout (hd : Delivery S R h n) (hl : Linked h n)
    (hcalls : h.calls < 2 ^ 31) :
    Delivery S R h (n.carry (n.sender.resent S n.sender.sendBase)).resetTimer ∧
      Linked h (n.carry (n.sender.resent S n.sender.sendBase)).resetTimer := by
  refine ⟨hd.handleTimeout hcalls (hd.timeout_eq hl hcalls), ?_⟩
  exact hl.of_eq (fun _ hp => List.mem_append_left _ hp) rfl rfl

theorem Delivery.mem_resent (hd : Delivery S R h n) {k : ℕ} (hbase : n.sender.sendBase ≤ k)
    (hk : k < h.accepted.length) :
    ∃ pkt ∈ n.sender.resent S n.sender.sendBase, pkt.seq = k := by
  have hseq := hd.sending.currentSeq
  obtain ⟨hslot, _⟩ := hd.sending.slot k hbase hk
  refine ⟨n.sender.buf (k % S), ?_, hslot⟩
  refine List.mem_map.mpr ⟨k, ?_, rfl⟩
  rw [List.mem_range'_1]
  omega

theorem round_idle (hd : Delivery S R h n) (hl : Linked h n) (hcalls : h.calls < 2 ^ 31)
    (hqueue : n.pktQueue = []) (hnone : n.sender.sendBase = n.sender.currentSeq) :
    ∃ n', n.round S R = (n', none) ∧ Delivery S R h n' ∧
      n'.receiver.recvBase = n.sender.currentSeq ∧ n'.sender.sendBase = n.sender.currentSeq := by
  have hseq := hd.sending.currentSeq
  have hle := hd.sending.sendBase_le
  have hle' := hd.receiving.recvBase_le
  have hempty : n.sender.resent S n.sender.sendBase = [] := by simp [Sender.resent, hnone]
  obtain ⟨hd', _⟩ := hd.afterTimeout hl hcalls
  rw [hempty] at hd'
  refine ⟨(n.carry []).resetTimer.handleAck, ?_, hd'.handleAck, ?_, ?_⟩
  · rw [Net.round, hd.timeout_eq hl hcalls, hempty]
    simp [Outcome.andThen, Net.carry, Net.resetTimer, hqueue]
  · exact (show n.receiver.recvBase = n.sender.currentSeq by omega)
  · rw [hd'.handleAck_sendBase (.inl ?_)]
    · exact (show n.receiver.recvBase = n.sender.currentSeq by omega)
    · exact (show n.sender.sendBase = n.receiver.recvBase by omega)

theorem round_busy (hd : Delivery S R h n) (hl : Linked h n) (hcalls : h.calls < 2 ^ 31)
    (hR : 16 * R < 2 ^ 64)
    (hbusy : n.pktQueue ++ n.sender.resent S n.sender.sendBase ≠ []) :
    ∃ n', n.round S R = (n', none) ∧ Delivery S R h n' ∧
      min n.sender.currentSeq (n.receiver.recvBase + R) ≤ n'.receiver.recvBase ∧
      n'.sender.sendBase = n'.receiver.recvBase := by
  obtain ⟨hd', hl'⟩ := hd.afterTimeout hl hcalls
  generalize hm : (n.carry (n.sender.resent S n.sender.sendBase)).resetTimer = m at *
  have hqueue : m.pktQueue = n.pktQueue ++ n.sender.resent S n.sender.sendBase := by
    rw [← hm]
    rfl
  have hbase : m.receiver.recvBase = n.receiver.recvBase := by
    rw [← hm]
    rfl
  have hconn : m.receiver.sendCond = true := by
    rw [hl'.conds]
    apply hl'.connected
    intro hnone
    obtain ⟨pkt, hp⟩ := List.exists_mem_of_ne_nil _ (hqueue ▸ hbusy)
    have hg := hd'.pkts pkt (hd'.pktQueue pkt hp)
    rw [Genuine, hnone] at hg
    simp at hg
  have hdeliver := hd'.received_recvBase hcalls hR ?_
  · have hrecv := hd'.doRecv hcalls
    rw [doRecv_eq hconn] at hrecv
    refine ⟨_, ?_, hrecv.handleAck, ?_, ?_⟩
    · rw [Net.round, hd.timeout_eq hl hcalls, hm]
      simp only [Outcome.andThen, hqueue, if_neg hbusy]
      rw [doRecv_eq hconn]
    · rw [hd.sending.currentSeq, ← hbase]
      exact hdeliver
    · refine hrecv.handleAck_sendBase (.inr ⟨⟨0, (m.received R).recvBase⟩, ?_, rfl⟩)
      simp
  · intro k hk hlt
    rw [hbase] at hk
    obtain ⟨pkt, hp, hseq⟩ := hd.mem_resent (hd.sending.sendBase_le.trans hk) hlt
    refine ⟨pkt, ?_, hseq⟩
    rw [hqueue]
    exact List.mem_append_right _ hp

/-- From any reachable state one loss-free round moves the receiver on by its window, or to
the end, and the sender with it. -/
theorem round_recovers (hR : 16 * R < 2 ^ 64) {tr : List Event}
    (hr : (system S R).Run System.always tr n) (hcalls : (hist tr).calls < 2 ^ 31) :
    ∃ n', n.round S R = (n', none) ∧
      min n.sender.currentSeq (n.receiver.recvBase + R) ≤ n'.receiver.recvBase ∧
      n'.sender.sendBase = n'.receiver.recvBase ∧
      (S ≤ R → n'.sender.sendBase = n.sender.currentSeq ∧
        (hist tr).returned ++ n'.receiver.appBuf.map IpPkt.data = (hist tr).accepted) := by
  obtain ⟨hd, hl⟩ := run_linked hr hcalls
  have hseq := hd.sending.currentSeq
  have hround : ∃ n', n.round S R = (n', none) ∧ Delivery S R (hist tr) n' ∧
      min n.sender.currentSeq (n.receiver.recvBase + R) ≤ n'.receiver.recvBase ∧
      n'.sender.sendBase = n'.receiver.recvBase := by
    by_cases hbusy : n.pktQueue ++ n.sender.resent S n.sender.sendBase = []
    · obtain ⟨hqueue, hnone⟩ := List.append_eq_nil_iff.mp hbusy
      have hle := hd.sending.sendBase_le
      have hle' := hd.receiving.recvBase_le
      have hall : n.sender.sendBase = n.sender.currentSeq := by
        simp only [Sender.resent, List.map_eq_nil_iff, List.range'_eq_nil_iff] at hnone
        omega
      obtain ⟨n', hr', hd', hrecv, hsend⟩ := round_idle hd hl hcalls hqueue hall
      refine ⟨n', hr', hd', ?_, ?_⟩
      · rw [hrecv]
        exact min_le_left _ _
      · rw [hrecv, hsend]
    · exact round_busy hd hl hcalls hR hbusy
  obtain ⟨n', hr', hd', hmin, hbase⟩ := hround
  refine ⟨n', hr', hmin, hbase, ?_⟩
  intro hSR
  have hwin := hd.sending.window
  have hle := hd.sending.sendBase_le
  have hle' := hd'.receiving.recvBase_le
  have hall : n'.receiver.recvBase = (hist tr).accepted.length := by
    rw [hseq] at hmin
    have hwindow : (hist tr).accepted.length ≤ n.receiver.recvBase + R := by omega
    rw [min_eq_left hwindow] at hmin
    exact le_antisymm hle' hmin
  refine ⟨by rw [hbase, hall, hseq], ?_⟩
  rw [hd'.receiving.delivered, hall, List.take_length]

theorem round_recovers_sample : ∃ tr n n', (system 2 3).Run System.always tr n ∧
    n.pktQueue = [⟨8, 1⟩] ∧ n.receiver.recvBase = 0 ∧ n.round 2 3 = (n', none) ∧
    n'.receiver.recvBase = 2 ∧ n'.receiver.appBuf.map IpPkt.data = [7, 8] := by
  have hr : ∃ n, (system 2 3).Run System.always
      [.tcpConnect, .tcpSend 7 none, .tcpSend 8 none, .network [⟨8, 1⟩] []] n ∧
        n.pktQueue = [⟨8, 1⟩] ∧ n.receiver.recvBase = 0 ∧ n.sender.currentSeq = 2 :=
    ⟨_, System.run_of_exec (fun _ _ _ h => h) ⟨fun _ => ⟨0, 0⟩, fun _ => ⟨0, 0⟩, rfl⟩ rfl, rfl,
      rfl, rfl⟩
  obtain ⟨n, hr, hqueue, hbase, hseq⟩ := hr
  obtain ⟨n', hround, _, hsend, hall⟩ := round_recovers (by decide) hr (by decide)
  obtain ⟨hlast, hdata⟩ := hall (by decide)
  exact ⟨_, n, n', hr, hqueue, hbase, hround, by rw [← hsend, hlast, hseq], hdata⟩

end ModCpp.Tcp
