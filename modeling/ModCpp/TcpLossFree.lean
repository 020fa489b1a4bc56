import ModCpp.TcpRecovery
import ModCpp.TcpTimeout

/-!
# The TCP pair while nothing is lost

Loss-free rounds bring the receiver on by its window each, until all is delivered. Where the
network loses nothing from the start and the sender's window fits in the receiver's, all that is
missing is on one of the queues, and no packet is ever needed twice.
-/

namespace ModCpp.Tcp
variable {S R : ℕ} {h : History} {n n' : Net} {e : Event} {tr : List Event}

section rounds

def Net.rounds (S R : ℕ) : ℕ → Net → Outcome
  | 0, n => (n, none)
  | k + 1, n => (n.round S R).andThen (Net.rounds S R k)

def Net.reads : ℕ → Net → List (Option IpPkt)
  | 0, _ => []
  | k + 1, n => n.tcpRecv.2 :: n.tcpRecv.1.reads k

theorem reads_eq (k : ℕ) (n : Net) : n.reads k =
    (n.receiver.appBuf.take k).map some ++ List.replicate (k - n.receiver.appBuf.length) none := by
  induction k generalizing n with
  | zero => simp [Net.reads]
  | succ k ih =>
    rw [Net.reads, ih, Net.tcpRecv]
    split
    next hempty => simp [hempty, List.replicate_succ]
    next res appBuf hres => simp [hres]

theorem Linked.handleAck (hl : Linked h n) : Linked h n.handleAck :=
  hl.of_eq (fun _ hp => hp) rfl rfl

theorem Linked.doRecv (hl : Linked h n) : Linked h (n.doRecv R).1 := by
  obtain ⟨hcond, hsender, hcarried⟩ := doRecv_conds (n := n) (R := R)
  refine hl.of_eq ?_ (by rw [hsender]) hcond
  rw [hcarried]
  exact fun _ hp => hp

theorem Linked.round (hl : Linked h n) (hd : Delivery S R h n) (hcalls : h.calls < 2 ^ 31)
    (hround : n.round S R = (n', none)) : Linked h n' := by
  obtain ⟨_, hl'⟩ := hd.afterTimeout hl hcalls
  rw [Net.round, hd.timeout_eq hl hcalls] at hround
  obtain ⟨m, htimeout, hrest⟩ := andThen_returns hround
  cases htimeout
  obtain ⟨m, hrecv, hack⟩ := andThen_returns hrest
  cases hack
  apply Linked.handleAck
  split_ifs at hrecv
  · cases hrecv
    exact hl'
  · have hl'' := hl'.doRecv (R := R)
    rwa [hrecv] at hl''

theorem Delivery.round (hd : Delivery S R h n) (hl : Linked h n) (hcalls : h.calls < 2 ^ 31)
    (hR : 16 * R < 2 ^ 64) : ∃ n', n.round S R = (n', none) ∧ Delivery S R h n' ∧ Linked h n' ∧
      min h.accepted.length (n.receiver.recvBase + R) ≤ n'.receiver.recvBase ∧
      n'.sender.sendBase = n'.receiver.recvBase := by
  have hseq := hd.sending.currentSeq
  by_cases hbusy : n.pktQueue ++ n.sender.resent S n.sender.sendBase = []
  · obtain ⟨hqueue, hnone⟩ := List.append_eq_nil_iff.mp hbusy
    have hle := hd.sending.sendBase_le
    have hle' := hd.receiving.recvBase_le
    have hall : n.sender.sendBase = n.sender.currentSeq := by
      simp only [Sender.resent, List.map_eq_nil_iff, List.range'_eq_nil_iff] at hnone
      omega
    obtain ⟨n', hround, hd', hrecv, hsend⟩ := round_idle hd hl hcalls hqueue hall
    refine ⟨n', hround, hd', hl.round hd hcalls hround, ?_, hsend.trans hrecv.symm⟩
    rw [hrecv, hseq]
    exact min_le_left _ _
  · obtain ⟨n', hround, hd', hmin, hsend⟩ := round_busy hd hl hcalls hR hbusy
    rw [hseq] at hmin
    exact ⟨n', hround, hd', hl.round hd hcalls hround, hmin, hsend⟩

theorem Delivery.rounds (hd : Delivery S R h n) (hl : Linked h n) (hcalls : h.calls < 2 ^ 31)
    (hR : 16 * R < 2 ^ 64) (k : ℕ) : ∃ n', n.rounds S R k = (n', none) ∧ Delivery S R h n' ∧
      min h.accepted.length (n.receiver.recvBase + k * R) ≤ n'.receiver.recvBase ∧
      (0 < k → n'.sender.sendBase = n'.receiver.recvBase) := by
  induction k generalizing n with
  | zero =>
    refine ⟨n, rfl, hd, ?_, fun hk => absurd hk (lt_irrefl 0)⟩
    rw [Nat.zero_mul]
    exact min_le_right _ _
  | succ k ih =>
    obtain ⟨n₁, hround, hd₁, hl₁, hmin, hsend⟩ := hd.round hl hcalls hR
    obtain ⟨n', hrounds, hd', hmin', hsend'⟩ := ih hd₁ hl₁
    refine ⟨n', ?_, hd', ?_, fun _ => ?_⟩
    · rw [Net.rounds, hround]
      exact hrounds
    · have hbound : min h.accepted.length (n.receiver.recvBase + (k + 1) * R) ≤
          min h.accepted.length (n₁.receiver.recvBase + k * R) := by
        rw [Nat.succ_mul]
        omega
      exact hbound.trans hmin'
    · rcases Nat.eq_zero_or_pos k with rfl | hk
      · cases hrounds
        exact hsend
      · exact hsend' hk

/-- Whatever was lost before, `k` loss-free rounds deliver `k` windows or all there is. When this
is all there is, all is acknowledged too, and `tcp_recv` returns the bytes it has not returned yet,
in order, and then nothing. -/
theorem rounds_deliver (hR : 16 * R < 2 ^ 64) (hr : (system S R).Run System.always tr n)
    (hcalls : (hist tr).calls < 2 ^ 31) (k : ℕ) :
    ∃ n', n.rounds S R k = (n', none) ∧
      min (hist tr).accepted.length (n.receiver.recvBase + k * R) ≤ n'.receiver.recvBase ∧
      (0 < k → (hist tr).accepted.length ≤ n.receiver.recvBase + k * R →
        n'.sender.sendBase = n'.sender.currentSeq ∧
        ∀ calls, (n'.reads calls).map (Option.map IpPkt.data) =
          (((hist tr).accepted.drop (hist tr).returned.length).take calls).map some ++
            List.replicate (calls - ((hist tr).accepted.length - (hist tr).returned.length))
              none) := by
  obtain ⟨hd, hl⟩ := run_linked hr hcalls
  obtain ⟨n', hrounds, hd', hmin, hsend⟩ := hd.rounds hl hcalls hR k
  refine ⟨n', hrounds, hmin, ?_⟩
  intro hk hall
  rw [min_eq_left hall] at hmin
  have hlast : n'.receiver.recvBase = (hist tr).accepted.length :=
    le_antisymm hd'.receiving.recvBase_le hmin
  refine ⟨by rw [hsend hk, hlast, hd'.sending.currentSeq], fun calls => ?_⟩
  have hdel := hd'.receiving.delivered
  rw [hlast, List.take_length] at hdel
  have hleft : (hist tr).accepted.drop (hist tr).returned.length =
      n'.receiver.appBuf.map IpPkt.data := by rw [← hdel, List.drop_left]
  have hlen : (hist tr).accepted.length - (hist tr).returned.length =
      n'.receiver.appBuf.length := by
    rw [← hdel, List.length_append, List.length_map, Nat.add_sub_cancel_left]
  rw [hleft, hlen, reads_eq]
  simp [List.map_take]

/-- A window of one byte: three bytes take three rounds, the first packets of two being lost. -/
theorem rounds_deliver_sample : ∃ tr n n', (system 3 1).Run System.always tr n ∧
    n.rounds 3 1 3 = (n', none) ∧ n'.sender.sendBase = n'.sender.currentSeq ∧
    (n'.reads 4).map (Option.map IpPkt.data) = [some 7, some 8, some 9, none] := by
  have hr : ∃ n, (system 3 1).Run System.always
      [.tcpConnect, .tcpSend 7 none, .tcpSend 8 none, .network [] [], .tcpSend 9 none] n ∧
        n.receiver.recvBase = 0 :=
    ⟨_, System.run_of_exec (fun _ _ _ h => h) ⟨fun _ => ⟨0, 0⟩, fun _ => ⟨0, 0⟩, rfl⟩ rfl, rfl⟩
  obtain ⟨n, hr, hbase⟩ := hr
  obtain ⟨n', hrounds, _, hall⟩ := rounds_deliver (by decide) hr (by decide) 3
  obtain ⟨hacked, hreads⟩ := hall (by decide) (by rw [hbase]; decide)
  exact ⟨_, n, n', hr, hrounds, hacked, hreads 4⟩

end rounds

section lossless

/-- The network leaves the queues alone. -/
def Event.Lossless : Event → Prop
  | .network _ _ => False
  | .tcpSend _ _ | .doRecv _ | .handleAck | .handleTimeout _ | .tcpRecv _ | .tcpConnect | .tick =>
    True

instance : DecidablePred Event.Lossless
  | .network _ _ => inferInstanceAs (Decidable False)
  | .tcpSend _ _ | .doRecv _ | .handleAck | .handleTimeout _ | .tcpRecv _ | .tcpConnect | .tick =>
    inferInstanceAs (Decidable True)

/-- What is not delivered is queued, and so is the ack of what is delivered. -/
structure Queued (h : History) (n : Net) : Prop where
  pkts : ∀ k, n.receiver.recvBase ≤ k → k < h.accepted.length → ∃ pkt ∈ n.pktQueue, pkt.seq = k
  ack : n.sender.sendBase = n.receiver.recvBase ∨
    ∃ ack ∈ n.ackQueue, ack.seq = n.receiver.recvBase

theorem Queued.of_eq (hq : Queued h n) (haccepted : (h.record e).accepted = h.accepted)
    (hpkts : ∀ pkt ∈ n.pktQueue, pkt ∈ n'.pktQueue) (hacks : n'.ackQueue = n.ackQueue)
    (hsend : n'.sender.sendBase = n.sender.sendBase)
    (hrecv : n'.receiver.recvBase = n.receiver.recvBase) : Queued (h.record e) n' := by
  constructor
  · intro k hk hlt
    rw [haccepted] at hlt
    obtain ⟨pkt, hp, hseq⟩ := hq.pkts k (hrecv ▸ hk) hlt
    exact ⟨pkt, hpkts pkt hp, hseq⟩
  · rw [hsend, hrecv, hacks]
    exact hq.ack

theorem Queued.accept (hq : Queued h n) (hd : Delivery S R h n) (data : UInt8) :
    Queued (h.record (.tcpSend data none)) (n.accept S data) := by
  refine ⟨fun k hk hlt => ?_, hq.ack⟩
  simp only [History.record, List.length_append, List.length_singleton] at hlt
  by_cases hlast : k = h.accepted.length
  · refine ⟨⟨data, n.sender.currentSeq⟩, List.mem_append_right _ (List.mem_singleton_self _), ?_⟩
    exact hd.sending.currentSeq.trans hlast.symm
  · obtain ⟨pkt, hp, hseq⟩ := hq.pkts k hk (by omega)
    exact ⟨pkt, List.mem_append_left _ hp, hseq⟩

theorem Delivery.connected (hd : Delivery S R h n) (hl : Linked h n) (hqueue : n.pktQueue ≠ []) :
    n.receiver.sendCond = true := by
  rw [hl.conds]
  apply hl.connected
  intro hnone
  obtain ⟨pkt, hp⟩ := List.exists_mem_of_ne_nil _ hqueue
  have hg := hd.pkts pkt (hd.pktQueue pkt hp)
  rw [Genuine, hnone] at hg
  simp at hg

theorem Queued.received (hq : Queued h n) (hd : Delivery S R h n) (hl : Linked h n)
    (hcalls : h.calls < 2 ^ 31) (hR : 16 * R < 2 ^ 64) (hSR : S ≤ R) (hqueue : n.pktQueue ≠ []) :
    (n.doRecv R).2 = none ∧ (n.doRecv R).1.receiver.recvBase = h.accepted.length ∧
      ∃ ack ∈ (n.doRecv R).1.ackQueue, ack.seq = h.accepted.length := by
  have hwin := hd.sending.window
  have hle := hd.sending.sendBase_le
  have hmin := hd.received_recvBase hcalls hR hq.pkts
  have hrecv := hd.doRecv hcalls
  rw [doRecv_eq (hd.connected hl hqueue)] at hrecv ⊢
  have hmax := hrecv.receiving.recvBase_le
  have hall : (n.received R).recvBase = h.accepted.length := by
    simp only at hmax
    omega
  refine ⟨rfl, hall, ⟨0, (n.received R).recvBase⟩, ?_, hall⟩
  exact List.mem_append_right _ (List.mem_singleton_self _)

theorem Queued.step (hq : Queued h n) (hd : Delivery S R h n) (hl : Linked h n)
    (hcalls : h.calls < 2 ^ 31) (hR : 16 * R < 2 ^ 64) (hSR : S ≤ R) (he : e.Lossless)
    (hstep : next S R n e = some n') : Queued (h.record e) n' := by
  cases e with
  | tcpSend data thrown =>
    have hres := ended_eq hstep
    rcases tcpSend_cases (S := S) n data with ⟨failure, hthrow⟩ | ⟨_, haccept⟩
    · rw [hthrow] at hres
      cases hres
      exact hq.of_eq rfl (fun _ hp => hp) rfl rfl rfl
    · rw [haccept] at hres
      cases hres
      exact hq.accept hd data
  | doRecv thrown =>
    rw [next] at hstep
    split_ifs at hstep with hempty
    obtain ⟨_, hall, hack⟩ := hq.received hd hl hcalls hR hSR hempty
    rw [ended_eq hstep] at hall hack
    simp only at hall hack
    refine ⟨fun k hk hlt => ?_, .inr ?_⟩
    · simp only [History.record] at hlt
      omega
    · rwa [hall]
  | handleAck =>
    cases hstep
    exact ⟨hq.pkts, .inl (hd.handleAck_sendBase hq.ack)⟩
  | handleTimeout thrown =>
    have hres := ended_eq hstep
    rw [hd.timeout_eq hl hcalls] at hres
    cases hres
    exact hq.of_eq rfl (fun _ hp => List.mem_append_left _ hp) rfl rfl rfl
  | tcpRecv res =>
    have hres := ended_eq hstep
    have haccepted : (h.record (.tcpRecv res)).accepted = h.accepted := by cases res <;> rfl
    rw [Net.tcpRecv] at hres
    split at hres
    all_goals
      cases hres
      exact hq.of_eq haccepted (fun _ hp => hp) rfl rfl rfl
  | tcpConnect =>
    cases hstep
    exact hq.of_eq rfl (fun _ hp => hp) rfl rfl rfl
  | tick =>
    cases hstep
    exact hq.of_eq rfl (fun _ hp => hp) rfl rfl rfl
  | network pkts acks => exact absurd he id

theorem run_queued (hR : 16 * R < 2 ^ 64) (hSR : S ≤ R)
    (hr : (system S R).Run (fun _ e => e.Lossless) tr n) (hcalls : (hist tr).calls < 2 ^ 31) :
    Delivery S R (hist tr) n ∧ Linked (hist tr) n ∧ Queued (hist tr) n := by
  refine System.run_invariant (P := fun tr n => (hist tr).calls < 2 ^ 31 →
    Delivery S R (hist tr) n ∧ Linked (hist tr) n ∧ Queued (hist tr) n) ?_ ?_ hr hcalls
  · intro n hn _
    obtain ⟨buf, tcpBuf, rfl⟩ := hn
    refine ⟨.init buf tcpBuf, .init buf tcpBuf, ?_, .inl rfl⟩
    intro k _ hlt
    simp at hlt
  · intro tr n e n' _ ih he hstep hlt
    rw [hist_concat] at hlt ⊢
    have hlt' := calls_le_record.trans_lt hlt
    obtain ⟨hd, hl, hq⟩ := ih hlt'
    exact ⟨hd.step hlt' hstep, hl.step hd hlt' hstep, hq.step hd hl hlt' hR hSR he hstep⟩

/-- While the network loses nothing, each `do_recv` delivers all that was accepted, and once the
queues are empty nothing is left for `handle_timeout` to send. -/
theorem lossless_delivers (hR : 16 * R < 2 ^ 64) (hSR : S ≤ R)
    (hr : (system S R).Run (fun _ e => e.Lossless) tr n) (hcalls : (hist tr).calls < 2 ^ 31) :
    (n.pktQueue ≠ [] → (n.doRecv R).2 = none ∧
      (hist tr).returned ++ (n.doRecv R).1.receiver.appBuf.map IpPkt.data =
        (hist tr).accepted) ∧
      (n.pktQueue = [] → (hist tr).returned ++ n.receiver.appBuf.map IpPkt.data =
        (hist tr).accepted) ∧
      (n.pktQueue = [] → n.ackQueue = [] →
        n.sender.sendBase = n.sender.currentSeq ∧ n.handleTimeout S = (n.resetTimer, none)) := by
  obtain ⟨hd, hl, hq⟩ := run_queued hR hSR hr hcalls
  have hle := hd.receiving.recvBase_le
  have hall : n.pktQueue = [] → n.receiver.recvBase = (hist tr).accepted.length := by
    intro hempty
    by_contra hne
    obtain ⟨pkt, hp, -⟩ := hq.pkts n.receiver.recvBase le_rfl (by omega)
    simp [hempty] at hp
  refine ⟨fun hqueue => ?_, fun hempty => ?_, fun hempty hnoacks => ?_⟩
  · obtain ⟨hends, hlast, -⟩ := hq.received hd hl hcalls hR hSR hqueue
    have hdel := (hd.doRecv hcalls).receiving.delivered
    rw [hlast, List.take_length] at hdel
    exact ⟨hends, hdel⟩
  · have hdel := hd.receiving.delivered
    rwa [hall hempty, List.take_length] at hdel
  · have hacked : n.sender.sendBase = n.receiver.recvBase := by
      rcases hq.ack with hbase | ⟨ack, ha, -⟩
      · exact hbase
      · simp [hnoacks] at ha
    have hbase : n.sender.sendBase = n.sender.currentSeq := by
      rw [hacked, hall hempty, hd.sending.currentSeq]
    refine ⟨hbase, ?_⟩
    have hnone : n.sender.resent S n.sender.sendBase = [] := by simp [Sender.resent, hbase]
    rw [hd.timeout_eq hl hcalls, hnone]
    simp [Net.carry]

theorem lossless_delivers_sample : ∃ tr n, (system 2 2).Run (fun _ e => e.Lossless) tr n ∧
    n.pktQueue = [⟨9, 2⟩] ∧ (n.doRecv 2).2 = none ∧
    (n.doRecv 2).1.receiver.appBuf.map IpPkt.data = [8, 9] := by
  have hr : ∃ n, (system 2 2).Run (fun _ e => e.Lossless)
      [.tcpConnect, .tcpSend 7 none, .tcpSend 8 none, .doRecv none, .tcpRecv (some ⟨7, 0⟩),
        .handleAck, .tcpSend 9 none] n ∧ n.pktQueue = [⟨9, 2⟩] :=
    ⟨_, System.run_of_exec (fun _ _ _ h => h) ⟨fun _ => ⟨0, 0⟩, fun _ => ⟨0, 0⟩, rfl⟩ rfl, rfl⟩
  obtain ⟨n, hr, hqueue⟩ := hr
  obtain ⟨hends, hdel⟩ := (lossless_delivers (by decide) le_rfl hr (by decide)).1
    (by rw [hqueue]; decide)
  exact ⟨_, n, hr, hqueue, hends, List.append_cancel_left hdel⟩

end lossless

end ModCpp.Tcp
