import ModCpp.Progress
import ModCpp.TcpLossFree
import ModCpp.TcpPair

/-!
# What a pair carries in its life

The receiver's thread runs `do_recv` once, so what it finds queued then is all that the pair ever
delivers, and the sender's window closes for good one window behind it.
-/

namespace ModCpp.Tcp
variable {S R : ℕ} {h : History} {n : Net} {p p' : Pair} {a : Action} {tr rest : List Action}

theorem advance_le {r : Receiver} {M : ℕ} (rounds : ℕ) (hready : ∀ k ∈ r.readySeq, k < M)
    (hle : r.recvBase ≤ M) : (r.advance R rounds).recvBase ≤ M := by
  induction rounds generalizing r with
  | zero => exact hle
  | succ rounds ih =>
    rw [Receiver.advance]
    split_ifs with hin
    · have hnext : add64 r.recvBase 1 ≤ r.recvBase + 1 := Nat.mod_le _ _
      apply ih
      · exact hready
      · exact hnext.trans (hready _ hin)
    · exact hle

theorem Queued.first_received (hq : Queued h n) (hd : Delivery S R h n) (hcalls : h.calls < 2 ^ 31)
    (hR : 16 * R < 2 ^ 64) (hbase : n.receiver.recvBase = 0) :
    (n.received R).recvBase = min n.sender.currentSeq R := by
  have hmin := hd.received_recvBase hcalls hR hq.pkts
  have htake := hd.receiving.foldl_take fun pkt hp => hd.pkts pkt (hd.pktQueue pkt hp)
  rw [hbase, Nat.zero_add, ← hd.sending.currentSeq] at hmin
  refine le_antisymm (le_min ?_ ?_) hmin
  · rw [hd.sending.currentSeq]
    have hlen := hd.accepted_le
    exact (htake.advance (by omega) _).1.recvBase_le
  · apply advance_le
    · intro k hk
      have hwin := htake.ready k hk (by rw [foldl_take_recvBase, hbase]; exact Nat.zero_le k)
      rw [foldl_take_recvBase, hbase, Nat.zero_add] at hwin
      exact hwin.1
    · rw [foldl_take_recvBase, hbase]
      exact Nat.zero_le R

theorem andThen_receiver {o : Outcome} {f : Net → Outcome} {r : Receiver} (ho : o.1.receiver = r)
    (hf : ∀ m : Net, m.receiver = r → (f m).1.receiver = r) : (o.andThen f).1.receiver = r := by
  obtain ⟨m, result⟩ := o
  cases result with
  | some failure => exact ho
  | none => exact hf m ho

theorem resendAt_receiver (i : ℤ) : (n.resendAt S i).1.receiver = n.receiver := by
  rw [Net.resendAt]
  split_ifs <;> rfl

theorem resend_receiver (room : ℕ) {i : ℤ} (hroom : (intMax - i).toNat ≤ room) :
    (n.resend S i).1.receiver = n.receiver := by
  induction room generalizing n i with
  | zero =>
    rw [Net.resend]
    by_cases hlt : toUint64 i < n.sender.currentSeq
    · rw [if_pos hlt]
      apply andThen_receiver (resendAt_receiver i)
      intro m hm
      rwa [if_neg (by omega)]
    · rw [if_neg hlt]
  | succ room ih =>
    rw [Net.resend]
    by_cases hlt : toUint64 i < n.sender.currentSeq
    · rw [if_pos hlt]
      apply andThen_receiver (resendAt_receiver i)
      intro m hm
      split_ifs
      · rwa [ih (by omega)]
      · exact hm
    · rw [if_neg hlt]

theorem handleTimeout_receiver : (n.handleTimeout S).1.receiver = n.receiver :=
  andThen_receiver (resend_receiver _ le_rfl) fun _ hm => hm

/-- Before the receiver's thread has run nothing is delivered or acknowledged and all is queued;
from then on no more is delivered. -/
structure Once (S R : ℕ) (p : Pair) : Prop where
  base : p.recverTerminated = false → p.net.receiver.recvBase = 0
  acks : p.recverTerminated = false → p.net.ackQueue = []
  pkts : p.recverTerminated = false →
    ∀ k < p.net.sender.currentSeq, ∃ pkt ∈ p.net.pktQueue, pkt.seq = k
  recvBase_le : p.net.receiver.recvBase ≤ min S R

theorem Once.queued (ho : Once S R p) (hd : Delivery S R h p.net)
    (hfirst : p.recverTerminated = false) : Queued h p.net := by
  have hle := hd.sending.sendBase_le
  have hbase := ho.base hfirst
  refine ⟨fun k _ hlt => ho.pkts hfirst k ?_, .inl (by omega)⟩
  rwa [hd.sending.currentSeq]

theorem Once.recver (ho : Once S R p) (hd : Delivery S R h p.net) (hl : Linked h p.net)
    (hcalls : h.calls < 2 ^ 31) (hR : 16 * R < 2 ^ 64)
    (hstep : p.next S R .recver = some p') : p'.recverTerminated = true ∧
      p.net.sender.currentSeq ≤ S ∧
      p'.net.receiver.recvBase = min p.net.sender.currentSeq R := by
  rw [Pair.next] at hstep
  split_ifs at hstep with hwait
  rw [not_or] at hwait
  obtain ⟨net, hnet, rfl⟩ := Option.map_eq_some_iff.mp hstep
  have hfirst := Bool.eq_false_of_not_eq_true hwait.1
  have hres := ended_eq hnet
  rw [doRecv_eq (hd.connected hl hwait.2)] at hres
  cases hres
  have hbase := ho.base hfirst
  refine ⟨rfl, ?_, (ho.queued hd hfirst).first_received hd hcalls hR hbase⟩
  have hwin := hd.sending.window
  have hle := hd.sending.sendBase_le
  rw [hd.sending.currentSeq]
  omega

theorem Once.step (ho : Once S R p) (hd : Delivery S R h p.net) (hl : Linked h p.net)
    (hcalls : h.calls < 2 ^ 31) (hR : 16 * R < 2 ^ 64) (hstep : p.next S R a = some p') :
    Once S R p' := by
  cases a with
  | tcpConnect =>
    cases hstep
    exact ⟨ho.base, ho.acks, ho.pkts, ho.recvBase_le⟩
  | tcpSend data =>
    cases hstep
    rcases tcpSend_eq (S := S) (n := p.net) data with hsame | ⟨_, haccept⟩
    · rw [hsame]
      exact ho
    · rw [haccept]
      refine ⟨ho.base, ho.acks, ?_, ho.recvBase_le⟩
      intro hfirst k hk
      have hnext : add64 p.net.sender.currentSeq 1 ≤ p.net.sender.currentSeq + 1 := Nat.mod_le _ _
      simp only [Net.accept] at hk
      by_cases hlast : k = p.net.sender.currentSeq
      · exact ⟨_, List.mem_append_right _ (List.mem_singleton_self _), hlast.symm⟩
      · obtain ⟨pkt, hp, hseq⟩ := ho.pkts hfirst k (by omega)
        exact ⟨pkt, List.mem_append_left _ hp, hseq⟩
  | tcpRecv =>
    cases hstep
    rw [Net.tcpRecv]
    split <;> exact ⟨ho.base, ho.acks, ho.pkts, ho.recvBase_le⟩
  | tick =>
    cases hstep
    exact ⟨ho.base, ho.acks, ho.pkts, ho.recvBase_le⟩
  | recver =>
    obtain ⟨hdone, hle, hbase⟩ := ho.recver hd hl hcalls hR hstep
    have hnot : p'.recverTerminated ≠ false := by
      rw [hdone]
      decide
    refine ⟨fun hf => absurd hf hnot, fun hf => absurd hf hnot, fun hf => absurd hf hnot, ?_⟩
    rw [hbase]
    exact min_le_min_right R hle
  | handlerWakes =>
    rw [Pair.next] at hstep
    split_ifs at hstep
    cases hstep
    exact ⟨ho.base, ho.acks, ho.pkts, ho.recvBase_le⟩
  | handlerAck =>
    rw [Pair.next] at hstep
    split_ifs at hstep with hat hempty
    · cases hstep
      exact ⟨ho.base, ho.acks, ho.pkts, ho.recvBase_le⟩
    · cases hstep
      exact ⟨ho.base, fun _ => rfl, ho.pkts, ho.recvBase_le⟩
  | handlerTimeout =>
    rw [Pair.next] at hstep
    split_ifs at hstep
    · rw [hd.timeout_eq hl hcalls] at hstep
      cases hstep
      refine ⟨ho.base, ho.acks, ?_, ho.recvBase_le⟩
      intro hfirst k hk
      obtain ⟨pkt, hp, hseq⟩ := ho.pkts hfirst k hk
      exact ⟨pkt, List.mem_append_left _ hp, hseq⟩
    · cases hstep
      exact ⟨ho.base, ho.acks, ho.pkts, ho.recvBase_le⟩

theorem next_terminated (hdone : p.recverTerminated = true) (hstep : p.next S R a = some p') :
    p'.recverTerminated = true ∧ p'.net.receiver.recvBase = p.net.receiver.recvBase := by
  cases a with
  | tcpConnect =>
    cases hstep
    exact ⟨hdone, rfl⟩
  | tcpSend data =>
    cases hstep
    rcases tcpSend_eq (S := S) (n := p.net) data with hsame | ⟨_, haccept⟩
    · rw [hsame]
      exact ⟨hdone, rfl⟩
    · rw [haccept]
      exact ⟨hdone, rfl⟩
  | tcpRecv =>
    cases hstep
    rw [Net.tcpRecv]
    split <;> exact ⟨hdone, rfl⟩
  | tick =>
    cases hstep
    exact ⟨hdone, rfl⟩
  | recver =>
    rw [Pair.next, if_pos (.inl hdone)] at hstep
    cases hstep
  | handlerWakes =>
    rw [Pair.next] at hstep
    split_ifs at hstep
    cases hstep
    exact ⟨hdone, rfl⟩
  | handlerAck =>
    rw [Pair.next] at hstep
    split_ifs at hstep <;> (cases hstep; exact ⟨hdone, rfl⟩)
  | handlerTimeout =>
    rw [Pair.next] at hstep
    split_ifs at hstep
    · obtain ⟨net, hnet, rfl⟩ := Option.map_eq_some_iff.mp hstep
      have hsame := handleTimeout_receiver (n := p.net) (S := S)
      rw [ended_eq hnet] at hsame
      exact ⟨hdone, congrArg Receiver.recvBase hsame⟩
    · cases hstep
      exact ⟨hdone, rfl⟩

theorem run_terminated (hdone : p.recverTerminated = true)
    (hrest : ((pairSystem S R).resumed p).Run System.always rest p') :
    p'.recverTerminated = true ∧ p'.net.receiver.recvBase = p.net.receiver.recvBase := by
  refine System.run_invariant (P := fun _ p' => p'.recverTerminated = true ∧
    p'.net.receiver.recvBase = p.net.receiver.recvBase) ?_ ?_ hrest
  · intro p' hp
    rw [show p' = p from hp]
    exact ⟨hdone, rfl⟩
  · intro _ q a q' _ hq _ hstep
    obtain ⟨hdone', hsame⟩ := next_terminated hq.1 hstep
    exact ⟨hdone', hsame.trans hq.2⟩

theorem run_once (hR : 16 * R < 2 ^ 64) (hr : (pairSystem S R).Run System.always tr p)
    (hcalls : tr.countP Action.isSend < 2 ^ 31) : Once S R p := by
  refine System.run_invariant (P := fun tr p => tr.countP Action.isSend < 2 ^ 31 → Once S R p)
    ?_ ?_ hr hcalls
  · intro p hp _
    obtain ⟨buf, tcpBuf, rfl⟩ := hp
    refine ⟨fun _ => rfl, fun _ => rfl, fun _ k hk => absurd hk (Nat.not_lt_zero k), Nat.zero_le _⟩
  · intro tr p a p' hr ih _ hstep hlt
    rw [List.countP_append] at hlt
    obtain ⟨tr', hr', hcount⟩ := run_net hr
    obtain ⟨hd, hl⟩ := run_linked hr' (by omega)
    exact (ih (by omega)).step hd hl (by omega) hR hstep

/-- A pair delivers once: what was accepted before the receiver's thread ran `do_recv`, at most
one window of it, and then nothing more, so all it ever accepts is that and another window. -/
theorem delivers_once (hR : 16 * R < 2 ^ 64) (hr : (pairSystem S R).Run System.always tr p)
    (hcalls : tr.countP Action.isSend < 2 ^ 31) :
    (p.recverTerminated = false → p.net.receiver.recvBase = 0) ∧
      (∀ p', p.next S R .recver = some p' →
        p'.net.receiver.recvBase = min p.net.sender.currentSeq R ∧
        ∀ rest q, ((pairSystem S R).resumed p').Run System.always rest q →
          q.net.receiver.recvBase = p'.net.receiver.recvBase) ∧
      p.net.receiver.recvBase ≤ min S R ∧ p.net.sender.currentSeq ≤ min S R + S := by
  have ho := run_once hR hr hcalls
  obtain ⟨tr', hr', hcount⟩ := run_net hr
  obtain ⟨hd, hl⟩ := run_linked hr' (by omega)
  refine ⟨ho.base, fun p' hstep => ?_, ho.recvBase_le, ?_⟩
  · obtain ⟨hdone, -, hbase⟩ := ho.recver hd hl (by omega) hR hstep
    exact ⟨hbase, fun rest q hrest => (run_terminated hdone hrest).2⟩
  · have hwin := hd.sending.window
    have hle := hd.sending.sendBase_le
    have hmin := ho.recvBase_le
    rw [hd.sending.currentSeq]
    omega

theorem delivers_once_sample : ∃ tr p, (pairSystem 2 3).Run System.always tr p ∧
    (∃ p', p.next 2 3 .recver = some p' ∧ p'.net.receiver.recvBase = 2 ∧
      ∀ rest q, ((pairSystem 2 3).resumed p').Run System.always rest q →
        q.net.receiver.recvBase = 2) ∧ p.net.sender.currentSeq ≤ 4 := by
  have hr : ∃ p, (pairSystem 2 3).Run System.always [.tcpConnect, .tcpSend 7, .tick, .tcpSend 8] p ∧
      p.net.sender.currentSeq = 2 ∧ ∃ p', p.next 2 3 .recver = some p' :=
    ⟨_, System.run_of_exec (fun _ _ _ h => h) ⟨fun _ => ⟨0, 0⟩, fun _ => ⟨0, 0⟩, rfl⟩ rfl, rfl,
      _, rfl⟩
  obtain ⟨p, hr, hseq, p', hstep⟩ := hr
  obtain ⟨_, hrecver, _, hmax⟩ := delivers_once (by decide) hr (by decide)
  obtain ⟨hbase, hrest⟩ := hrecver p' hstep
  have hbase' : p'.net.receiver.recvBase = 2 := by rw [hbase, hseq]; rfl
  exact ⟨_, p, hr, ⟨p', hstep, hbase', fun rest q hq => (hrest rest q hq).trans hbase'⟩, hmax⟩

end ModCpp.Tcp
