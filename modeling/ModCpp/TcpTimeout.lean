import ModCpp.TcpWindows

/-!
# `handle_timeout` for all sequence numbers

The counter of its loop is an `int`, which starts as the low 32 bits of the 64-bit `send_base`
and is compared with `current_seq` as a 64-bit word.
-/

namespace ModCpp.Tcp
variable {S : ℕ} {n : Net}

/-- `handle_timeout` returns and has sent the packets from `send_base` on below `current_seq`. -/
def Net.Resends (S : ℕ) (n : Net) : Prop :=
  ∃ n', n.handleTimeout S = (n', none) ∧
    n'.pktQueue = n.pktQueue ++ n.sender.resent S n.sender.sendBase

theorem length_resent (s : Sender) (i : ℕ) : (s.resent S i).length = s.currentSeq - i := by
  rw [Sender.resent, List.length_map, List.length_range']

theorem andThen_returns {o : Outcome} {f : Net → Outcome} {n' : Net}
    (h : o.andThen f = (n', none)) : ∃ m, o = (m, none) ∧ f m = (n', none) := by
  obtain ⟨m, result⟩ := o
  cases result with
  | some failure => cases h
  | none => exact ⟨m, rfl, h⟩

/-- A loop whose bound is no `int` runs on to `i ++` at the largest one. -/
theorem resend_stuck {k room : ℕ} {n' : Net} (hroom : (k + room : ℤ) = intMax)
    (hseq : intMax < n.sender.currentSeq) : n.resend S k ≠ (n', none) := by
  intro hres
  have hword : toUint64 k < n.sender.currentSeq := by
    rw [toUint64_natCast (by rw [intMax] at hroom; omega)]
    omega
  -- on the distance to the largest `int`; at distance 0 the increment overflows
  induction room generalizing n k with
  | zero =>
    rw [Net.resend, if_pos hword] at hres
    obtain ⟨m, _, hrest⟩ := andThen_returns hres
    rw [if_neg (by omega)] at hrest
    cases hrest
  | succ room ih =>
    rw [Net.resend, if_pos hword] at hres
    obtain ⟨m, hone, hrest⟩ := andThen_returns hres
    have hsender : m.sender = n.sender := by
      rw [← resendAt_sender (S := S) (n := n) k, hone]
    rw [if_pos (by omega)] at hrest
    refine ih (n := m) (k := k + 1) ?_ ?_ hrest ?_
    · push_cast at hroom ⊢
      omega
    · rw [hsender]
      exact hseq
    · rw [hsender, toUint64_natCast (by rw [intMax] at hroom; omega)]
      rw [intMax] at hseq hroom
      omega

theorem Net.Resends.of_lt (hle : n.sender.sendBase ≤ n.sender.currentSeq)
    (hseq : n.sender.currentSeq < 2 ^ 31)
    (hconn : n.sender.sendBase < n.sender.currentSeq → n.sender.recvCond = true) :
    n.Resends S := by
  refine ⟨(n.carry (n.sender.resent S n.sender.sendBase)).resetTimer, ?_, rfl⟩
  rw [Net.handleTimeout, toInt_of_lt (by omega), resend_eq _ hseq hle hconn]
  rfl

theorem handleTimeout_of_neg (hseq : n.sender.currentSeq < 2 ^ 63)
    (hneg : toInt n.sender.sendBase < 0) : n.handleTimeout S = (n.resetTimer, none) := by
  have hlarge := le_toUint64_of_neg hneg (le_toInt _)
  exact handleTimeout_idle (by omega)

theorem Net.Resends.empty (hempty : n.sender.sendBase = n.sender.currentSeq)
    (hseq : n.sender.currentSeq < 2 ^ 63) (hneg : toInt n.sender.sendBase < 0) : n.Resends S := by
  refine ⟨_, handleTimeout_of_neg hseq hneg, ?_⟩
  have hnil : n.sender.resent S n.sender.sendBase = [] := by
    rw [← List.length_eq_zero_iff, length_resent]
    omega
  rw [hnil, List.append_nil]
  rfl

theorem Net.Resends.returns (h : n.Resends S) :
    ∃ m, n.resend S (toInt n.sender.sendBase) = (m, none) := by
  obtain ⟨n', hcall, _⟩ := h
  rw [Net.handleTimeout] at hcall
  obtain ⟨m, hloop, _⟩ := andThen_returns hcall
  exact ⟨m, hloop⟩

theorem resend_unconnected {k : ℕ} {n' : Net} (hk : k < n.sender.currentSeq)
    (hseq : n.sender.currentSeq < 2 ^ 31) (hconn : n.sender.recvCond ≠ true) :
    n.resend S k ≠ (n', none) := by
  intro hres
  rw [Net.resend, toUint64_natCast (by omega), if_pos hk] at hres
  obtain ⟨m, hone, _⟩ := andThen_returns hres
  rw [Net.resendAt, Int.tmod_eq_emod_of_nonneg (by omega), ← Int.natCast_mod, if_neg (by omega),
    Net.ipSend, if_neg hconn] at hone
  cases hone

/-- `handle_timeout` resends the window if and only if the sequence numbers in it are `int` values
and the sender is connected, or there is nothing to send and the counter is negative. -/
theorem timeout_resends (hle : n.sender.sendBase ≤ n.sender.currentSeq)
    (hseq : n.sender.currentSeq < 2 ^ 63) : n.Resends S ↔
    (n.sender.currentSeq < 2 ^ 31 ∧
      (n.sender.sendBase < n.sender.currentSeq → n.sender.recvCond = true)) ∨
    (n.sender.sendBase = n.sender.currentSeq ∧ toInt n.sender.sendBase < 0) := by
  constructor
  · intro h
    by_cases hneg : toInt n.sender.sendBase < 0
    · -- nothing was sent
      obtain ⟨n', hcall, hqueue⟩ := h
      rw [handleTimeout_of_neg hseq hneg] at hcall
      cases hcall
      have hlen := congrArg List.length hqueue
      rw [List.length_append, length_resent] at hlen
      exact .inr ⟨by change n.pktQueue.length = _ at hlen; omega, hneg⟩
    · left
      obtain ⟨k, hk⟩ := Int.eq_ofNat_of_zero_le (not_lt.mp hneg)
      obtain ⟨m, hloop⟩ := h.returns
      have hlt := toInt_lt n.sender.sendBase
      rw [hk] at hlt hloop
      have hsmall : n.sender.currentSeq < 2 ^ 31 := by
        by_contra hbig
        have hroom : (k + (intMax - k).toNat : ℤ) = intMax := by
          rw [intMax]
          omega
        refine resend_stuck hroom ?_ hloop
        rw [intMax]
        omega
      refine ⟨hsmall, ?_⟩
      intro hmore
      by_contra hconn
      have hbase : k = n.sender.sendBase := by
        rw [toInt_of_lt (by omega)] at hk
        omega
      exact resend_unconnected (by omega) hsmall hconn hloop
  · rintro (⟨hsmall, hconn⟩ | ⟨hempty, hneg⟩)
    · exact .of_lt hle hsmall hconn
    · exact .empty hempty hseq hneg

def Net.windowed (sendBase currentSeq : ℕ) : Net :=
  { Net.init (fun k => ⟨0, k⟩) fun k => ⟨0, k⟩ with
    sender := ⟨fun k => ⟨0, k⟩, sendBase, currentSeq, 5, true⟩ }

theorem timeout_resends_sample : (Net.windowed 5 7).Resends 4 :=
  (timeout_resends (by decide) (by decide)).mpr (.inl ⟨by decide, fun _ => rfl⟩)

/-- From `2 ^ 31` on the counter is negative and nothing is sent. -/
theorem timeout_resends_fails : ¬ ∀ (S : ℕ) (n : Net), 1 ≤ S → S < 2 ^ 31 →
    n.sender.sendBase ≤ n.sender.currentSeq → n.sender.currentSeq ≤ n.sender.sendBase + S →
    n.sender.currentSeq < 2 ^ 63 → n.sender.recvCond = true → n.Resends S := by
  intro hall
  obtain ⟨n', hcall, hqueue⟩ := hall 4 (.windowed (2 ^ 31) (2 ^ 31 + 1)) (by decide) (by decide)
    (by decide) (by decide) (by decide) rfl
  rw [handleTimeout_of_neg (by decide) (by decide)] at hcall
  cases hcall
  have hlen := congrArg List.length hqueue
  rw [List.length_append, length_resent] at hlen
  change 0 = 0 + (2 ^ 31 + 1 - 2 ^ 31) at hlen
  omega

end ModCpp.Tcp
