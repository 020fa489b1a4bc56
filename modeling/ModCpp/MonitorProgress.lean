import ModCpp.Monitor
import ModCpp.Progress

/-!
# Progress under a mutex

A thread that is awake can lock the mutex once and be in it once before it sleeps or has a section
behind it. So the steps that threads take on their own account are paid for by the sections they
complete: what is left to do of a state is bounded, a lock and a wait use it up, and only a section
that is left adds to it, by what it signals.
-/

namespace ModCpp.Monitor
variable {τ γ δ : Type*} {prog : Program τ γ δ} {data : δ}

def punctual : List (Event τ) → Event τ → Prop := fun _ e => ∀ t, e ≠ .spurious t

/-- The steps a thread can take until it sleeps or completes its section. -/
def stays (holder : Option τ) (t : τ) [DecidableEq τ] : Phase γ → ℕ
  | .asleep _ => 0
  | .ready | .woken _ => if holder = some t then 1 else 2

section stays
variable [DecidableEq τ] {holder : Option τ} {t u : τ} {p : Phase γ} {c : γ}

@[simp] theorem stays_asleep : stays holder t (.asleep c) = 0 := rfl

theorem stays_holder (hp : p.Awake) : stays (some t) t p = 1 := by
  cases p with
  | ready => exact if_pos rfl
  | asleep c => exact absurd hp (Phase.awake_asleep c)
  | woken c => exact if_pos rfl

theorem stays_none (hp : p.Awake) : stays none t p = 2 := by
  cases p with
  | ready => rw [stays, if_neg (Option.some_ne_none t).symm]
  | asleep c => exact absurd hp (Phase.awake_asleep c)
  | woken c => rw [stays, if_neg (Option.some_ne_none t).symm]

theorem stays_le : stays holder t p ≤ 2 := by
  cases p with
  | asleep c => exact Nat.zero_le 2
  | ready =>
    rw [stays]
    split_ifs <;> omega
  | woken c =>
    rw [stays]
    split_ifs <;> omega

theorem stays_other (hu : u ≠ t) : stays (some t) u p = stays none u p := by
  have hne : (some t : Option τ) ≠ some u := by
    intro h
    exact hu (Option.some_inj.mp h).symm
  cases p with
  | ready => rw [stays_none Phase.awake_ready, stays, if_neg hne]
  | asleep c => rfl
  | woken c => rw [stays_none (Phase.awake_woken c), stays, if_neg hne]

end stays

variable [DecidableEq τ] [DecidableEq γ]

section rank
variable [Fintype τ] {s s' : State τ γ δ} {t : τ} {c : γ} {ph ph' : τ → Phase γ}
  {signals : List (Signal γ)} {d : δ}

def rank (s : State τ γ δ) : ℕ := ∑ t, stays s.holder t (s.phase t)

omit [DecidableEq γ] in
theorem rank_le (s : State τ γ δ) : rank s ≤ Fintype.card τ * 2 := sum_le_card_mul fun _ => stays_le

omit [DecidableEq γ] in
theorem rank_lock (hfree : s.holder = none) (hawake : (s.phase t).Awake) :
    rank { s with holder := some t } + 1 = rank s := by
  have hsum := sum_step (t := t) (f := fun u => stays s.holder u (s.phase u))
    (g := fun u => stays (some t) u (s.phase u)) ?_
  · simp only [hfree, stays_holder hawake, stays_none hawake] at hsum
    simp only [rank, hfree]
    omega
  · intro u hu
    rw [hfree]
    exact stays_other hu

omit [DecidableEq γ] in
theorem rank_free (hheld : s.holder = some t) (hawake : (s.phase t).Awake) (p : Phase γ) :
    rank ⟨none, Function.update s.phase t p, d⟩ + 1 = rank s + stays none t p := by
  have hsum := sum_step (t := t) (f := fun u => stays s.holder u (s.phase u))
    (g := fun u => stays none u (Function.update s.phase t p u)) ?_
  · simp only [hheld, stays_holder hawake, Function.update_self] at hsum
    simp only [rank, hheld]
    omega
  · intro u hu
    simp only [Function.update_of_ne hu, hheld]
    exact (stays_other hu).symm

omit [DecidableEq γ] in
theorem rank_wake (ht : ph t = .asleep c) :
    rank ⟨none, Function.update ph t (.woken c), d⟩ = rank (⟨none, ph, d⟩ : State τ γ δ) + 2 := by
  have hsum := sum_step (t := t) (f := fun u => stays none u (ph u))
    (g := fun u => stays none u (Function.update ph t (.woken c) u)) ?_
  · simp only [ht, Function.update_self, stays_asleep, stays_none (Phase.awake_woken c)] at hsum
    simp only [rank]
    omega
  · intro u hu
    simp only [Function.update_of_ne hu]

/-- Each `notify_one` wakes one thread at most. -/
theorem rank_signalled (h : Signalled signals ph ph') (hone : ∀ c, .all c ∉ signals) :
    rank ⟨none, ph', d⟩ ≤ rank (⟨none, ph, d⟩ : State τ γ δ) + 2 * signals.length := by
  induction h with
  | nil => exact Nat.le_add_right _ _
  | @one ph ph' c rest t ht _ ih =>
    have hrest := ih fun c hc => hone c (List.mem_cons_of_mem _ hc)
    rw [rank_wake ht] at hrest
    rw [List.length_cons]
    omega
  | idle _ _ ih =>
    have hrest := ih fun c hc => hone c (List.mem_cons_of_mem _ hc)
    rw [List.length_cons]
    omega
  | all _ _ => exact absurd List.mem_cons_self (hone _)

theorem rank_leave_one (hheld : s.holder = some t) (hawake : (s.phase t).Awake)
    (h : Signalled signals (Function.update s.phase t .ready) ph) (hone : ∀ c, .all c ∉ signals) :
    rank ⟨none, ph, d⟩ ≤ rank s + 1 + 2 * signals.length := by
  have hle := rank_signalled (d := d) h hone
  have hfree := rank_free (d := d) hheld hawake .ready
  rw [stays_none Phase.awake_ready] at hfree
  omega

omit [DecidableEq γ] in
theorem rank_pos (hheld : s.holder = some t) (hawake : (s.phase t).Awake) : 0 < rank s := by
  have hle : stays s.holder t (s.phase t) ≤ rank s :=
    Finset.single_le_sum (f := fun u => stays s.holder u (s.phase u)) (fun _ _ => Nat.zero_le _)
      (Finset.mem_univ t)
  rwa [hheld, stays_holder hawake] at hle

end rank

section runs
variable {tr rest : List (Event τ)} {s t : State τ γ δ}

theorem run_holderAwake (hr : (system prog data).Run System.always tr s) : HolderAwake s := by
  refine System.run_invariant (P := fun _ s => HolderAwake s) ?_ ?_ hr
  · intro s hs u hu
    rw [hs] at hu
    cases hu
  · intro tr s e s' _ hs _ hstep
    exact holderAwake_of_step hs hstep

theorem run_punctual (hr : (system prog data).Run System.always tr s)
    (hrest : ((system prog data).resumed s).Run punctual rest t) :
    (system prog data).Run System.always (tr ++ rest) t := by
  apply System.run_resumed hr
  exact System.run_mono (fun _ hi => hi) (fun _ _ _ hs => hs) (fun _ _ _ => trivial) hrest

/-- The steps after `s` are paid for by what the completed sections earned. -/
theorem steps_paid [Fintype τ] (earned : δ → ℕ)
    (hpaid : ∀ tr s u d signals ph, (system prog data).Run System.always tr s →
      s.holder = some u → (s.phase u).Awake →
      prog.body u (s.phase u) s.data = .ok (.leave d signals) →
      Signalled signals (Function.update s.phase u .ready) ph →
      rank ⟨none, ph, d⟩ + 1 + earned s.data ≤ rank s + earned d)
    (hr : (system prog data).Run System.always tr s)
    (hrest : ((system prog data).resumed s).Run punctual rest t) :
    rest.length + rank t + earned s.data ≤ rank s + earned t.data := by
  induction hrest with
  | start hi =>
    cases hi
    rw [List.length_nil, Nat.zero_add]
  | @step rest s₁ s₂ e hrest hok hs ih =>
    have hreach := run_punctual hr hrest
    have hholder := run_holderAwake hreach
    rw [List.length_append, List.length_singleton]
    cases hs with
    | lock hfree hawake =>
      have hrank := rank_lock hfree hawake
      dsimp only at hrank ⊢
      omega
    | @wait u c hheld hb =>
      have hrank := rank_free (d := s₁.data) hheld (hholder u hheld) (.asleep c)
      rw [stays_asleep] at hrank
      dsimp only at hrank ⊢
      omega
    | leave hheld hb hsig =>
      have hpay := hpaid _ _ _ _ _ _ hreach hheld (hholder _ hheld) hb hsig
      dsimp only
      omega
    | spurious _ => exact absurd rfl (hok _)

theorem exists_signalled (signals : List (Signal γ)) (ph : τ → Phase γ) :
    ∃ ph', Signalled signals ph ph' := by
  induction signals generalizing ph with
  | nil => exact ⟨ph, .nil⟩
  | cons signal rest ih =>
    cases signal with
    | one c =>
      by_cases hsome : ∃ t, ph t = .asleep c
      · obtain ⟨t, ht⟩ := hsome
        obtain ⟨ph', h⟩ := ih (Function.update ph t (.woken c))
        exact ⟨ph', .one ht h⟩
      · obtain ⟨ph', h⟩ := ih ph
        exact ⟨ph', .idle (fun t ht => hsome ⟨t, ht⟩) h⟩
    | all c =>
      obtain ⟨ph', h⟩ := ih (wakeAll ph c)
      exact ⟨ph', .all h⟩

theorem exists_step (hawake : ∃ u, (s.phase u).Awake)
    (hbody : ∀ u, s.holder = some u → ∃ outcome, prog.body u (s.phase u) s.data = .ok outcome) :
    ∃ e t, punctual tr e ∧ Step prog s e t := by
  cases hh : s.holder with
  | none =>
    obtain ⟨u, hu⟩ := hawake
    refine ⟨.lock u, _, ?_, .lock hh hu⟩
    intro v hv
    cases hv
  | some u =>
    obtain ⟨outcome, hb⟩ := hbody u hh
    cases outcome with
    | wait c =>
      refine ⟨.body u, _, ?_, .wait hh hb⟩
      intro v hv
      cases hv
    | leave d signals =>
      obtain ⟨ph, hsig⟩ := exists_signalled signals (Function.update s.phase u .ready)
      refine ⟨.body u, _, ?_, .leave hh hb hsig⟩
      intro v hv
      cases hv

end runs

end ModCpp.Monitor
