import ModCpp.CowCounts

/-!
# Runs of copies and moves

As long as handles are only copied, each shows what a deep copy would show. A count is an `int`,
and a copy past its greatest value is undefined. A move leaves the count of the block one short.
-/

namespace ModCpp.Cow
variable {σ ι : Type} [DecidableEq σ] [DecidableEq ι] {A : Finset σ} {s s' : State σ ι} {t u : σ}
  {tr : List (Event σ ι)} {e : Event σ ι}

theorem Outcome.of_ok (ho : Outcome s e) (h : next s e = .ok s') : Stepped s e s' := by
  rcases ho with ⟨_, s₁, hok, hs⟩ | ⟨_, herr⟩
  · rw [hok] at h
    cases h
    exact hs
  · rw [herr] at h
    cases h

theorem Outcome.ok_iff (ho : Outcome s e) : (∃ s', next s e = .ok s') ↔ HasRoom s e := by
  rcases ho with ⟨hroom, s₁, hok, _⟩ | ⟨hfull, herr⟩
  · exact iff_of_true ⟨s₁, hok⟩ hroom
  · refine iff_of_false ?_ hfull
    rintro ⟨s', hok⟩
    cases hok.symm.trans herr

theorem run_counted
    (hr : (cowSystem fun s e => Admitted s e ∧ e.Copies).Run System.always tr s) :
    Counted s.living s ∧ Shows s (history eager (fun _ => none) tr) := by
  refine System.run_invariant (P := fun tr s =>
    Counted s.living s ∧ Shows s (history eager (fun _ => none) tr)) ?_ ?_ hr
  · intro s hs
    obtain ⟨data, rfl⟩ := hs
    refine ⟨⟨?_, ?_, ?_⟩, ?_⟩
    · intro b
      rfl
    · intro b
      exact (by decide : (0 : ℤ) ≤ intMax)
    · intro t ht
      exact absurd ht (Finset.notMem_empty t)
    · intro t
      rfl
  · intro tr s e s' _ hs _ hstep
    obtain ⟨⟨ha, he⟩, hok⟩ := hstep
    obtain ⟨hc, hshows⟩ := hs
    have hnext := (hc.next ha he).of_ok hok
    rw [history_concat]
    exact ⟨hnext.counted, hnext.shows _ hshows⟩

/-- A handle lives exactly if it has a vector where each has one of its own. -/
theorem living_iff (hc : Counted s.living s) (hshows : Shows s (history eager (fun _ => none) tr))
    (t : σ) : t ∈ s.living ↔ (history eager (fun _ => none) tr t).isSome := by
  rw [hshows t]
  constructor
  · intro ht
    obtain ⟨b, D, hb, hD, _⟩ := hc.block ht
    rw [if_pos ht, seen_some hb, hD]
    rfl
  · intro h
    split_ifs at h with ht
    · exact ht
    · cases h

/-- The handles that live are those the steps call for, each shows the vector it would have if
each copy were a deep one, counts are numbers of handles, and each step deletes the blocks whose
last handle leaves in it. A next step goes well exactly if the count it takes up has room. -/
theorem copies_refined
    (hr : (cowSystem fun s e => Admitted s e ∧ e.Copies).Run System.always tr s) :
    (∀ t, t ∈ s.living ↔ (history eager (fun _ => none) tr t).isSome) ∧
    (∀ t ∈ s.living, s.seen t = history eager (fun _ => none) tr t) ∧
    Counts s.living s ∧
    (∀ e s', Admitted s e → e.Copies → next s e = .ok s' → Exact s.living s s'.living s') ∧
    ∀ e, Admitted s e → e.Copies → ((∃ s', next s e = .ok s') ↔ HasRoom s e) := by
  obtain ⟨hc, hshows⟩ := run_counted hr
  refine ⟨living_iff hc hshows, ?_, hc.counts, ?_, fun e ha he => (hc.next ha he).ok_iff⟩
  · intro t ht
    rw [hshows t, if_pos ht]
  · intro e s' ha he hok
    exact ((hc.next ha he).of_ok hok).exact

/-- A write through the second of three handles leaves the other two as they were. -/
theorem copies_refined_sample : ∃ (tr : List (Event ℕ ℕ)) (s : State ℕ ℕ),
    (cowSystem fun s e => Admitted s e ∧ e.Copies).Run System.always tr s ∧
    Counts s.living s ∧ s.deleted = [7] ∧ s.seen 1 = some [9] ∧ s.seen 2 = some [1, 2] := by
  have hr : ∃ s : State ℕ ℕ, (cowSystem fun s e => Admitted s e ∧ e.Copies).Run System.always
      [.construct 0 [1, 2] 5, .copy 1 0, .copy 2 1, .mutate 1 6 [9], .copyAssign 1 1,
        .construct 3 [] 7, .copyAssign 3 2, .destroy 0] s ∧
      s.deleted = [7] ∧ s.seen 1 = some [9] ∧ s.seen 2 = some [1, 2] := by
    refine ⟨_, System.run_of_exec System.guardedExec_step ⟨fun _ => none, rfl⟩ rfl, ?_⟩
    decide
  obtain ⟨s, hr, hs⟩ := hr
  exact ⟨_, s, hr, (copies_refined hr).2.2.1, hs⟩

/-- One handle and `n` copies of it. -/
def crowd : ℕ → List (Event ℕ ℕ)
  | 0 => [.construct 0 [] 0]
  | n + 1 => crowd n ++ [.copy (n + 1) 0]

section crowd
variable {n : ℕ} {s s' : State ℕ ℕ}

def Crowded (n : ℕ) (s : State ℕ ℕ) : Prop :=
  s.living = Finset.range (n + 1) ∧ ∀ t ∈ s.living, s.data t = some 0

theorem crowded_copy (hcrowd : Crowded n s) (h : next s (.copy (n + 1) 0) = .ok s') :
    Crowded (n + 1) s' := by
  obtain ⟨hliving, hdata⟩ := hcrowd
  have h0 : s.data 0 = some 0 := hdata 0 (by simp [hliving])
  obtain ⟨⟨b, D⟩, _, h⟩ := bind_ok h
  simp only at h
  split_ifs at h
  cases h
  constructor
  · rw [Finset.range_add_one, ← hliving]
    rfl
  · intro t ht
    simp only [State.store, State.create, State.setData, Function.update_apply]
    split_ifs with hlast
    · exact h0
    · exact hdata t (Finset.mem_of_mem_insert_of_ne ht hlast)

/-- The next copy is admitted, and there is room for it as long as the count has any. -/
theorem crowded_next (hc : Counted s.living s) (hcrowd : Crowded n s) :
    Admitted s (.copy (n + 1) 0) ∧
      ((∃ s', next s (.copy (n + 1) 0) = .ok s') ↔ (n : ℤ) + 1 ≠ intMax) := by
  obtain ⟨hliving, hdata⟩ := hcrowd
  have h0 : 0 ∈ s.living := by simp [hliving]
  have ha : Admitted s (.copy (n + 1) 0) := by
    refine ⟨?_, h0⟩
    simp [hliving]
  have hcount : holders s.living s 0 = n + 1 := by
    rw [holders, holderCount_eq_card hdata, hliving, Finset.card_range]
  have hroom : HasRoom s (.copy (n + 1) 0) ↔ (n : ℤ) + 1 ≠ intMax := by
    have hfull := hc.full_iff h0 (hdata 0 h0)
    rw [hcount] at hfull
    exact not_congr (by exact_mod_cast hfull)
  exact ⟨ha, (hc.next ha trivial).ok_iff.trans hroom⟩

theorem crowd_run (n : ℕ) (hn : (n : ℤ) < intMax) :
    ∃ s, (cowSystem fun s e => Admitted s e ∧ e.Copies).Run System.always (crowd n) s ∧
      Crowded n s := by
  induction n with
  | zero =>
    refine ⟨_, System.run_of_exec System.guardedExec_step ⟨fun _ => none, rfl⟩ rfl, rfl, ?_⟩
    decide
  | succ n ih =>
    push_cast at hn
    obtain ⟨s, hr, hcrowd⟩ := ih (by omega)
    obtain ⟨ha, hiff⟩ := crowded_next (run_counted hr).1 hcrowd
    obtain ⟨s', hok⟩ := hiff.mpr (by omega)
    exact ⟨s', hr.step trivial ⟨⟨ha, trivial⟩, hok⟩, crowded_copy hcrowd hok⟩

end crowd

/-- The copy that would be the 2³¹-th handle of the block. -/
theorem copies_refined_fails : ¬ ∀ (tr : List (Event ℕ ℕ)) (s : State ℕ ℕ),
    (cowSystem fun s e => Admitted s e ∧ e.Copies).Run System.always tr s →
      ∀ e, Admitted s e → e.Copies → ∃ s', next s e = .ok s' := by
  intro hall
  obtain ⟨n, hn⟩ : ∃ n : ℕ, (n : ℤ) + 1 = intMax := ⟨2147483646, rfl⟩
  obtain ⟨s, hr, hcrowd⟩ := crowd_run n (by omega)
  obtain ⟨ha, hiff⟩ := crowded_next (run_counted hr).1 hcrowd
  exact hiff.mp (hall _ s hr _ ha trivial) hn

/-- A handle that takes the block of `u` without counting leaves the count one short, and it stays
so when `u` ends. -/
theorem uncounted_breaks (hc : Counted A s) (ht : t ∉ A) (hu : u ∈ A)
    (hheap : s'.heap = s.heap) (hdata : s'.data = Function.update s.data t (s.data u))
    (hliving : s'.living = insert t A) :
    ¬ Counts s'.living s' ∧
      ∃ s'', next s' (.destroy u) = .ok s'' ∧ ¬ Counts s''.living s'' := by
  obtain ⟨b, D, hb, hD, hn, hpos⟩ := hc.block hu
  have hbound := hc.bound b
  have hut : u ≠ t := fun he => ht (he ▸ hu)
  have hmore : holders s'.living s' b = holders A s b + 1 := by
    have h := holders_join ht (by rw [← hb]; exact hdata) b
    rwa [if_pos rfl, ← hliving] at h
  have hD' : s'.heap b = some D := by rw [hheap, hD]
  have hb' : s'.data u = some b := by rw [hdata, Function.update_of_ne hut, hb]
  constructor
  · intro hcounts
    have h := hcounts b
    rw [hD', hmore, if_neg (by omega), Option.map_some, Option.some_inj] at h
    omega
  · let s'' := { released s' b D with living := (released s' b D).living.erase u }
    have hcall : next s' (.destroy u) = .ok s'' := by
      rw [next, State.destroy, hb', ok_bind (decrese_ok hD' (by omega) (by omega))]
      rfl
    have hu' : u ∈ s'.living := by
      rw [hliving]
      exact Finset.mem_insert_of_mem hu
    have hless := holders_erase hu' (released_data (s := s') (b := b) (D := D)) b
    rw [if_pos hb', hmore] at hless
    have hleft : holders s''.living s'' b = holders A s b := by
      rw [show s''.living = s'.living.erase u from congrArg (·.erase u) released_living]
      exact Nat.succ_inj.mp hless
    have hheap'' : s''.heap b = if D.refcnt = 1 then none else some ⟨D.vec, D.refcnt - 1⟩ :=
      (congrFun released_heap b).trans (Function.update_self ..)
    refine ⟨s'', hcall, ?_⟩
    intro hcounts
    have h := hcounts b
    rw [hleft, hheap'', if_neg (Nat.ne_of_gt hpos)] at h
    split_ifs at h with hone
    · cases h
    · rw [Option.map_some, Option.some_inj] at h
      have h' : D.refcnt - 1 = holders A s b := h
      omega

theorem moves_break (hc : Counted s.living s) (ha : Admitted s e) (he : e.Transfers)
    (hmove : e = .move t u ∨ e = .moveAssign t u) : ∃ s', next s e = .ok s' ∧
      ¬ Counts s'.living s' ∧
      ∃ s'', next s' (.destroy u) = .ok s'' ∧ ¬ Counts s''.living s'' := by
  rcases hmove with rfl | rfl
  · exact ⟨_, rfl, uncounted_breaks hc ha.1 ha.2 rfl rfl rfl⟩
  · obtain ⟨s₁, hdec, hdrop⟩ := hc.drop ha.1
    have htu : t ≠ u := he
    have hu : u ∈ s.living.erase t := Finset.mem_erase.mpr ⟨htu.symm, ha.2⟩
    have hcall : next s (.moveAssign t u) = .ok (s₁.setData t (s₁.data u)) := by
      rw [next, State.moveAssign, ok_bind (assert_of htu), ok_bind hdec]
      rfl
    refine ⟨_, hcall, uncounted_breaks hdrop.counted (Finset.notMem_erase t _) hu rfl rfl ?_⟩
    rw [Finset.insert_erase ha.1]
    exact hdrop.living

/-- Without moves the counts are right, every block is deleted with its last handle, and a next
step goes well exactly if the count it takes up has room. The first move leaves a count one
short, and so does the end of the handle that was moved from. -/
theorem counts_without_moves
    (hr : (cowSystem fun s e => Admitted s e ∧ e.Transfers ∧ ¬ e.Moves).Run System.always tr s) :
    (∀ t, t ∈ s.living ↔ (history eager (fun _ => none) tr t).isSome) ∧
    Counts s.living s ∧
    (∀ e s', Admitted s e → e.Transfers → ¬ e.Moves → next s e = .ok s' →
      Exact s.living s s'.living s') ∧
    (∀ e, Admitted s e → e.Transfers → ¬ e.Moves →
      ((∃ s', next s e = .ok s') ↔ HasRoom s e)) ∧
    ∀ e t u, e = .move t u ∨ e = .moveAssign t u → Admitted s e → e.Transfers →
      ∃ s', next s e = .ok s' ∧ ¬ Counts s'.living s' ∧
        ∃ s'', next s' (.destroy u) = .ok s'' ∧ ¬ Counts s''.living s'' := by
  have hcopies : ∀ e : Event σ ι, e.Transfers → ¬ e.Moves → e.Copies := by
    intro e he hm
    cases e with
    | default t => exact he.elim
    | move t u => exact absurd trivial hm
    | moveAssign t u => exact absurd trivial hm
    | _ => exact trivial
  obtain ⟨hc, hshows⟩ := run_counted
    (System.guarded_mono (fun s e h => ⟨h.1, hcopies e h.2.1 h.2.2⟩) hr)
  refine ⟨living_iff hc hshows, hc.counts, ?_, ?_, ?_⟩
  · intro e s' ha he hm hok
    exact ((hc.next ha (hcopies e he hm)).of_ok hok).exact
  · intro e ha he hm
    exact (hc.next ha (hcopies e he hm)).ok_iff
  · exact fun e t u hmove ha he => moves_break hc ha he hmove

theorem counts_without_moves_sample : ∃ (tr : List (Event ℕ ℕ)) (s : State ℕ ℕ),
    (cowSystem fun s e => Admitted s e ∧ e.Transfers ∧ ¬ e.Moves).Run System.always tr s ∧
    s.deleted = [5] ∧ Counts s.living s ∧ ∃ s', next s (.move 3 1) = .ok s' ∧
      ¬ Counts s'.living s' := by
  have hr : ∃ s : State ℕ ℕ,
      (cowSystem fun s e => Admitted s e ∧ e.Transfers ∧ ¬ e.Moves).Run System.always
        [.construct 0 [1, 2] 5, .copy 1 0, .construct 2 [3] 6, .copyAssign 1 2, .destroy 0] s ∧
      s.deleted = [5] ∧ s.living = {1, 2} := by
    refine ⟨_, System.run_of_exec System.guardedExec_step ⟨fun _ => none, rfl⟩ rfl, ?_⟩
    decide
  obtain ⟨s, hr, hdel, hliving⟩ := hr
  obtain ⟨_, hcounts, _, _, hmoves⟩ := counts_without_moves hr
  obtain ⟨s', hok, hbroken, _⟩ := hmoves (.move 3 1) 3 1 (.inl rfl) (by simp [Admitted, hliving])
    trivial
  exact ⟨_, s, hr, hdel, hcounts, s', hok, hbroken⟩

/-- The run of `cow_routine` and the end of its two handles. -/
theorem counts_without_moves_fails : ¬ ∀ (tr : List (Event ℕ ℕ)) (s : State ℕ ℕ),
    (cowSystem fun s e => Admitted s e ∧ e.Transfers).Run System.always tr s →
      Counts s.living s ∧ ∀ t ∈ s.living, ∃ s', next s (.destroy t) = .ok s' := by
  intro hall
  have hr : ∃ s : State ℕ ℕ, (cowSystem fun s e => Admitted s e ∧ e.Transfers).Run System.always
      [.construct 0 [1, 2, 3] 5, .move 1 0, .destroy 1] s ∧ s.living = {0} ∧
      next s (.destroy 0) = .error (.undefined "*data of deleted data") := by
    refine ⟨_, System.run_of_exec System.guardedExec_step ⟨fun _ => none, rfl⟩ rfl, ?_, rfl⟩
    decide
  obtain ⟨s, hr, hliving, herr⟩ := hr
  obtain ⟨s', hok⟩ := (hall _ s hr).2 0 (by simp [hliving])
  rw [herr] at hok
  cases hok

end ModCpp.Cow
