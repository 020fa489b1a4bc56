import ModCpp.SharedPtrVariables

/-!
# No link leads to what is gone

As long as no `weak_pointer` is copied from another, a `weak_pointer` looks at the living
variable it was last taken from and at no other, and no call follows an address of something
destroyed.
-/

namespace ModCpp.SharedPtr
variable {σ ω ι κ : Type*} {s : State σ ω ι κ} {t : σ} {w : ω} {e : Event σ ω ι κ}

/-- What goes wrong is that a link leads to something destroyed. -/
def Dangling (f : Failure) : Prop :=
  f = .undefined "cur->reset() of a destroyed weak_pointer" ∨
  f = .undefined "cancel_subscription on a destroyed shared_pointer" ∨
  f = .undefined "*shared_ptr of a destroyed pointer"

instance (f : Failure) : Decidable (Dangling f) := inferInstanceAs (Decidable (_ ∨ _))

section errors
variable {f : Failure} {u : σ}

theorem addRefcnt_error [DecidableEq κ] {b : κ} {d : ℤ} (h : s.addRefcnt b d = .error f) :
    ¬ Dangling f := by
  rw [State.addRefcnt] at h
  split at h
  · cases h
    decide
  · split_ifs at h
    · cases h
      decide
    · cases h

variable [DecidableEq σ] [DecidableEq κ]

theorem share_error (h : s.share t u = .error f) : ¬ Dangling f := by
  rw [State.share] at h
  split at h
  · cases h
    decide
  · rcases bind_error h with hadd | ⟨_, _, hret⟩
    · exact addRefcnt_error hadd
    · cases hret

theorem Linked.lock_error (hl : Linked s.view) (hw : w ∈ s.livingWeak)
    (h : s.lock w t = .error f) : ¬ Dangling f := by
  rw [State.lock] at h
  split at h
  · cases h
  · rename_i u htarget
    have hu : u ∈ s.living := ((hl.target w hw u).mp htarget).1
    rw [if_pos hu] at h
    exact share_error h

variable [DecidableEq ι]

theorem decrease_error (h : s.decreaseCurrentRefcnt t = .error f) : ¬ Dangling f := by
  rw [State.decreaseCurrentRefcnt] at h
  split at h
  · cases h
  · cases h
    decide
  · rcases bind_error h with hadd | ⟨⟨s₁, n⟩, _, h⟩
    · exact addRefcnt_error hadd
    · simp only at h
      split_ifs at h
      · rcases bind_error h with hdata | ⟨s₂, _, h⟩
        · rw [State.deleteData] at hdata
          split_ifs at hdata
          · cases hdata
          · cases hdata
            decide
        · rcases bind_error h with hmeta | ⟨_, _, hret⟩
          · rw [State.deleteMetadata] at hmeta
            split at hmeta
            · cases hmeta
              decide
            · cases hmeta
          · cases hret
      · cases h

variable [DecidableEq ω]

omit [DecidableEq κ] [DecidableEq ι] in
theorem Linked.cancel_error (hl : Linked s.view) (hw : w ∈ s.livingWeak) :
    s.cancelSubscription w ≠ .error f := by
  intro h
  rw [State.cancelSubscription] at h
  split at h
  · cases h
  · rename_i t htarget
    have ht : t ∈ s.living := ((hl.target w hw t).mp htarget).1
    rw [if_pos ht] at h
    cases h

theorem Linked.destroy_error (hl : Linked s.view) (ht : t ∈ s.living)
    (h : s.destroy t = .error f) : ¬ Dangling f := by
  rw [State.destroy] at h
  rcases bind_error h with hdec | ⟨s₁, hdec, h⟩
  · exact decrease_error hdec
  · -- giving up the object leaves both sides of every link
    have hkept : (s₁.ptr t).weakPtrSet = (s.ptr t).weakPtrSet ∧ s₁.livingWeak = s.livingWeak := by
      rcases view_decrease ht hdec with hv | ⟨_, hv⟩
      · exact ⟨congrFun (congrArg View.subscribers hv) t, congrArg View.livingWeak hv⟩
      · exact ⟨congrFun (congrArg View.subscribers hv) t, congrArg View.livingWeak hv⟩
    have hsub : (s₁.ptr t).weakPtrSet ⊆ s₁.livingWeak := by
      rw [hkept.1, hkept.2]
      exact hl.subscribers t ht
    rw [State.resetWeak, if_pos hsub] at h
    cases h

theorem Linked.next_error (hl : Linked s.view) (hd : Declared s e) (h : next s e = .error f) :
    ¬ Dangling f := by
  cases e with
  | copy t u => exact share_error h
  | copyAssign t u =>
    rcases bind_error h with hdec | ⟨s₁, _, h⟩
    · exact decrease_error hdec
    · exact share_error h
  | moveAssign t u =>
    rcases bind_error h with hdec | ⟨s₁, _, h⟩
    · exact decrease_error hdec
    · cases h
  | destroy t => exact hl.destroy_error hd h
  | weakAssign w t =>
    rcases bind_error h with hcancel | ⟨s₁, _, h⟩
    · exact absurd hcancel (hl.cancel_error hd.1)
    · cases h
  | weakDestroy w =>
    rcases bind_error h with hcancel | ⟨s₁, _, h⟩
    · exact absurd hcancel (hl.cancel_error hd)
    · cases h
  | lock w t => exact hl.lock_error hd.1 h
  | _ => cases h

/-- The variables that live and the targets of the `weak_pointer`s are those the steps call for,
both sides of every link agree, and nobody follows a link to something destroyed. -/
theorem links_agree {tr : List (Event σ ω ι κ)}
    (hr : (system fun s e => Declared s e ∧ e.Registers).Run System.always tr s) :
    (s.living = (recorded tr).living ∧ s.livingWeak = (recorded tr).livingWeak ∧
      ∀ w ∈ s.livingWeak, s.sharedPtr w = (recorded tr).target w) ∧
    (∀ w ∈ s.livingWeak, ∀ t, s.sharedPtr w = some t ↔
      t ∈ s.living ∧ w ∈ (s.ptr t).weakPtrSet) ∧
    ∀ e f, Declared s e → e.Registers → next s e = .error f → ¬ Dangling f := by
  have hl := run_linked hr
  have hs := run_shows hr
  refine ⟨⟨hs.living, hs.livingWeak, hs.target⟩, hl.target, ?_⟩
  intro e f hd _ h
  exact hl.next_error hd h

end errors

/-- The `shared_pointer` of name 0 dies with `weak_pointer`s 0 and 1 registered. -/
theorem links_agree_sample : ∃ (tr : List (Event ℕ ℕ ℕ ℕ)) (s : State ℕ ℕ ℕ ℕ),
    (s.livingWeak = {0, 1} ∧ s.sharedPtr 0 = none ∧ s.sharedPtr 1 = none) ∧
    (s.living = (recorded tr).living ∧ s.livingWeak = (recorded tr).livingWeak ∧
      ∀ w ∈ s.livingWeak, s.sharedPtr w = (recorded tr).target w) ∧
    (∀ w ∈ s.livingWeak, ∀ t, s.sharedPtr w = some t ↔
      t ∈ s.living ∧ w ∈ (s.ptr t).weakPtrSet) ∧
    ∀ e f, Declared s e → e.Registers → next s e = .error f → ¬ Dangling f := by
  have hr : ∃ s : State ℕ ℕ ℕ ℕ, (system fun s e => Admitted s e ∧ e.Registers).Run System.always
      [.fromRaw 0 (some 7) 0, .weakDefault 0, .weakAssign 0 0, .weakFrom 1 0, .copy 1 0,
        .move 2 1, .destroy 0] s ∧
      (s.livingWeak = {0, 1} ∧ s.sharedPtr 0 = none ∧ s.sharedPtr 1 = none) := by
    refine ⟨_, System.run_of_exec exec_step ⟨fun _ => ⟨∅, none, none⟩, fun _ => none, rfl⟩ rfl, ?_⟩
    decide
  obtain ⟨s, hr, hs⟩ := hr
  refine ⟨_, s, hs, links_agree (System.run_mono ?_ ?_ (fun _ _ h => h) hr)⟩
  · exact fun s hi => hi
  · exact fun s e s' h => ⟨⟨h.1.1.declared, h.1.2⟩, h.2⟩

end ModCpp.SharedPtr
