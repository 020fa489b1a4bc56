import ModCpp.WeakPtrRuns

/-!
# Copies of a weak pointer

The implicit copy of a `weak_pointer` has the address that the original stores and is in no
`weak_ptr_set`. Both go on alike until a `shared_pointer` is destroyed which resets only one of
them, or which they look at and which does not know them.
-/

namespace ModCpp.SharedPtr
variable {σ ω ι κ : Type*} {s s' : State σ ω ι κ} {f : ω → Option ω} {t u : σ} {w v : ω}
  {e : Event σ ω ι κ}

section copies
variable [DecidableEq ω]

/-- `w` is no copy any more, and nothing is a copy of it. -/
def forgetCopies (f : ω → Option ω) (w : ω) (x : ω) : Option ω :=
  if x = w ∨ f x = some w then none else f x

theorem forgetCopies_eq_some {x : ω} :
    forgetCopies f w x = some v ↔ f x = some v ∧ x ≠ w ∧ v ≠ w := by
  rw [forgetCopies]
  split_ifs with h
  · refine iff_of_false (by simp) ?_
    intro ⟨hx, hxw, hvw⟩
    rcases h with rfl | h
    · exact hxw rfl
    · rw [hx] at h
      exact hvw (Option.some_inj.mp h)
  · obtain ⟨hxw, hfw⟩ := not_or.mp h
    refine ⟨fun hx => ⟨hx, hxw, ?_⟩, fun hx => hx.1⟩
    intro hvw
    exact hfw (hvw ▸ hx)

/-- The original of each copy, until one of the two is assigned or destroyed. -/
def copied (f : ω → Option ω) : Event σ ω ι κ → ω → Option ω
  | .weakCopy w v => Function.update f w (some v)
  | .weakAssign w _ | .weakCopyAssign w _ | .weakDestroy w => forgetCopies f w
  | _ => f

end copies

/-- A copy stores what its original stores, and that is not destroyed. -/
def Alike (s : State σ ω ι κ) (f : ω → Option ω) : Prop :=
  ∀ w v, f w = some v → s.sharedPtr w = s.sharedPtr v ∧ ∀ t ∈ s.sharedPtr w, t ∈ s.living

/-- What is copied looks at nothing destroyed. A `shared_pointer` that is destroyed resets a
copy and its original or neither of them, and both if they look at it. -/
def ResetsAlike (s : State σ ω ι κ) (f : ω → Option ω) : Event σ ω ι κ → Prop
  | .weakCopy _ v => ∀ t ∈ s.sharedPtr v, t ∈ s.living
  | .destroy t => ∀ w ∈ s.livingWeak, ∀ v ∈ f w, ∀ u ∈ s.sharedPtr w,
      (w ∈ (s.ptr t).weakPtrSet ↔ v ∈ (s.ptr t).weakPtrSet) ∧ (u = t → w ∈ (s.ptr t).weakPtrSet)
  | _ => True

structure Copies (s : State σ ω ι κ) (f : ω → Option ω) : Prop where
  living : ∀ w v, f w = some v → w ∈ s.livingWeak ∧ v ∈ s.livingWeak
  alike : Alike s f

section steps
variable [DecidableEq ω]

/-- A copy was made just now, or it was one before a step that touches neither of the two. -/
theorem Copies.copied_cases (hc : Copies s f) (ha : Declared s e) (h : copied f e w = some v) :
    e = .weakCopy w v ∨ (f w = some v ∧ (¬ e.Retargets w ∧ e ≠ .weakDestroy w) ∧
      ¬ e.Retargets v ∧ e ≠ .weakDestroy v) := by
  have hfresh : ∀ w' ∉ s.livingWeak, f w = some v → w' ≠ w ∧ w' ≠ v := by
    intro w' hw' hfw
    obtain ⟨hw, hv⟩ := hc.living w v hfw
    exact ⟨fun he => hw' (he ▸ hw), fun he => hw' (he ▸ hv)⟩
  cases e with
  | weakDefault w' =>
    obtain ⟨hw, hv⟩ := hfresh w' ha h
    exact .inr ⟨h, ⟨hw, by simp⟩, hv, by simp⟩
  | weakFrom w' t =>
    obtain ⟨hw, hv⟩ := hfresh w' ha.1 h
    exact .inr ⟨h, ⟨hw, by simp⟩, hv, by simp⟩
  | weakCopy w' v' =>
    by_cases hww : w = w'
    · subst hww
      rw [copied, Function.update_self] at h
      cases h
      exact .inl rfl
    · rw [copied, Function.update_of_ne hww] at h
      obtain ⟨hw, hv⟩ := hfresh w' ha.1 h
      exact .inr ⟨h, ⟨hw, by simp⟩, hv, by simp⟩
  | weakAssign w' t =>
    obtain ⟨hfw, hw, hv⟩ := forgetCopies_eq_some.mp h
    exact .inr ⟨hfw, ⟨hw.symm, by simp⟩, hv.symm, by simp⟩
  | weakCopyAssign w' v' =>
    obtain ⟨hfw, hw, hv⟩ := forgetCopies_eq_some.mp h
    exact .inr ⟨hfw, ⟨hw.symm, by simp⟩, hv.symm, by simp⟩
  | weakDestroy w' =>
    obtain ⟨hfw, hw, hv⟩ := forgetCopies_eq_some.mp h
    exact .inr ⟨hfw, ⟨id, by simpa using hw.symm⟩, id, by simpa using hv.symm⟩
  | _ => exact .inr ⟨h, ⟨id, by simp⟩, id, by simp⟩

variable [DecidableEq σ] {V : View σ ω ι κ}

theorem View.living_kept (ht : t ∈ V.living) (hend : e ≠ .destroy t) :
    t ∈ (V.after e).living := by
  cases e with
  | default t' => exact Finset.mem_insert_of_mem ht
  | fromRaw t' data block => exact Finset.mem_insert_of_mem ht
  | copy t' u => exact Finset.mem_insert_of_mem ht
  | move t' u => exact Finset.mem_insert_of_mem ht
  | lock w t' => exact Finset.mem_insert_of_mem ht
  | destroy t' => exact Finset.mem_erase.mpr ⟨fun he => hend (by rw [he]), ht⟩
  | weakAssign w t' =>
    show t ∈ (V.cancel w).living
    rwa [View.cancel_living]
  | weakDestroy w =>
    show t ∈ (V.cancel w).living
    rwa [View.cancel_living]
  | _ => exact ht

theorem View.livingWeak_of_mem (hw : w ∈ V.livingWeak) (hend : e ≠ .weakDestroy w) :
    w ∈ (V.after e).livingWeak := by
  cases e with
  | weakDefault w' => exact Finset.mem_insert_of_mem hw
  | weakFrom w' t => exact Finset.mem_insert_of_mem hw
  | weakCopy w' v => exact Finset.mem_insert_of_mem hw
  | weakCopyAssign w' v => exact Finset.mem_insert_of_mem hw
  | weakAssign w' t =>
    refine Finset.mem_insert_of_mem ?_
    rwa [View.cancel_livingWeak]
  | weakDestroy w' =>
    refine Finset.mem_erase.mpr ⟨fun he => hend (by rw [he]), ?_⟩
    rwa [View.cancel_livingWeak]
  | _ => exact hw

theorem Copies.living_after (hc : Copies s f) (ha : Declared s e) (h : copied f e w = some v) :
    w ∈ (s.view.after e).livingWeak ∧ v ∈ (s.view.after e).livingWeak := by
  rcases hc.copied_cases ha h with rfl | ⟨hfw, ⟨_, hw⟩, _, hv⟩
  · exact ⟨Finset.mem_insert_self .., Finset.mem_insert_of_mem ha.2⟩
  · obtain ⟨hliving, hliving'⟩ := hc.living w v hfw
    exact ⟨View.livingWeak_of_mem hliving hw, View.livingWeak_of_mem hliving' hv⟩

theorem Copies.alike_after (hc : Copies s f) (ha : Declared s e) (hcond : ResetsAlike s f e)
    (h : copied f e w = some v) : (s.view.after e).target w = (s.view.after e).target v ∧
      ∀ t ∈ (s.view.after e).target w, t ∈ (s.view.after e).living := by
  rcases hc.copied_cases ha h with rfl | ⟨hfw, ⟨hw, _⟩, hv, _⟩
  · have hwv : v ≠ w := fun he => ha.1 (he ▸ ha.2)
    have htarget : (s.view.after (.weakCopy w v)).target w = s.sharedPtr v :=
      Function.update_self ..
    rw [htarget]
    exact ⟨(Function.update_of_ne hwv ..).symm, hcond⟩
  · obtain ⟨hsame, hliving⟩ := hc.alike w v hfw
    by_cases hdestroy : ∃ t, e = .destroy t
    · obtain ⟨t, rfl⟩ := hdestroy
      have hafter : ∀ x, (s.view.after (.destroy t)).target x =
          if x ∈ (s.ptr t).weakPtrSet then none else s.sharedPtr x := fun _ => rfl
      rw [hafter, hafter, ← hsame]
      cases htarget : s.sharedPtr w with
      | none => simp
      | some u =>
        obtain ⟨hiff, hreg⟩ := hcond w (hc.living w v hfw).1 v hfw u htarget
        by_cases hmem : w ∈ (s.ptr t).weakPtrSet
        · rw [if_pos hmem, if_pos (hiff.mp hmem)]
          simp
        · rw [if_neg hmem, if_neg fun hv => hmem (hiff.mpr hv)]
          refine ⟨rfl, ?_⟩
          intro u' hu'
          cases hu'
          refine Finset.mem_erase.mpr ⟨fun hut => hmem (hreg hut), ?_⟩
          exact hliving u htarget
    · have hnot : ∀ t, e ≠ .destroy t := fun t he => hdestroy ⟨t, he⟩
      rw [View.target_kept hw fun t he => absurd he (hnot t),
        View.target_kept hv fun t he => absurd he (hnot t)]
      exact ⟨hsame, fun t ht => View.living_kept (hliving t ht) (hnot t)⟩

theorem Copies.resetsAlike (hc : Copies s f)
    (h : ∀ w v, copied f e w = some v →
      (s.view.after e).target w = (s.view.after e).target v ∧
        ∀ t ∈ (s.view.after e).target w, t ∈ (s.view.after e).living) : ResetsAlike s f e := by
  cases e with
  | weakCopy w v =>
    have hliving := (h w v (Function.update_self ..)).2
    rwa [show (s.view.after (.weakCopy w v)).target w = s.sharedPtr v from
      Function.update_self ..] at hliving
  | destroy t =>
    intro w _ v hfw u hu
    have hafter : ∀ x, (s.view.after (.destroy t)).target x =
        if x ∈ (s.ptr t).weakPtrSet then none else s.sharedPtr x := fun _ => rfl
    have hu : s.sharedPtr w = some u := hu
    obtain ⟨hsame, hliving⟩ := h w v hfw
    rw [hafter, hafter, ← (hc.alike w v hfw).1, hu] at hsame
    constructor
    · by_cases hw : w ∈ (s.ptr t).weakPtrSet
      · by_cases hv : v ∈ (s.ptr t).weakPtrSet
        · exact iff_of_true hw hv
        · simp [hw, hv] at hsame
      · by_cases hv : v ∈ (s.ptr t).weakPtrSet
        · simp [hw, hv] at hsame
        · exact iff_of_false hw hv
    · intro hut
      by_contra hw
      rw [hafter, if_neg hw, hu, hut] at hliving
      exact Finset.notMem_erase t _ (hliving t rfl)
  | _ => trivial

end steps

section runs
variable [DecidableEq σ] [DecidableEq ω] [DecidableEq ι] [DecidableEq κ]

def copySystem : System (State σ ω ι κ × (ω → Option ω)) (Event σ ω ι κ) where
  init p := (system Declared).init p.1 ∧ p.2 = fun _ => none
  step p e p' := Declared p.1 e ∧ next p.1 e = .ok p'.1 ∧ p'.2 = copied p.2 e

def copyExec (p : State σ ω ι κ × (ω → Option ω)) (e : Event σ ω ι κ) :
    Option (State σ ω ι κ × (ω → Option ω)) :=
  if Admitted p.1 e then (next p.1 e).toOption.map fun s => (s, copied p.2 e) else none

theorem copyExec_step (p : State σ ω ι κ × (ω → Option ω)) (e : Event σ ω ι κ)
    (p' : State σ ω ι κ × (ω → Option ω)) (h : copyExec p e = some p') :
    copySystem.step p e p' := by
  rw [copyExec] at h
  split_ifs at h with ha
  cases hn : next p.1 e with
  | ok s =>
    rw [hn] at h
    cases h
    exact ⟨ha.declared, hn, rfl⟩
  | error f =>
    rw [hn] at h
    cases h

theorem copy_init : (copySystem (σ := σ) (ι := ι) (κ := κ)).init
    (⟨∅, fun _ => ⟨∅, none, none⟩, ∅, fun _ => none, fun _ => none, ∅, [], []⟩,
      fun _ : ω => none) := ⟨⟨_, _, rfl⟩, rfl⟩

theorem Copies.next (hc : Copies s f) (ha : Declared s e) (hcond : ResetsAlike s f e)
    (h : next s e = .ok s') : Copies s' (copied f e) := by
  constructor
  · intro w v hfw
    rw [show s'.livingWeak = (s.view.after e).livingWeak from
      congrArg View.livingWeak (view_next ha h)]
    exact hc.living_after ha hfw
  · intro w v hfw
    have hafter := hc.alike_after ha hcond hfw
    rw [← view_next ha h] at hafter
    exact hafter

theorem Copies.not_alike (hc : Copies s f) (ha : Declared s e) (hcond : ¬ ResetsAlike s f e)
    (h : SharedPtr.next s e = .ok s') : ¬ Alike s' (copied f e) := by
  intro hall
  refine hcond (hc.resetsAlike ?_)
  rw [← view_next ha h]
  exact hall

/-- Copies stay like their originals in exactly the runs that reset alike. -/
theorem copies_alike {tr : List (Event σ ω ι κ)} {p : State σ ω ι κ × (ω → Option ω)} :
    copySystem.Throughout System.always (fun p => Alike p.1 p.2) tr p ↔
      (copySystem.restrict fun p e => ResetsAlike p.1 p.2 e).Run System.always tr p := by
  have hinit : ∀ p : State σ ω ι κ × (ω → Option ω), copySystem.init p → Copies p.1 p.2 := by
    intro p hp
    constructor
    · intro w v hw
      rw [hp.2] at hw
      cases hw
    · intro w v hw
      rw [hp.2] at hw
      cases hw
  refine System.throughout_iff hinit (fun _ hc => hc.alike) ?_ ?_
  · intro _ p e p' hc _ hstep hcond
    rw [hstep.2.2]
    exact hc.next hstep.1 hcond hstep.2.1
  · intro _ p e p' hc _ hstep hcond
    rw [hstep.2.2]
    exact hc.not_alike hstep.1 hcond hstep.2.1

/-- The `shared_pointer` dies and resets the original alone. -/
theorem copies_alike_fails : ¬ ∀ (tr : List (Event ℕ ℕ ℕ ℕ)) (p : State ℕ ℕ ℕ ℕ × (ℕ → Option ℕ)),
    copySystem.Run System.always tr p → Alike p.1 p.2 := by
  intro hall
  have hr : ∃ p : State ℕ ℕ ℕ ℕ × (ℕ → Option ℕ), copySystem.Run System.always
      [.fromRaw 0 (some 7) 0, .weakFrom 0 0, .weakCopy 1 0, .destroy 0] p ∧
      p.2 1 = some 0 ∧ p.1.sharedPtr 0 = none ∧ p.1.sharedPtr 1 = some 0 := by
    refine ⟨_, System.run_of_exec copyExec_step copy_init rfl, ?_, ?_, ?_⟩
    all_goals decide
  obtain ⟨p, hr, hcopy, horiginal, htarget⟩ := hr
  have hsame := (hall _ p hr 1 0 hcopy).1
  rw [horiginal, htarget] at hsame
  cases hsame

end runs
end ModCpp.SharedPtr
