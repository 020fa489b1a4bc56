import ModCpp.SharedPtrOwners

/-!
# Subscriptions

As long as no `weak_pointer` is copied from another, a `weak_pointer` and the `shared_pointer`
it looks at know of each other.
-/

namespace ModCpp.SharedPtr
variable {σ ω ι κ : Type*} {s : State σ ω ι κ} {v : View σ ω ι κ} {t : σ} {w : ω}
  {p : Option ι × Option κ} {e : Event σ ω ι κ}

/-- A step that copies a `weak_pointer` member by member does not register the copy. -/
def Event.Registers : Event σ ω ι κ → Prop
  | .weakCopy .. | .weakCopyAssign .. => False
  | _ => True

instance : ∀ e : Event σ ω ι κ, Decidable e.Registers
  | .weakCopy .. | .weakCopyAssign .. => .isFalse id
  | .default _ | .fromRaw .. | .copy .. | .copyAssign .. | .move .. | .moveAssign .. | .destroy _
  | .weakDefault _ | .weakFrom .. | .weakAssign .. | .weakDestroy _ | .lock .. => .isTrue trivial

theorem View.cancel_living [DecidableEq σ] [DecidableEq ω] : (v.cancel w).living = v.living := by
  rw [View.cancel]
  split <;> rfl

/-- A living `weak_pointer` looks at the living `shared_pointer` it is registered with. -/
structure Linked (v : View σ ω ι κ) : Prop where
  target : ∀ w ∈ v.livingWeak, ∀ t, v.target w = some t ↔ t ∈ v.living ∧ w ∈ v.subscribers t
  subscribers : ∀ t ∈ v.living, v.subscribers t ⊆ v.livingWeak

/-- All others are linked, and `w` is registered nowhere. -/
structure Unlinked (v : View σ ω ι κ) (w : ω) : Prop where
  target : ∀ w' ∈ v.livingWeak, w' ≠ w →
    ∀ t, v.target w' = some t ↔ t ∈ v.living ∧ w' ∈ v.subscribers t
  subscribers : ∀ t ∈ v.living, ∀ w' ∈ v.subscribers t, w' ∈ v.livingWeak ∧ w' ≠ w

namespace Linked

theorem unlinked (hl : Linked v) (hw : w ∉ v.livingWeak) : Unlinked v w := by
  refine ⟨fun w' hw' _ => hl.target w' hw', ?_⟩
  intro t ht w' hw'
  have hmem := hl.subscribers t ht hw'
  exact ⟨hmem, fun he => hw (he ▸ hmem)⟩

variable [DecidableEq σ]

theorem hold (hl : Linked v) : Linked (v.hold t p) := ⟨hl.target, hl.subscribers⟩

theorem create (hl : Linked v) (ht : t ∉ v.living) : Linked (v.create t p) := by
  constructor
  · intro w hw u
    have hiff := hl.target w hw u
    by_cases hut : u = t
    · subst hut
      simp only [View.create, Function.update_self, Finset.notMem_empty, and_false, iff_false]
      exact fun he => ht (hiff.mp he).1
    · simp only [View.create, Function.update_of_ne hut, Finset.mem_insert, hut, false_or]
      exact hiff
  · intro u hu
    by_cases hut : u = t
    · subst hut
      simp [View.create]
    · simp only [View.create, Function.update_of_ne hut]
      exact hl.subscribers u (Finset.mem_of_mem_insert_of_ne hu hut)

variable [DecidableEq ω]

theorem destroy (hl : Linked v) (ht : t ∈ v.living) : Linked (v.destroy t) := by
  constructor
  · intro w hw u
    have hiff := hl.target w hw
    simp only [View.destroy, Finset.mem_erase]
    by_cases hut : u = t
    · subst hut
      simp only [ne_eq, not_true_eq_false, false_and, iff_false]
      split_ifs with hmem
      · simp
      · exact fun he => hmem ((hiff u).mp he).2
    · rw [Function.update_of_ne hut]
      split_ifs with hmem
      · -- `w` is registered with `t` alone
        have htarget := (hiff t).mpr ⟨ht, hmem⟩
        refine iff_of_false (by simp) ?_
        intro hu
        have hother := (hiff u).mpr ⟨hu.1.2, hu.2⟩
        rw [htarget] at hother
        exact hut (Option.some_inj.mp hother).symm
      · simp only [ne_eq, hut, not_false_eq_true, true_and]
        exact hiff u
  · intro u hu
    obtain ⟨hut, hu⟩ := Finset.mem_erase.mp hu
    simp only [View.destroy, Function.update_of_ne hut]
    exact hl.subscribers u hu

theorem cancel (hl : Linked v) (hw : w ∈ v.livingWeak) : Unlinked (v.cancel w) w := by
  cases htarget : v.target w with
  | none =>
    rw [View.cancel, htarget]
    refine ⟨fun w' hw' _ => hl.target w' hw', ?_⟩
    intro t ht w' hw'
    refine ⟨hl.subscribers t ht hw', ?_⟩
    intro he
    have hsome := (hl.target w hw t).mpr ⟨ht, he ▸ hw'⟩
    rw [htarget] at hsome
    cases hsome
  | some u =>
    rw [View.cancel, htarget]
    constructor
    · intro w' hw' hne t
      have hiff := hl.target w' hw' t
      by_cases htu : t = u
      · subst htu
        simpa [hne] using hiff
      · simpa [htu] using hiff
    · intro t ht w' hw'
      by_cases htu : t = u
      · subst htu
        simp only [Function.update_self, Finset.mem_erase] at hw'
        exact ⟨hl.subscribers t ht hw'.2, hw'.1⟩
      · simp only [Function.update_of_ne htu] at hw'
        refine ⟨hl.subscribers t ht hw', ?_⟩
        intro he
        have hsome := (hl.target w hw t).mpr ⟨ht, he ▸ hw'⟩
        rw [htarget] at hsome
        exact htu (Option.some_inj.mp hsome).symm

end Linked

namespace Unlinked
variable [DecidableEq ω]

theorem forget (hu : Unlinked v w) : Linked (v.forget w) := by
  constructor
  · intro w' hw'
    obtain ⟨hne, hw'⟩ := Finset.mem_erase.mp hw'
    exact hu.target w' hw' hne
  · intro t ht w' hw'
    obtain ⟨hmem, hne⟩ := hu.subscribers t ht w' hw'
    exact Finset.mem_erase.mpr ⟨hne, hmem⟩

theorem aim_none (hu : Unlinked v w) : Linked (v.aim w none) := by
  constructor
  · intro w' hw' t
    by_cases hne : w' = w
    · subst hne
      simp only [View.aim, Function.update_self, reduceCtorEq, false_iff]
      exact fun h => (hu.subscribers t h.1 w' h.2).2 rfl
    · simp only [View.aim, Function.update_of_ne hne]
      exact hu.target w' (Finset.mem_of_mem_insert_of_ne hw' hne) hne t
  · intro t ht w' hw'
    exact Finset.mem_insert_of_mem (hu.subscribers t ht w' hw').1

theorem subscribe [DecidableEq σ] (hu : Unlinked v w) (ht : t ∈ v.living) :
    Linked ((v.aim w (some t)).subscribe t w) := by
  constructor
  · intro w' hw' u
    by_cases hne : w' = w
    · subst hne
      simp only [View.aim, View.subscribe, Function.update_self, Option.some_inj]
      by_cases hut : u = t
      · subst hut
        simp [ht]
      · simp only [Function.update_of_ne hut]
        exact iff_of_false (Ne.symm hut) fun h => (hu.subscribers u h.1 w' h.2).2 rfl
    · have hiff := hu.target w' (Finset.mem_of_mem_insert_of_ne hw' hne) hne u
      simp only [View.aim, View.subscribe, Function.update_of_ne hne]
      by_cases hut : u = t
      · subst hut
        simpa [hne] using hiff
      · simpa [hut] using hiff
  · intro u hu' w' hw'
    by_cases hne : w' = w
    · subst hne
      exact Finset.mem_insert_self ..
    · refine Finset.mem_insert_of_mem (hu.subscribers u hu' w' ?_).1
      by_cases hut : u = t
      · subst hut
        simpa [View.subscribe, View.aim, hne] using hw'
      · simpa [View.subscribe, View.aim, hut] using hw'

end Unlinked

theorem Linked.after [DecidableEq σ] [DecidableEq ω] (hl : Linked s.view) (ha : Declared s e)
    (hr : e.Registers) : Linked (s.view.after e) := by
  cases e with
  | default t => exact hl.create ha
  | fromRaw t data block => exact hl.create ha.1
  | copy t u => exact hl.create ha.1
  | copyAssign t u => exact hl.hold
  | move t u => exact (hl.create ha.1).hold
  | moveAssign t u => exact hl.hold.hold
  | destroy t => exact hl.destroy ha
  | weakDefault w => exact (hl.unlinked ha).aim_none
  | weakFrom w t => exact (hl.unlinked ha.1).subscribe ha.2
  | weakCopy w w' => exact hr.elim
  | weakAssign w t => exact (hl.cancel ha.1).subscribe (by rw [View.cancel_living]; exact ha.2)
  | weakCopyAssign w w' => exact hr.elim
  | weakDestroy w => exact (hl.cancel ha).forget
  | lock w t => exact hl.create ha.2

theorem run_linked [DecidableEq σ] [DecidableEq ω] [DecidableEq ι] [DecidableEq κ]
    {tr : List (Event σ ω ι κ)}
    (hr : (system fun s e => Declared s e ∧ e.Registers).Run System.always tr s) :
    Linked s.view := by
  refine System.run_invariant (P := fun _ s => Linked s.view) ?_ ?_ hr
  · intro s hs
    obtain ⟨ptr, sharedPtr, rfl⟩ := hs
    exact ⟨by simp [State.view], by simp [State.view]⟩
  · intro tr s e s' _ hl _ hstep
    rw [view_next hstep.1.1 hstep.2]
    exact hl.after hstep.1.1 hstep.1.2

end ModCpp.SharedPtr
