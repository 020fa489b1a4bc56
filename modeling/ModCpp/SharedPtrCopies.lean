import ModCpp.SharedPtrOwners

/-!
# Copies of shared pointers

A copy counts its source's control block up without a look at whether there is one, and an
assignment first gives up what the destination held, also when that is the source itself.
-/

namespace ModCpp.SharedPtr
variable {σ ω ι κ : Type*} {s s' : State σ ω ι κ} {A : Finset σ} {t u : σ} {w : ω} {b : κ}
  {x : ι} {e : Event σ ω ι κ}

/-- What a copy to `t` leaves: `t` and its source, if it has one, hold what the source held, and
what was deleted has no owner. -/
structure Copied [DecidableEq ι] (s s' : State σ ω ι κ) (t : σ) (source : Option σ) : Prop where
  data : (s'.ptr t).data = source.bind fun u => (s.ptr u).data
  metadata : (s'.ptr t).metadata = source.bind fun u => (s.ptr u).metadata
  source : ∀ u ∈ source, (s'.ptr u).data = (s.ptr u).data ∧
    (s'.ptr u).metadata = (s.ptr u).metadata
  alive : ∀ x ∈ (s'.ptr t).data, x ∈ s'.objects
  deleted : ∀ x ∈ s'.deletedData, x ∉ s.deletedData → owners s'.living s' x = 0

theorem Owned.copied [DecidableEq σ] [DecidableEq ι] {source : Option σ}
    (ho : Owned s'.living s') (ht : t ∈ s'.living)
    (hheld : s'.view.held t = source.elim (none, none) s.view.held)
    (hsource : ∀ u ∈ source, u ∈ s.living ∧ u ∈ s'.living ∧ s'.view.held u = s.view.held u) :
    Copied s s' t source := by
  have hpair := pair_mem_pairs (s := s') ht
  rw [held_of_mem ht] at hheld
  refine ⟨?_, ?_, ?_, ?_, ?_⟩
  · cases source with
    | none => exact congrArg Prod.fst hheld
    | some u =>
      rw [Option.elim_some, held_of_mem (hsource u rfl).1] at hheld
      exact congrArg Prod.fst hheld
  · cases source with
    | none => exact congrArg Prod.snd hheld
    | some u =>
      rw [Option.elim_some, held_of_mem (hsource u rfl).1] at hheld
      exact congrArg Prod.snd hheld
  · intro u hu
    obtain ⟨hliving, hliving', hsame⟩ := hsource u hu
    rw [held_of_mem hliving, held_of_mem hliving'] at hsame
    exact Prod.mk.inj hsame
  · intro x hx
    rw [Option.mem_def.mp hx] at hpair
    exact ho.mem_objects hpair
  · intro x hx _
    have hgone := mt (ho.objects x).mpr (ho.gone x hx)
    omega

section success
variable [DecidableEq σ] [DecidableEq κ]

variable [DecidableEq ι]

end success

section copies
variable [DecidableEq σ] [DecidableEq ω] [DecidableEq ι] [DecidableEq κ]

end copies

end ModCpp.SharedPtr
