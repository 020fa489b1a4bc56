import Mathlib.Logic.Function.Basic
import Mathlib.Tactic.Common

/-!
# Handles that own alone

Each handle holds a resource or nothing. What is kept when a handle gets a new resource, gives
up what it holds, or takes over what another one holds.
-/

namespace ModCpp.Handles
variable {σ ρ : Type*} {own : σ → Option ρ} {x y : σ} {r r' : ρ}

def Exclusive (own : σ → Option ρ) : Prop := ∀ x y r, own x = some r → own y = some r → x = y

def Held (own : σ → Option ρ) (r : ρ) : Prop := ∃ x, own x = some r

theorem exclusive_none : Exclusive fun _ : σ => (none : Option ρ) := by
  intro x y r hx
  cases hx

theorem not_held_none : ¬ Held (fun _ : σ => (none : Option ρ)) r := by
  rintro ⟨x, hx⟩
  cases hx

variable [DecidableEq σ]

def acquire (own : σ → Option ρ) (x : σ) (r : ρ) : σ → Option ρ := Function.update own x (some r)

def drop (own : σ → Option ρ) (x : σ) : σ → Option ρ := Function.update own x none

/-- What `x` held before is given up. -/
def transfer (own : σ → Option ρ) (x y : σ) : σ → Option ρ :=
  Function.update (Function.update own y none) x (own y)

theorem drop_of_none (hx : own x = none) : drop own x = own :=
  Function.update_eq_self_iff.mpr hx.symm

theorem acquire_apply (z : σ) : acquire own x r z = if z = x then some r else own z :=
  Function.update_apply ..

theorem drop_apply (z : σ) : drop own x z = if z = x then none else own z :=
  Function.update_apply ..

theorem transfer_apply (z : σ) :
    transfer own x y z = if z = x then own y else if z = y then none else own z := by
  rw [transfer, Function.update_apply, Function.update_apply]

theorem held_acquire (hx : own x = none) : Held (acquire own x r) r' ↔ r' = r ∨ Held own r' := by
  constructor
  · rintro ⟨z, hz⟩
    rw [acquire_apply] at hz
    split_ifs at hz with hzx
    · exact .inl (Option.some_inj.mp hz).symm
    · exact .inr ⟨z, hz⟩
  · rintro (rfl | ⟨z, hz⟩)
    · exact ⟨x, Function.update_self ..⟩
    · refine ⟨z, ?_⟩
      rw [acquire_apply, if_neg, hz]
      rintro rfl
      rw [hx] at hz
      cases hz

theorem Exclusive.acquire (h : Exclusive own) (hr : ¬ Held own r) :
    Exclusive (acquire own x r) := by
  intro z w r' hz hw
  rw [acquire_apply] at hz hw
  split_ifs at hz hw with hzx hwx hwx
  · rw [hzx, hwx]
  · cases hz
    exact absurd ⟨w, hw⟩ hr
  · cases hw
    exact absurd ⟨z, hz⟩ hr
  · exact h z w r' hz hw

theorem Exclusive.drop (h : Exclusive own) : Exclusive (drop own x) := by
  intro z w r' hz hw
  rw [drop_apply] at hz hw
  split_ifs at hz hw
  exact h z w r' hz hw

theorem Exclusive.held_drop (h : Exclusive own) :
    Held (Handles.drop own x) r ↔ Held own r ∧ own x ≠ some r := by
  constructor
  · rintro ⟨z, hz⟩
    rw [drop_apply] at hz
    split_ifs at hz with hzx
    exact ⟨⟨z, hz⟩, fun hx => hzx (h z x r hz hx)⟩
  · rintro ⟨⟨z, hz⟩, hx⟩
    refine ⟨z, ?_⟩
    rw [drop_apply, if_neg, hz]
    rintro rfl
    exact hx hz

theorem Exclusive.transfer (h : Exclusive own) : Exclusive (transfer own x y) := by
  intro z w r' hz hw
  rw [transfer_apply] at hz hw
  split_ifs at hz hw with hzx hwx hwy hzy hwx hwy
  · rw [hzx, hwx]
  · exact absurd (h y w r' hz hw).symm hwy
  · exact absurd (h z y r' hz hw) hzy
  · exact h z w r' hz hw

theorem Exclusive.held_transfer (h : Exclusive own) (hne : x ≠ y) :
    Held (Handles.transfer own x y) r ↔ Held own r ∧ own x ≠ some r := by
  constructor
  · rintro ⟨z, hz⟩
    rw [transfer_apply] at hz
    split_ifs at hz with hzx hzy
    · exact ⟨⟨y, hz⟩, fun hx => hne (h x y r hx hz)⟩
    · exact ⟨⟨z, hz⟩, fun hx => hzx (h z x r hz hx)⟩
  · rintro ⟨⟨z, hz⟩, hx⟩
    by_cases hzy : z = y
    · refine ⟨x, ?_⟩
      rw [transfer_apply, if_pos rfl, ← hzy, hz]
    · refine ⟨z, ?_⟩
      rw [transfer_apply, if_neg, if_neg hzy, hz]
      rintro rfl
      exact hx hz

end ModCpp.Handles
