import Mathlib.Data.Fintype.Basic
import Mathlib.Data.Nat.Count
import ModCpp.FiberCount
import ModCpp.ModularWindow

/-!
# Tickets modulo a capacity

Tickets are handed out in order and called in order, but both counters, and the tickets that the
members keep, are known modulo a capacity only. Two members may keep the same number then, and
it does not matter which of them goes first.
-/

namespace ModCpp
variable {τ : Type*} [Fintype τ] {n next serving : ℕ} {slot : τ → Option ℕ} {t : τ}

/-- As many members keep a number as tickets with that number are out. -/
def Ticketed (n next serving : ℕ) (slot : τ → Option ℕ) : Prop :=
  ∃ handed called, next = handed % n ∧ serving = called % n ∧
    ∀ r, holderCount Finset.univ slot r + Nat.count (· % n = r) called =
      Nat.count (· % n = r) handed

namespace Ticketed

theorem init (n : ℕ) : Ticketed n 0 0 (fun _ : τ => none) := by
  refine ⟨0, 0, (Nat.zero_mod n).symm, (Nat.zero_mod n).symm, ?_⟩
  intro r
  rw [holderCount_eq_zero.mpr (by simp), Nat.zero_add]

/-- Where some ticket is out, a member can be called. -/
theorem exists_next (h : Ticketed n next serving slot) (ht : slot t ≠ none) :
    ∃ u, slot u = some serving := by
  obtain ⟨handed, called, rfl, rfl, hcount⟩ := h
  obtain ⟨r, hr⟩ := Option.ne_none_iff_exists'.mp ht
  have hpos : 0 < holderCount Finset.univ slot r :=
    holderCount_pos.mpr ⟨t, Finset.mem_univ t, hr⟩
  have hlt : called < handed := by
    apply Nat.lt_of_count_lt_count (p := (· % n = r))
    have := hcount r
    omega
  have hnext : 0 < holderCount Finset.univ slot (called % n) := by
    have := Nat.count_strict_mono (p := (· % n = called % n)) rfl hlt
    have := hcount (called % n)
    omega
  obtain ⟨u, -, hu⟩ := holderCount_pos.mp hnext
  exact ⟨u, hu⟩

variable [DecidableEq τ]

theorem claim (h : Ticketed n next serving slot) (ht : slot t = none) :
    Ticketed n ((next + 1) % n) serving (Function.update slot t (some next)) := by
  obtain ⟨handed, called, rfl, rfl, hcount⟩ := h
  refine ⟨handed + 1, called, mod_succ handed n, rfl, ?_⟩
  intro r
  have hupd := holderCount_update_mem (f := slot) (b := r) (v := some (handed % n))
    (Finset.mem_univ t)
  rw [ht, if_neg (Option.some_ne_none r).symm, Nat.add_zero] at hupd
  have := hcount r
  rw [hupd, Nat.count_succ]
  simp only [Option.some_inj]
  omega

theorem release (h : Ticketed n next serving slot) (ht : slot t = some serving) :
    Ticketed n next ((serving + 1) % n) (Function.update slot t none) := by
  obtain ⟨handed, called, rfl, rfl, hcount⟩ := h
  refine ⟨handed, called + 1, rfl, mod_succ called n, ?_⟩
  intro r
  have hupd := holderCount_update_mem (f := slot) (b := r) (v := none) (Finset.mem_univ t)
  rw [ht, if_neg (Option.some_ne_none r).symm, Nat.add_zero] at hupd
  have := hcount r
  rw [Nat.count_succ]
  simp only [Option.some_inj] at hupd
  omega

end Ticketed
end ModCpp
