import Mathlib.Data.Nat.ModEq
import Mathlib.Tactic.Common

/-!
# Counters seen modulo a capacity

Inside a window of `n` consecutive numbers a residue modulo `n` determines the number.
-/

namespace ModCpp

theorem eq_of_mod_eq {n a b : ℕ} (hle : a ≤ b) (hlt : b < a + n) (h : a % n = b % n) : a = b := by
  have hd : n ∣ b - a := (Nat.modEq_iff_dvd' hle).mp h
  have hz : b - a = 0 := Nat.eq_zero_of_dvd_of_lt hd (by omega)
  omega

theorem eq_of_mod_eq_of_mem {n lo a b : ℕ} (ha : lo ≤ a) (ha' : a < lo + n) (hb : lo ≤ b)
    (hb' : b < lo + n) (h : a % n = b % n) : a = b := by
  rcases le_total a b with hle | hle
  · exact eq_of_mod_eq hle (by omega) h
  · exact (eq_of_mod_eq hle (by omega) h.symm).symm

theorem mod_succ (a n : ℕ) : (a % n + 1) % n = (a + 1) % n := Nat.mod_add_mod a n 1

/-- Writing a ring of `n` places keeps the other numbers of a window. -/
theorem update_mod_of_ne {β : Type*} {ring : ℕ → β} {x : β} {n lo a b : ℕ} (ha : lo ≤ a)
    (ha' : a < lo + n) (hb : lo ≤ b) (hb' : b < lo + n) (hne : b ≠ a) :
    Function.update ring (a % n) x (b % n) = ring (b % n) :=
  Function.update_of_ne (fun h => hne (eq_of_mod_eq_of_mem hb hb' ha ha' h)) ..

end ModCpp
