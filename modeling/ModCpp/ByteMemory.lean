import Mathlib.Algebra.Group.Nat.Defs
import Mathlib.Data.Nat.Init
import Mathlib.Tactic.Common

/-!
# Byte-addressed memory

Words are stored little-endian over eight bytes. A load sees nothing but its own bytes.
-/

namespace ModCpp

abbrev Memory := ℕ → UInt8

def Apart (w a b : ℕ) : Prop := a + w ≤ b ∨ b + w ≤ a

theorem Apart.symm {w a b : ℕ} (h : Apart w a b) : Apart w b a := Or.symm h

instance (w : ℕ) : Std.Symm (Apart w) := ⟨fun _ _ => Apart.symm⟩

def Memory.fill (m : Memory) (a n : ℕ) (bytes : ℕ → UInt8) : Memory :=
  fun b => if a ≤ b ∧ b < a + n then bytes (b - a) else m b

def Memory.loadBytes (m : Memory) (a : ℕ) : ℕ → ℕ
  | 0 => 0
  | n + 1 => (m a).toNat + 256 * m.loadBytes (a + 1) n

def Memory.storeBytes (m : Memory) (a n v : ℕ) : Memory :=
  m.fill a n fun i => UInt8.ofNat (v / 256 ^ i)

def Memory.loadWord (m : Memory) (a : ℕ) : ℕ := m.loadBytes a 8

def Memory.storeWord (m : Memory) (a v : ℕ) : Memory := m.storeBytes a 8 v

variable {m m' : Memory} {a b n v : ℕ} {bytes : ℕ → UInt8}

theorem loadBytes_congr (h : ∀ i < n, m' (a + i) = m (a + i)) :
    m'.loadBytes a n = m.loadBytes a n := by
  induction n generalizing a with
  | zero => rfl
  | succ n ih =>
    have hrest : m'.loadBytes (a + 1) n = m.loadBytes (a + 1) n := by
      apply ih
      intro i hi
      rw [show a + 1 + i = a + (i + 1) by omega]
      exact h (i + 1) (by omega)
    rw [Memory.loadBytes, Memory.loadBytes, hrest, show m' a = m a from h 0 (by omega)]

theorem fill_of_outside (h : b < a ∨ a + n ≤ b) : m.fill a n bytes b = m b :=
  if_neg (by omega)

theorem fill_of_inside {i : ℕ} (h : i < n) : m.fill a n bytes (a + i) = bytes i := by
  rw [Memory.fill, if_pos (by omega), Nat.add_sub_cancel_left]

theorem loadBytes_storeBytes (hv : v < 256 ^ n) : (m.storeBytes a n v).loadBytes a n = v := by
  induction n generalizing m a v with
  | zero =>
    rw [Nat.pow_zero, Nat.lt_one_iff] at hv
    exact hv.symm
  | succ n ih =>
    have hdiv : v / 256 < 256 ^ n := by
      rw [Nat.pow_succ] at hv
      exact Nat.div_lt_of_lt_mul (by omega)
    have hrest : (m.storeBytes a (n + 1) v).loadBytes (a + 1) n = v / 256 := by
      rw [← ih (m := m) (a := a + 1) hdiv]
      apply loadBytes_congr
      intro i hi
      rw [Memory.storeBytes, Memory.storeBytes, fill_of_inside hi,
        show a + 1 + i = a + (i + 1) by omega, fill_of_inside (by omega), Nat.div_div_eq_div_mul,
        Nat.pow_succ']
    have hfirst : (m.storeBytes a (n + 1) v a).toNat = v % 256 := by
      have hbyte : m.storeBytes a (n + 1) v (a + 0) = UInt8.ofNat (v / 256 ^ 0) :=
        fill_of_inside (by omega)
      change (m.storeBytes a (n + 1) v (a + 0)).toNat = v % 256
      rw [hbyte]
      simp
    rw [Memory.loadBytes, hrest, hfirst]
    omega

theorem loadWord_storeWord (hv : v < 2 ^ 64) : (m.storeWord a v).loadWord a = v :=
  loadBytes_storeBytes hv

theorem loadWord_fill (h : a + 8 ≤ b ∨ b + n ≤ a) : (m.fill b n bytes).loadWord a = m.loadWord a :=
  loadBytes_congr fun _ _ => fill_of_outside (by omega)

theorem loadWord_storeWord_of_apart (h : Apart 8 a b) :
    (m.storeWord b v).loadWord a = m.loadWord a := loadWord_fill h

end ModCpp
