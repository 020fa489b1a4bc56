import Mathlib.Logic.Function.Basic
import ModCpp.MachineWord
import ModCpp.PrimeSieve

/-!
# `filter_primes` (`keyword.cc`)

`N` and the loop variables are `int` values that are never negative. An element of `is_primes`
is an `int` and true if it is not 0.
-/

namespace ModCpp.FilterPrimes
open PrimeSieve

section code
variable (N : ℕ)

/-- `is_primes[i]` in an array of `N + 1` elements. -/
def get (isPrimes : ℕ → ℤ) (i : ℕ) : Loop ℤ :=
  if i < N + 1 then pure (isPrimes i) else throw (.undefined "index out of range")

def set (isPrimes : ℕ → ℤ) (i : ℕ) (val : ℤ) : Loop (ℕ → ℤ) :=
  if i < N + 1 then pure (Function.update isPrimes i val)
  else throw (.undefined "index out of range")

/-- The inner loop from `j` on. -/
def strike (i : ℕ) : ℕ → ℕ → (ℕ → ℤ) → Loop (ℕ → ℤ)
  | 0, _, _ => running
  | fuel + 1, j, isPrimes =>
    if j ≤ N then do
      let isPrimes ← set N isPrimes j 0
      let j ← int (j + i)
      strike i fuel j isPrimes
    else pure isPrimes

/-- The body of the outer loop; a number that is struck out has no round. -/
def round (i : ℕ) (isPrimes : ℕ → ℤ) : Loop (ℕ → ℤ) := do
  let val ← get N isPrimes i
  if val = 0 then pure isPrimes
  else do
    let j ← int (i + i)
    strike N i (N + 1) j isPrimes

/-- The outer loop from `i` on. -/
def rounds : ℕ → ℕ → (ℕ → ℤ) → Loop (ℕ → ℤ)
  | 0, _, _ => running
  | fuel + 1, i, isPrimes =>
    if i ≤ N then do
      let isPrimes ← round N i isPrimes
      let i ← int (i + 1)
      rounds fuel i isPrimes
    else pure isPrimes

def filterPrimes : Loop (ℕ → ℤ) := do
  let _ ← int (N + 1)
  let isPrimes ← rounds N N 2 fun _ => 1
  set N isPrimes 1 0

end code

section spec
variable {N i j k : ℕ} {a : ℕ → ℤ}

theorem get_of (hi : i ≤ N) : get N a i = pure (a i) := if_pos (by omega)

theorem set_of (hi : i ≤ N) (val : ℤ) : set N a i val = pure (Function.update a i val) :=
  if_pos (by omega)

theorem strike_spec (fuel : ℕ) (hi : 1 ≤ i) (hint : N + i < 2 ^ 31) (hfuel : N + 2 ≤ j + fuel)
    (hpos : 0 < fuel) (hdvd : i ∣ j) : ∃ a', strike N i fuel j a = pure a' ∧
      ∀ k, a' k = if i ∣ k ∧ j ≤ k ∧ k ≤ N then 0 else a k := by
  induction fuel generalizing j a with
  | zero => omega
  | succ fuel ih =>
    rw [strike]
    by_cases hj : j ≤ N
    · rw [if_pos hj, set_of hj, pure_bind, int_of_lt (by omega), pure_bind]
      obtain ⟨a', hstrike, ha'⟩ := @ih (j + i) (Function.update a j 0) (by omega) (by omega)
        ((Nat.dvd_add_right hdvd).mpr dvd_rfl)
      refine ⟨a', hstrike, fun k => ?_⟩
      rw [ha' k]
      by_cases hk : k = j
      · subst hk
        simp [hdvd, hj]
      · -- the next multiple after `j` is `j + i`
        have hnext : i ∣ k → (j ≤ k ↔ j + i ≤ k) := by
          intro hik
          constructor
          · intro hle
            have hsub := Nat.le_of_dvd (by omega) (Nat.dvd_sub hik hdvd)
            omega
          · omega
        rw [Function.update_of_ne hk]
        by_cases hik : i ∣ k
        · simp only [hnext hik]
        · simp only [hik, false_and, if_false]
    · rw [if_neg hj]
      refine ⟨a, rfl, fun k => (if_neg ?_).symm⟩
      omega

/-- The sieve before the round of `i`; index 0 is never struck out. -/
structure Sieved (N i : ℕ) (a : ℕ → ℤ) : Prop where
  zero : a 0 ≠ 0
  survives : ∀ k, 1 ≤ k → k ≤ N → (a k ≠ 0 ↔ Survives i k)

theorem Sieved.strike {a' : ℕ → ℤ} (hs : Sieved N i a) (h2 : 2 ≤ i) (hi : i.Prime)
    (ha' : ∀ k, a' k = if i ∣ k ∧ i + i ≤ k ∧ k ≤ N then 0 else a k) : Sieved N (i + 1) a' := by
  constructor
  · rw [ha' 0, if_neg (by omega)]
    exact hs.zero
  · intro k h1 hk
    rw [survives_succ_of_prime hi, ← hs.survives k h1 hk, ha' k]
    by_cases hdvd : i ∣ k
    · by_cases heq : i = k
      · rw [if_neg (by omega)]
        simp [heq]
      · obtain ⟨m, rfl⟩ := hdvd
        have hm : 2 ≤ m := by
          by_contra hlt
          have hcases : m = 0 ∨ m = 1 := by omega
          rcases hcases with rfl | rfl
          · simp at h1
          · simp at heq
        have hle : i + i ≤ i * m := by
          calc i + i = i * 2 := (Nat.mul_two i).symm
            _ ≤ i * m := Nat.mul_le_mul_left i hm
        rw [if_pos ⟨dvd_mul_right i m, hle, hk⟩]
        simp [heq]
    · rw [if_neg fun h => hdvd h.1]
      simp [hdvd]

theorem Sieved.skip (hs : Sieved N i a) (hi : ¬ i.Prime) : Sieved N (i + 1) a := by
  refine ⟨hs.zero, fun k h1 hk => ?_⟩
  rw [survives_succ_of_not hi]
  exact hs.survives k h1 hk

theorem round_spec (hint : N < 2 ^ 30) (h2 : 2 ≤ i) (hi : i ≤ N) (hs : Sieved N i a) :
    ∃ a', round N i a = pure a' ∧ Sieved N (i + 1) a' := by
  have hprime : a i ≠ 0 ↔ i.Prime := by
    rw [hs.survives i (by omega) hi, survives_iff_prime h2 le_rfl]
  rw [round, get_of hi, pure_bind]
  by_cases hval : a i = 0
  · rw [if_pos hval]
    exact ⟨a, rfl, hs.skip fun hp => hprime.mpr hp hval⟩
  · obtain ⟨a', hstrike, ha'⟩ := strike_spec (N := N) (a := a) (j := i + i) (N + 1)
      (show 1 ≤ i by omega) (by omega) (by omega) (by omega) (Dvd.intro 2 (Nat.mul_two i))
    rw [if_neg hval, int_of_lt (by omega), pure_bind]
    exact ⟨a', hstrike, hs.strike h2 (hprime.mp hval) ha'⟩

theorem rounds_spec (fuel : ℕ) (hint : N < 2 ^ 30) (h2 : 2 ≤ i) (hfuel : N + 2 ≤ i + fuel)
    (hpos : 0 < fuel) (hs : Sieved N i a) :
    ∃ a' i', rounds N fuel i a = pure a' ∧ N < i' ∧ Sieved N i' a' := by
  induction fuel generalizing i a with
  | zero => omega
  | succ fuel ih =>
    rw [rounds]
    by_cases hi : i ≤ N
    · obtain ⟨a', hround, hs'⟩ := round_spec hint h2 hi hs
      rw [if_pos hi, hround, pure_bind, int_of_lt (by omega), pure_bind]
      exact ih (by omega) (by omega) (by omega) hs'
    · rw [if_neg hi]
      exact ⟨a, i, rfl, by omega, hs⟩

theorem filterPrimes_spec (h1 : 1 ≤ N) (hint : N < 2 ^ 30) : ∃ a, filterPrimes N = pure a ∧
    ∀ k ≤ N, a k ≠ 0 ↔ k = 0 ∨ k.Prime := by
  have hstart : Sieved N 2 fun _ => 1 :=
    ⟨by decide, fun k _ _ => iff_of_true (by decide) (survives_two k)⟩
  obtain ⟨a, i, hrounds, hi, hs⟩ := rounds_spec N hint le_rfl (by omega) (by omega) hstart
  refine ⟨Function.update a 1 0, ?_, ?_⟩
  · rw [filterPrimes, int_of_lt (by omega), pure_bind, hrounds, pure_bind, set_of h1]
  · intro k hk
    by_cases hone : k = 1
    · subst hone
      simp [Nat.not_prime_one]
    · rw [Function.update_of_ne hone]
      by_cases hzero : k = 0
      · subst hzero
        simp [hs.zero]
      · rw [hs.survives k (by omega) hk, survives_iff_prime (by omega) (by omega)]
        simp [hzero]

theorem get_yields (i : ℕ) : (get N a i).Yields fun _ => True := by
  rw [get]
  exact .guarded fun _ => trivial

theorem set_yields (hi : 1 ≤ i) (val : ℤ) : (set N a i val).Yields fun a' => a' 0 = a 0 := by
  rw [set]
  exact .guarded fun _ => Function.update_of_ne (by omega) ..

theorem strike_yields (fuel : ℕ) (hj : 1 ≤ j) :
    (strike N i fuel j a).Yields fun a' => a' 0 = a 0 := by
  induction fuel generalizing j a with
  | zero => exact .running
  | succ fuel ih =>
    rw [strike]
    split_ifs
    · refine (set_yields hj 0).bind fun a' hzero => (int_yields _).bind fun j' hj' => ?_
      rw [← hzero]
      exact ih (by omega)
    · exact .pure rfl

theorem rounds_yields (fuel : ℕ) (hi : 1 ≤ i) :
    (rounds N fuel i a).Yields fun a' => a' 0 = a 0 := by
  have hround : ∀ {i : ℕ} {a : ℕ → ℤ}, 1 ≤ i → (round N i a).Yields fun a' => a' 0 = a 0 := by
    intro i a hi
    refine (get_yields i).bind fun val _ => ?_
    split_ifs
    · exact .pure rfl
    · refine (int_yields _).bind fun j hj => strike_yields _ (by omega)
  induction fuel generalizing i a with
  | zero => exact .running
  | succ fuel ih =>
    rw [rounds]
    split_ifs
    · refine (hround hi).bind fun a' hzero => (int_yields _).bind fun i' hi' => ?_
      rw [← hzero]
      exact ih (by omega)
    · exact .pure rfl

theorem filterPrimes_zero (h : filterPrimes N = pure a) : a 0 = 1 := by
  have hyields : (filterPrimes N).Yields fun a => a 0 = 1 := by
    refine (int_yields _).bind fun _ _ => (rounds_yields N (by decide)).bind fun a' hzero => ?_
    rw [← hzero]
    exact set_yields le_rfl 0
  exact hyields.returns a h

/-- What `filter_primes` is for. -/
def FiltersPrimes (N : ℕ) : Prop :=
  ∃ a, filterPrimes N = pure a ∧ ∀ k ≤ N, a k ≠ 0 ↔ k.Prime

theorem not_filtersPrimes : ¬ FiltersPrimes N := by
  intro h
  obtain ⟨a, ha, hiff⟩ := h
  have hzero := filterPrimes_zero ha
  exact Nat.not_prime_zero ((hiff 0 (Nat.zero_le N)).mp (by rw [hzero]; decide))

/-- The result for no `N` marks the primes alone; where the sums of indices are `int` values, it
marks the primes and 0. -/
theorem filter_primes_marks (h1 : 1 ≤ N) : ¬ FiltersPrimes N ∧
    (N < 2 ^ 30 → ∃ a, filterPrimes N = pure a ∧ ∀ k ≤ N, a k ≠ 0 ↔ k = 0 ∨ k.Prime) :=
  ⟨not_filtersPrimes, filterPrimes_spec h1⟩

theorem filter_primes_marks_sample : ¬ FiltersPrimes 100 ∧
    ∃ a, filterPrimes 100 = pure a ∧ ∀ k ≤ 100, a k ≠ 0 ↔ k = 0 ∨ k.Prime := by
  have hmarks := filter_primes_marks (N := 100) (by decide)
  exact ⟨hmarks.1, hmarks.2 (by decide)⟩

theorem filter_primes_marks_fails : ¬ ∀ N, 1 ≤ N → FiltersPrimes N :=
  fun hall => not_filtersPrimes (hall 100 (by decide))

end spec
end ModCpp.FilterPrimes
