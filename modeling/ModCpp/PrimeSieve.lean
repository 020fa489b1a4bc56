import Mathlib.Data.Nat.Prime.Basic

/-!
# The sieve of Eratosthenes

A number is struck out in the round of a prime that divides it properly. After the rounds below
`i` the numbers below `i` that are left are the primes, so that the round of `i` can tell whether
`i` is a prime.
-/

namespace ModCpp.PrimeSieve
variable {i k : ℕ}

/-- No round below `i` strikes `k` out. -/
def Survives (i k : ℕ) : Prop := ∀ p, p.Prime → p < i → p ∣ k → p = k

theorem survives_two (k : ℕ) : Survives 2 k := by
  intro p hp hlt
  have h2 := hp.two_le
  omega

theorem survives_succ_of_prime (hi : i.Prime) :
    Survives (i + 1) k ↔ Survives i k ∧ (i ∣ k → i = k) := by
  constructor
  · intro h
    exact ⟨fun p hp hlt => h p hp (by omega), h i hi (by omega)⟩
  · intro ⟨h, hself⟩ p hp hlt hdvd
    rcases Nat.lt_succ_iff_lt_or_eq.mp hlt with hlt | rfl
    · exact h p hp hlt hdvd
    · exact hself hdvd

theorem survives_succ_of_not (hi : ¬ i.Prime) : Survives (i + 1) k ↔ Survives i k := by
  constructor
  · exact fun h p hp hlt => h p hp (by omega)
  · intro h p hp hlt
    rcases Nat.lt_succ_iff_lt_or_eq.mp hlt with hlt | rfl
    · exact h p hp hlt
    · exact absurd hp hi

theorem survives_iff_prime (h2 : 2 ≤ k) (hk : k ≤ i) : Survives i k ↔ k.Prime := by
  constructor
  · intro h
    have hmin := Nat.minFac_prime (n := k) (by omega)
    have hdvd := Nat.minFac_dvd k
    rcases (Nat.minFac_le (n := k) (by omega)).lt_or_eq with hlt | heq
    · rw [← h _ hmin (by omega) hdvd]
      exact hmin
    · rw [← heq]
      exact hmin
  · intro hprime p hp _ hdvd
    exact (Nat.prime_dvd_prime_iff_eq hp hprime).mp hdvd

end ModCpp.PrimeSieve
