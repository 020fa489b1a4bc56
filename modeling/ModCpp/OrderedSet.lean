import Mathlib.Data.Finset.Max

/-!
# Ordered search in a finite set

`lowerBound s k` is the least element of `s` that is not below `k`, the element an
ordered container's search from `k` stops at, and `none` where there is none.
-/

namespace ModCpp

variable {α : Type*} [LinearOrder α] {s : Finset α} {k x : α}

def lowerBound (s : Finset α) (k : α) : Option α :=
  if h : (s.filter (k ≤ ·)).Nonempty then some ((s.filter (k ≤ ·)).min' h) else none

theorem lowerBound_eq_some :
    lowerBound s k = some x ↔ IsLeast {y | y ∈ s ∧ k ≤ y} x := by
  have hset : (↑(s.filter (k ≤ ·)) : Set α) = {y | y ∈ s ∧ k ≤ y} := by ext; simp
  unfold lowerBound
  split_ifs with h
  · have hmin := Finset.isLeast_min' _ h
    rw [hset] at hmin
    rw [Option.some_inj]
    exact ⟨fun he => he ▸ hmin, fun hx => hmin.unique hx⟩
  · refine ⟨fun he => by simp at he, fun hx => absurd ⟨x, ?_⟩ h⟩
    simpa using hx.1

theorem lowerBound_eq_none : lowerBound s k = none ↔ ∀ y ∈ s, y < k := by
  unfold lowerBound
  split_ifs with h
  · obtain ⟨y, hy⟩ := h
    rw [Finset.mem_filter] at hy
    simpa using ⟨y, hy.1, hy.2⟩
  · simpa [Finset.not_nonempty_iff_eq_empty, Finset.filter_eq_empty_iff] using h

theorem lowerBound_mem (h : lowerBound s k = some x) : x ∈ s := (lowerBound_eq_some.mp h).1.1

theorem le_of_lowerBound (h : lowerBound s k = some x) : k ≤ x := (lowerBound_eq_some.mp h).1.2

theorem lowerBound_isSome {y : α} (hy : y ∈ s) (hk : k ≤ y) : ∃ x, lowerBound s k = some x := by
  cases h : lowerBound s k with
  | some x => exact ⟨x, rfl⟩
  | none => exact absurd (lowerBound_eq_none.mp h y hy) (not_lt.mpr hk)

end ModCpp
