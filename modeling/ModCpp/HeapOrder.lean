import Mathlib.Algebra.BigOperators.Intervals
import Mathlib.Algebra.Order.Group.Multiset
import Mathlib.Data.Nat.Log
import Mathlib.Order.Interval.Finset.Nat

/-!
# Binary heaps in an array

Position `i` has the children `2 * i` and `2 * i + 1`, and the positions `1` to `last` are in use.
A sift carries one element up or down; the order may fail at that element only, and the
elements around it are already in order with each other.
-/

namespace ModCpp
variable {α : Type*} {d : ℕ → α} {lo last root m : ℕ}

def contents (d : ℕ → α) (last : ℕ) : Multiset α := ∑ i ∈ Finset.Icc 1 last, {d i}

theorem contents_zero : contents d 0 = 0 := rfl

theorem contents_succ : contents d (last + 1) = d (last + 1) ::ₘ contents d last := by
  rw [contents, Finset.sum_Icc_succ_top (by omega), add_comm, Multiset.singleton_add]
  rfl

theorem contents_congr {d' : ℕ → α} (h : ∀ i, 1 ≤ i → i ≤ last → d i = d' i) :
    contents d last = contents d' last := by
  refine Finset.sum_congr rfl ?_
  intro i hi
  obtain ⟨h1, hle⟩ := Finset.mem_Icc.mp hi
  rw [h i h1 hle]

theorem card_contents : Multiset.card (contents d last) = last := by
  induction last with
  | zero => rfl
  | succ n ih => rw [contents_succ, Multiset.card_cons, ih]

theorem mem_contents {x : α} : x ∈ contents d last ↔ ∃ i, 1 ≤ i ∧ i ≤ last ∧ d i = x := by
  rw [contents, Multiset.mem_sum]
  simp only [Finset.mem_Icc, Multiset.mem_singleton, and_assoc, eq_comm]

theorem contents_swap {i j : ℕ} (hi : 1 ≤ i) (hil : i ≤ last) (hj : 1 ≤ j) (hjl : j ≤ last) :
    contents (d ∘ Equiv.swap i j) last = contents d last := by
  refine Equiv.Perm.sum_comp (Equiv.swap i j) _ (fun k => ({d k} : Multiset α)) ?_
  intro k hk
  rw [Finset.coe_Icc, Set.mem_Icc]
  by_contra hout
  apply hk
  apply Equiv.swap_apply_of_ne_of_ne
  · intro he
    omega
  · intro he
    omega

theorem comp_swap_of_ne {i j k : ℕ} (hi : k ≠ i) (hj : k ≠ j) :
    (d ∘ Equiv.swap i j) k = d k := by
  rw [Function.comp_apply, Equiv.swap_apply_of_ne_of_ne hi hj]

section order
variable [LinearOrder α]

/-- Each element is at most its children, from position `lo` on. -/
def HeapOrdered (d : ℕ → α) (lo last : ℕ) : Prop :=
  ∀ i, 2 ≤ i → i ≤ last → lo ≤ i / 2 → d (i / 2) ≤ d i

theorem HeapOrdered.least (h : HeapOrdered d 1 last) {i : ℕ} (hi : 1 ≤ i) (hle : i ≤ last) :
    d 1 ≤ d i := by
  induction i using Nat.strong_induction_on with
  | _ i ih =>
    by_cases h1 : i = 1
    · rw [h1]
    · exact (ih (i / 2) (by omega) (by omega) (by omega)).trans
        (h i (by omega) hle (by omega))

/-- In order but for the element at `root` and its parent. -/
structure UpOrdered (d : ℕ → α) (last root : ℕ) : Prop where
  pairs : ∀ i, 2 ≤ i → i ≤ last → i ≠ root → d (i / 2) ≤ d i
  grand : 2 ≤ root → ∀ i, i ≤ last → i / 2 = root → d (root / 2) ≤ d i

theorem UpOrdered.finish (h : UpOrdered d last root) (hstop : 2 ≤ root → d (root / 2) ≤ d root) :
    HeapOrdered d 1 last := by
  intro i hi hle _
  by_cases he : i = root
  · subst he
    exact hstop hi
  · exact h.pairs i hi hle he

theorem UpOrdered.move (h : UpOrdered d last root) (h2 : 2 ≤ root) (hle : root ≤ last)
    (hlt : d root < d (root / 2)) :
    UpOrdered (d ∘ Equiv.swap (root / 2) root) last (root / 2) := by
  have hother : ∀ i, i ≠ root / 2 → i ≠ root → (d ∘ Equiv.swap (root / 2) root) i = d i :=
    fun _ => comp_swap_of_ne
  have hfather : (d ∘ Equiv.swap (root / 2) root) (root / 2) = d root := by simp
  have hroot : (d ∘ Equiv.swap (root / 2) root) root = d (root / 2) := by simp
  constructor
  · intro i hi hil hne
    by_cases hir : i = root
    · subst hir
      rw [hroot, hfather]
      exact hlt.le
    · rw [hother i hne hir]
      by_cases hpr : i / 2 = root
      · rw [hpr, hroot]
        exact h.grand h2 i hil hpr
      · by_cases hpf : i / 2 = root / 2
        · rw [hpf, hfather]
          exact hlt.le.trans (hpf ▸ h.pairs i hi hil hir)
        · rw [hother _ hpf hpr]
          exact h.pairs i hi hil hir
  · intro h2' i hil hpf
    have hup : d (root / 2 / 2) ≤ d (root / 2) := h.pairs _ h2' (by omega) (by omega)
    rw [hother (root / 2 / 2) (by omega) (by omega)]
    by_cases hir : i = root
    · subst hir
      rw [hroot]
      exact hup
    · rw [hother i (by omega) hir]
      exact hup.trans (hpf ▸ h.pairs i (by omega) hil hir)

/-- In order from `lo` on but for the element at `root` and its children. -/
structure DownOrdered (d : ℕ → α) (lo last root : ℕ) : Prop where
  pairs : ∀ i, 2 ≤ i → i ≤ last → lo ≤ i / 2 → i / 2 ≠ root → d (i / 2) ≤ d i
  grand : lo ≤ root / 2 → ∀ i, i ≤ last → i / 2 = root → d (root / 2) ≤ d i

theorem HeapOrdered.downOrdered (h : HeapOrdered d (root + 1) last) (h1 : 1 ≤ root) :
    DownOrdered d root last root := by
  constructor
  · intro i h2 hi hlo hne
    exact h i h2 hi (by omega)
  · intro hself
    omega

theorem DownOrdered.finish (h : DownOrdered d lo last root)
    (hstop : ∀ i, i ≤ last → i / 2 = root → d root ≤ d i) : HeapOrdered d lo last := by
  intro i hi hle hlo
  by_cases he : i / 2 = root
  · rw [he]
    exact hstop i hle he
  · exact h.pairs i hi hle hlo he

theorem DownOrdered.move (h : DownOrdered d lo last root) (hlo : 1 ≤ lo) (h1 : lo ≤ root)
    (hm : m / 2 = root) (hle : m ≤ last) (hroot : d m ≤ d root)
    (hmin : ∀ i, i ≤ last → i / 2 = root → d m ≤ d i) :
    DownOrdered (d ∘ Equiv.swap root m) lo last m := by
  have hother : ∀ i, i ≠ root → i ≠ m → (d ∘ Equiv.swap root m) i = d i :=
    fun _ => comp_swap_of_ne
  have hself : (d ∘ Equiv.swap root m) root = d m := by simp
  have hmd : (d ∘ Equiv.swap root m) m = d root := by simp
  constructor
  · intro i hi hil hlo' hne
    by_cases him : i = m
    · subst him
      rw [hmd, hm, hself]
      exact hroot
    · by_cases hpr : i / 2 = root
      · rw [hpr, hself, hother i (by omega) him]
        exact hmin i hil hpr
      · by_cases hir : i = root
        · subst hir
          rw [hself, hother _ hpr (by omega)]
          exact h.grand hlo' m hle hm
        · rw [hother i hir him, hother _ hpr hne]
          exact h.pairs i hi hil hlo' hpr
  · intro _ i hil him
    rw [hm, hself, hother i (by omega) (by omega)]
    rw [← him]
    exact h.pairs i (by omega) hil (by omega) (by omega)

end order

section height

/-- How far the element at `root` can sink. -/
def height (last root : ℕ) : ℕ := Nat.log 2 (last / root)

theorem height_one : height last 1 = Nat.log 2 last := by rw [height, Nat.div_one]

theorem height_half (h2 : 2 * root ≤ last) (h1 : 1 ≤ root) :
    height last root = height (last / 2) root + 1 := by
  have htwo : 2 ≤ last / root := (Nat.le_div_iff_mul_le h1).mpr h2
  rw [height, Nat.log_of_one_lt_of_le (by decide) htwo, Nat.div_right_comm]
  rfl

theorem height_child (h1 : 1 ≤ root) (hm : m / 2 = root) (hle : m ≤ last) :
    height last m + 1 ≤ height last root := by
  have hdiv : last / m ≤ last / 2 / root := by
    rw [Nat.div_div_eq_div_mul]
    exact Nat.div_le_div le_rfl (by omega) (by omega)
  rw [height_half (by omega) h1]
  exact Nat.add_le_add_right (Nat.log_mono_right hdiv) 1

/-- All the elements together cannot sink further than there are elements. -/
theorem sum_height_le (n : ℕ) : ∑ i ∈ Finset.Icc 1 n, height n i ≤ n := by
  induction n using Nat.strong_induction_on with
  | _ n ih =>
    by_cases hn : n = 0
    · subst hn
      exact le_rfl
    · -- the elements of the lower half have no children
      have hsub : Finset.Icc 1 (n / 2) ⊆ Finset.Icc 1 n :=
        Finset.Icc_subset_Icc le_rfl (Nat.div_le_self n 2)
      have hleaf : ∀ i ∈ Finset.Icc 1 n, i ∉ Finset.Icc 1 (n / 2) → height n i = 0 := by
        intro i hi hnot
        rw [Finset.mem_Icc] at hi hnot
        exact Nat.log_of_lt (Nat.div_lt_of_lt_mul (by omega))
      calc ∑ i ∈ Finset.Icc 1 n, height n i
          = ∑ i ∈ Finset.Icc 1 (n / 2), height n i := (Finset.sum_subset hsub hleaf).symm
        _ = ∑ i ∈ Finset.Icc 1 (n / 2), (height (n / 2) i + 1) := by
            refine Finset.sum_congr rfl ?_
            intro i hi
            obtain ⟨h1, hle⟩ := Finset.mem_Icc.mp hi
            exact height_half (by omega) h1
        _ = ∑ i ∈ Finset.Icc 1 (n / 2), height (n / 2) i + n / 2 := by
            rw [Finset.sum_add_distrib, Finset.sum_const_nat fun _ _ => rfl, Nat.card_Icc]
            omega
        _ ≤ n / 2 + n / 2 := Nat.add_le_add_right (ih (n / 2) (by omega)) _
        _ ≤ n := by omega

end height

end ModCpp
