import ModCpp.MachineWord
import Mathlib.Data.Fin.VecNotation
import Mathlib.Logic.Equiv.Basic
import Mathlib.Order.Defs.LinearOrder

/-!
# `Array` and `ministl_sort` (`iterator.cc`)

An iterator of an array is its `idx`. The constructor call in `end` compiles only when `N` fits
an `int`, so no position of a range overflows. A dereference outside of the array is undefined.
-/

namespace ModCpp.MinistlSort
variable {α : Type} {N : ℕ}

def deref (data : Fin N → α) (idx : ℤ) : Loop α :=
  if h : 0 ≤ idx ∧ idx < N then pure (data ⟨idx.toNat, by omega⟩)
  else throw (.undefined "index out of range")

/-- `std::swap` of the elements at two iterators. -/
def swapAt (data : Fin N → α) (i j : ℤ) : Loop (Fin N → α) :=
  if h : (0 ≤ i ∧ i < N) ∧ 0 ≤ j ∧ j < N then
    let i : Fin N := ⟨i.toNat, by omega⟩
    let j : Fin N := ⟨j.toNat, by omega⟩
    pure (Function.update (Function.update data j (data i)) i (data j))
  else throw (.undefined "index out of range")

section code
variable [LinearOrder α]

/-- `do left ++ ; while (*left < pivot);` -/
def scanLeft (data : Fin N → α) (pivot : α) : ℕ → ℤ → Loop ℤ
  | 0, _ => running
  | fuel + 1, left => do
    let left := left + 1
    if (← deref data left) < pivot then scanLeft data pivot fuel left else pure left

/-- `do right -- ; while (*right > pivot);` -/
def scanRight (data : Fin N → α) (pivot : α) : ℕ → ℤ → Loop ℤ
  | 0, _ => running
  | fuel + 1, right => do
    let right := right - 1
    if (← deref data right) > pivot then scanRight data pivot fuel right else pure right

def partitionLoop (pivot : α) : ℕ → ℤ → ℤ → (Fin N → α) → Loop (ℤ × (Fin N → α))
  | 0, _, _, _ => running
  | fuel + 1, left, right, data =>
    if left < right then do
      let left ← scanLeft data pivot fuel left
      let right ← scanRight data pivot fuel right
      let data ← if left < right then swapAt data left right else pure data
      partitionLoop pivot fuel left right data
    else pure (right, data)

def ministl_sort : ℕ → ℤ → ℤ → (Fin N → α) → Loop (Fin N → α)
  | 0, _, _, _ => running
  | fuel + 1, begin_, end_, data =>
    if begin_ ≥ end_ - 1 then pure data
    else do
      let pivot ← deref data begin_
      let (right, data) ← partitionLoop pivot fuel (begin_ - 1) end_ data
      let right := right + 1
      let data ← ministl_sort fuel begin_ right data
      ministl_sort fuel right end_ data

end code

section positions
variable {data : Fin N → α} {idx : ℤ}

theorem exists_cell (h0 : 0 ≤ idx) (hN : idx < N) : ∃ i : Fin N, ((i : ℕ) : ℤ) = idx :=
  ⟨⟨idx.toNat, by omega⟩, Int.toNat_of_nonneg h0⟩

theorem deref_cell (i : Fin N) : deref data (i : ℕ) = pure (data i) := by
  have hi : (0 : ℤ) ≤ (i : ℕ) ∧ ((i : ℕ) : ℤ) < N := by omega
  rw [deref, dif_pos hi]
  congr

theorem swapAt_cell (i j : Fin N) :
    swapAt data (i : ℕ) (j : ℕ) = pure (data ∘ Equiv.swap i j) := by
  have hij : ((0 : ℤ) ≤ (i : ℕ) ∧ ((i : ℕ) : ℤ) < N) ∧ (0 : ℤ) ≤ (j : ℕ) ∧ ((j : ℕ) : ℤ) < N := by
    omega
  rw [swapAt, dif_pos hij, Equiv.comp_swap_eq_update]
  congr

end positions

def Within (b e : ℤ) (i : Fin N) : Prop := b ≤ (i : ℕ) ∧ ((i : ℕ) : ℤ) < e

/-- The contents of `[b, e)` were permuted, and nothing else was moved. -/
def Rearranged (b e : ℤ) (data data' : Fin N → α) : Prop :=
  ∃ σ : Equiv.Perm (Fin N), data' = data ∘ σ ∧ ∀ i, ¬ Within b e i → σ i = i

namespace Rearranged
variable {b e b' e' : ℤ} {data data' data'' : Fin N → α} {i j : Fin N}

theorem refl : Rearranged b e data data := ⟨Equiv.refl _, rfl, fun _ _ => rfl⟩

theorem trans (h : Rearranged b e data data') (h' : Rearranged b e data' data'') :
    Rearranged b e data data'' := by
  obtain ⟨σ, rfl, hσ⟩ := h
  obtain ⟨ρ, rfl, hρ⟩ := h'
  refine ⟨ρ.trans σ, rfl, ?_⟩
  intro i hi
  rw [Equiv.trans_apply, hρ i hi, hσ i hi]

theorem widen (h : Rearranged b e data data') (hb : b' ≤ b) (he : e ≤ e') :
    Rearranged b' e' data data' := by
  obtain ⟨σ, hd, hσ⟩ := h
  refine ⟨σ, hd, ?_⟩
  intro i hi
  apply hσ
  intro hin
  exact hi ⟨Int.le_trans hb hin.1, Int.lt_of_lt_of_le hin.2 he⟩

theorem swap (data : Fin N → α) (hi : Within b e i) (hj : Within b e j) :
    Rearranged b e data (data ∘ Equiv.swap i j) := by
  refine ⟨Equiv.swap i j, rfl, ?_⟩
  intro k hk
  apply Equiv.swap_apply_of_ne_of_ne
  · intro hki
    exact hk (hki ▸ hi)
  · intro hkj
    exact hk (hkj ▸ hj)

theorem outside (h : Rearranged b e data data') (hi : ¬ Within b e i) : data' i = data i := by
  obtain ⟨σ, rfl, hσ⟩ := h
  rw [Function.comp_apply, hσ i hi]

theorem forall_within {P : α → Prop} (h : Rearranged b e data data')
    (hP : ∀ i, Within b e i → P (data i)) (hi : Within b e i) : P (data' i) := by
  obtain ⟨σ, rfl, hσ⟩ := h
  apply hP
  by_contra hout
  have hfix : σ i = i := σ.injective (hσ _ hout)
  rw [hfix] at hout
  exact hout hi

end Rearranged

section scans
variable [LinearOrder α] {data : Fin N → α} {pivot : α} {stop : Fin N}

theorem scanLeft_spec (fuel : ℕ) (left : ℤ) (hleft : -1 ≤ left) (hlt : left < (stop : ℕ))
    (hstop : pivot ≤ data stop) (hfuel : (stop : ℕ) - left ≤ fuel) :
    ∃ l : Fin N, scanLeft data pivot fuel left = pure ((l : ℕ) : ℤ) ∧ left < (l : ℕ) ∧ l ≤ stop ∧
      pivot ≤ data l ∧ ∀ i : Fin N, left < (i : ℕ) → i < l → data i < pivot := by
  induction fuel generalizing left with
  | zero => omega
  | succ fuel ih =>
    obtain ⟨i, hi⟩ := exists_cell (N := N) (show 0 ≤ left + 1 by omega) (by omega)
    simp only [scanLeft, ← hi, deref_cell, pure_bind]
    by_cases hgo : data i < pivot
    · have hne : i ≠ stop := fun he => absurd hstop (by rw [← he]; exact not_le.mpr hgo)
      have hne' : (i : ℕ) ≠ stop := fun he => hne (Fin.ext he)
      rw [if_pos hgo]
      obtain ⟨l, hl, hlow, hle, hpivot, hbelow⟩ :=
        ih (i : ℕ) (by omega) (by omega) (by omega)
      refine ⟨l, hl, by omega, hle, hpivot, ?_⟩
      intro j hj hjl
      by_cases he : j = i
      · rw [he]
        exact hgo
      · have : (j : ℕ) ≠ i := fun h => he (Fin.ext h)
        exact hbelow j (by omega) hjl
    · rw [if_neg hgo]
      refine ⟨i, rfl, by omega, ?_, not_lt.mp hgo, ?_⟩
      · rw [Fin.le_def]
        omega
      · intro j hj hji
        rw [Fin.lt_def] at hji
        omega

theorem scanRight_spec (fuel : ℕ) (right : ℤ) (hright : right ≤ N) (hlt : ((stop : ℕ) : ℤ) < right)
    (hstop : data stop ≤ pivot) (hfuel : right - (stop : ℕ) ≤ fuel) :
    ∃ r : Fin N, scanRight data pivot fuel right = pure ((r : ℕ) : ℤ) ∧ ((r : ℕ) : ℤ) < right ∧
      stop ≤ r ∧ data r ≤ pivot ∧ ∀ i : Fin N, ((i : ℕ) : ℤ) < right → r < i → pivot < data i := by
  induction fuel generalizing right with
  | zero => omega
  | succ fuel ih =>
    obtain ⟨i, hi⟩ := exists_cell (N := N) (show 0 ≤ right - 1 by omega) (by omega)
    simp only [scanRight, ← hi, deref_cell, pure_bind]
    by_cases hgo : data i > pivot
    · have hne : i ≠ stop := fun he => absurd hstop (by rw [← he]; exact not_le.mpr hgo)
      have hne' : (i : ℕ) ≠ stop := fun he => hne (Fin.ext he)
      rw [if_pos hgo]
      obtain ⟨r, hr, hhigh, hle, hpivot, habove⟩ :=
        ih (i : ℕ) (by omega) (by omega) (by omega)
      refine ⟨r, hr, by omega, hle, hpivot, ?_⟩
      intro j hj hjr
      by_cases he : j = i
      · rw [he]
        exact hgo
      · have : (j : ℕ) ≠ i := fun h => he (Fin.ext h)
        exact habove j (by omega) hjr
    · rw [if_neg hgo]
      refine ⟨i, rfl, by omega, ?_, not_lt.mp hgo, ?_⟩
      · rw [Fin.le_def]
        omega
      · intro j hj hji
        rw [Fin.lt_def] at hji
        omega

end scans

section partition
variable [LinearOrder α] {b e left right : ℤ} {data : Fin N → α} {pivot : α} {fuel : ℕ}

/-- What holds between two scans: the parts already passed are split by the pivot, and
each scan has an element ahead that stops it. -/
structure Splitting (b e : ℤ) (pivot : α) (left right : ℤ) (data : Fin N → α) : Prop where
  left_ge : b - 1 ≤ left
  right_le : right ≤ e
  low : ∀ i : Fin N, b ≤ (i : ℕ) → ((i : ℕ) : ℤ) ≤ left → data i ≤ pivot
  high : ∀ i : Fin N, right ≤ (i : ℕ) → ((i : ℕ) : ℤ) < e → pivot ≤ data i
  stopsLeft : ∃ s : Fin N, left < (s : ℕ) ∧ ((s : ℕ) : ℤ) ≤ right ∧ ((s : ℕ) : ℤ) < e ∧
    (((s : ℕ) : ℤ) < e - 1 ∨ right < e) ∧ pivot ≤ data s
  stopsRight : ∃ s : Fin N, b ≤ (s : ℕ) ∧ left ≤ (s : ℕ) ∧ ((s : ℕ) : ℤ) < right ∧ data s ≤ pivot

/-- The pivot itself stops both first scans. -/
theorem Splitting.start {first : Fin N} (hb : b = (first : ℕ)) (hlt : b < e - 1) :
    Splitting b e (data first) (b - 1) e data where
  left_ge := le_rfl
  right_le := le_rfl
  low := by
    intro i hi hi'
    omega
  high := by
    intro i hi hi'
    omega
  stopsLeft := ⟨first, by omega, by omega, by omega, .inl (by omega), le_rfl⟩
  stopsRight := ⟨first, by omega, by omega, by omega, le_rfl⟩

/-- After a swap each of the two swapped elements stops the next scan from the other side. -/
theorem Splitting.swap (h : Splitting b e pivot left right data) {l r : Fin N}
    (hl : left < (l : ℕ)) (hr : ((r : ℕ) : ℤ) < right) (hlr : l < r) (hlp : pivot ≤ data l)
    (hrp : data r ≤ pivot) (hbelow : ∀ i : Fin N, left < (i : ℕ) → i < l → data i < pivot)
    (habove : ∀ i : Fin N, ((i : ℕ) : ℤ) < right → r < i → pivot < data i) :
    Splitting b e pivot (l : ℕ) (r : ℕ) (data ∘ Equiv.swap l r) := by
  have hleft := h.left_ge
  have hright := h.right_le
  have hlr' : (l : ℕ) < r := hlr
  refine ⟨by omega, by omega, ?_, ?_, ?_, ?_⟩
  · intro i hb hi
    by_cases hil : i = l
    · rw [hil, Function.comp_apply, Equiv.swap_apply_left]
      exact hrp
    · have hne : (i : ℕ) ≠ l := fun he => hil (Fin.ext he)
      rw [Function.comp_apply, Equiv.swap_apply_of_ne_of_ne hil (by intro he; subst he; omega)]
      by_cases hpassed : ((i : ℕ) : ℤ) ≤ left
      · exact h.low i hb hpassed
      · exact (hbelow i (by omega) (Fin.lt_def.mpr (by omega))).le
  · intro i hi he
    by_cases hir : i = r
    · rw [hir, Function.comp_apply, Equiv.swap_apply_right]
      exact hlp
    · have hne : (i : ℕ) ≠ r := fun he => hir (Fin.ext he)
      rw [Function.comp_apply, Equiv.swap_apply_of_ne_of_ne (by intro he; subst he; omega) hir]
      by_cases hpassed : right ≤ (i : ℕ)
      · exact h.high i hpassed he
      · exact (habove i (by omega) (Fin.lt_def.mpr (by omega))).le
  · refine ⟨r, by omega, le_rfl, by omega, .inr (by omega), ?_⟩
    rw [Function.comp_apply, Equiv.swap_apply_right]
    exact hlp
  · refine ⟨l, by omega, le_rfl, by omega, ?_⟩
    rw [Function.comp_apply, Equiv.swap_apply_left]
    exact hrp

structure Split (b e m : ℤ) (pivot : α) (data : Fin N → α) : Prop where
  begin_lt : b < m
  lt_end : m < e
  low : ∀ i, Within b m i → data i ≤ pivot
  high : ∀ i, Within m e i → pivot ≤ data i

/-- Once the scans have met, the range is split behind the second one. -/
theorem Splitting.met (h : Splitting b e pivot left right data) {l r : Fin N}
    (hbr : b ≤ (r : ℕ)) (hre : ((r : ℕ) : ℤ) + 1 < e) (hrl : r ≤ l) (hrp : data r ≤ pivot)
    (hbelow : ∀ i : Fin N, left < (i : ℕ) → i < l → data i < pivot)
    (habove : ∀ i : Fin N, ((i : ℕ) : ℤ) < right → r < i → pivot < data i) :
    Split b e ((r : ℕ) + 1) pivot data := by
  have hrl' : (r : ℕ) ≤ l := hrl
  refine ⟨by omega, hre, ?_, ?_⟩
  · intro i hi
    obtain ⟨hbi, hir⟩ := hi
    by_cases hpassed : ((i : ℕ) : ℤ) ≤ left
    · exact h.low i hbi hpassed
    · by_cases hil : i < l
      · exact (hbelow i (by omega) hil).le
      · have hil' : (l : ℕ) ≤ i := not_lt.mp hil
        have : i = r := Fin.ext (by omega)
        rw [this]
        exact hrp
  · intro i hi
    obtain ⟨hri, hie⟩ := hi
    by_cases hpassed : right ≤ (i : ℕ)
    · exact h.high i hpassed hie
    · exact (habove i (by omega) (Fin.lt_def.mpr (by omega))).le

/-- Both scans of a round stop inside of the range; the round ends with a swap, or the split is
done. -/
theorem Splitting.round (h : Splitting b e pivot left right data) (fuel : ℕ) (hb : 0 ≤ b)
    (he : e ≤ N) (hfuel : right - left ≤ fuel) : left < right ∧ ∃ l r : Fin N,
      scanLeft data pivot fuel left = pure ((l : ℕ) : ℤ) ∧
      scanRight data pivot fuel right = pure ((r : ℕ) : ℤ) ∧
      (left < (l : ℕ) ∧ Within b e l) ∧ (((r : ℕ) : ℤ) < right ∧ Within b e r) ∧
      (l < r → Splitting b e pivot (l : ℕ) (r : ℕ) (data ∘ Equiv.swap l r)) ∧
      (r ≤ l → Split b e ((r : ℕ) + 1) pivot data) := by
  obtain ⟨s, hs, hsr, hse, hroom, hsp⟩ := h.stopsLeft
  obtain ⟨s', hbs, hls, hsr', hsp'⟩ := h.stopsRight
  have hleft := h.left_ge
  have hright := h.right_le
  obtain ⟨l, hl, hll, hls', hlp, hbelow⟩ :=
    scanLeft_spec fuel left (by omega) hs hsp (by omega)
  obtain ⟨r, hr, hrr, hrs, hrp, habove⟩ :=
    scanRight_spec fuel right (by omega) hsr' hsp' (by omega)
  have hls'' : (l : ℕ) ≤ s := hls'
  have hrs' : (s' : ℕ) ≤ r := hrs
  refine ⟨by omega, l, r, hl, hr, ⟨hll, by omega, by omega⟩, ⟨hrr, by omega, by omega⟩, ?_, ?_⟩
  · exact fun hlr => h.swap hll hrr hlr hlp hrp hbelow habove
  · intro hrl
    have hrl' : (r : ℕ) ≤ l := hrl
    exact h.met (by omega) (by omega) hrl hrp hbelow habove

theorem partitionLoop_done (hfuel : 0 < fuel) (h : right ≤ left) :
    partitionLoop pivot fuel left right data = pure (right, data) := by
  cases fuel with
  | zero => omega
  | succ fuel => rw [partitionLoop, if_neg (not_lt.mpr h)]

theorem partitionLoop_spec (fuel : ℕ) (hb : 0 ≤ b) (he : e ≤ N)
    (h : Splitting b e pivot left right data) (hfuel : right - left + 1 ≤ fuel) :
    ∃ (r : Fin N) (data' : Fin N → α),
      partitionLoop pivot fuel left right data = pure (((r : ℕ) : ℤ), data') ∧
      Rearranged b e data data' ∧ Split b e ((r : ℕ) + 1) pivot data' := by
  induction fuel generalizing left right data with
  | zero =>
    obtain ⟨s, _, hs, hs', _⟩ := h.stopsRight
    omega
  | succ fuel ih =>
    obtain ⟨hlt, l, r, hl, hr, ⟨hll, hlin⟩, ⟨hrr, hrin⟩, hswap, hdone⟩ :=
      h.round fuel hb he (by omega)
    rw [partitionLoop, if_pos hlt, hl, pure_bind, hr, pure_bind]
    by_cases hlr : l < r
    · have hlr' : (l : ℕ) < r := hlr
      rw [if_pos (by omega), swapAt_cell, pure_bind]
      obtain ⟨m, data', hloop, hre, hsplit⟩ := ih (hswap hlr) (by omega)
      exact ⟨m, data', hloop, (Rearranged.swap data hlin hrin).trans hre, hsplit⟩
    · have hrl : r ≤ l := not_lt.mp hlr
      have hrl' : ((r : ℕ) : ℤ) ≤ (l : ℕ) := by
        rw [Fin.le_def] at hrl
        omega
      rw [if_neg (not_lt.mpr hrl'), pure_bind]
      simp only [partitionLoop_done (show 0 < fuel by omega) hrl']
      exact ⟨r, data, rfl, .refl, hdone hrl⟩

end partition

section sorting
variable [LinearOrder α] {b e m : ℤ} {data : Fin N → α}

def SortedWithin (b e : ℤ) (data : Fin N → α) : Prop :=
  ∀ i j, Within b e i → Within b e j → i ≤ j → data i ≤ data j

theorem sortedWithin_join (pivot : α) (hlow : SortedWithin b m data) (hhigh : SortedWithin m e data)
    (hle : ∀ i, Within b m i → data i ≤ pivot) (hge : ∀ i, Within m e i → pivot ≤ data i) :
    SortedWithin b e data := by
  intro i j hi hj hij
  by_cases hjm : ((j : ℕ) : ℤ) < m
  · exact hlow i j ⟨hi.1, by rw [Fin.le_def] at hij; omega⟩ ⟨hj.1, hjm⟩ hij
  · by_cases him : ((i : ℕ) : ℤ) < m
    · exact (hle i ⟨hi.1, him⟩).trans (hge j ⟨not_lt.mp hjm, hj.2⟩)
    · exact hhigh i j ⟨not_lt.mp him, hi.2⟩ ⟨not_lt.mp hjm, hj.2⟩ hij

theorem sort_spec (data : Fin N → α) (fuel : ℕ) (hb : 0 ≤ b) (he : e ≤ N) (hbe : b ≤ e)
    (hfuel : e - b + 3 ≤ fuel) : ∃ data', ministl_sort fuel b e data = pure data' ∧
      Rearranged b e data data' ∧ SortedWithin b e data' := by
  induction fuel generalizing b e data with
  | zero => omega
  | succ fuel ih =>
    rw [ministl_sort]
    by_cases hshort : b ≥ e - 1
    · rw [if_pos hshort]
      refine ⟨data, rfl, .refl, ?_⟩
      intro i j hi hj _
      have : i = j := Fin.ext (by obtain ⟨_, _⟩ := hi; obtain ⟨_, _⟩ := hj; omega)
      rw [this]
    · obtain ⟨first, hfirst⟩ := exists_cell (N := N) hb (by omega)
      have hstart : Splitting b e (data first) (b - 1) e data :=
        .start hfirst.symm (by omega)
      obtain ⟨r, split, hloop, hsplit, hbr, hre, hlow, hhigh⟩ :=
        partitionLoop_spec fuel hb he hstart (by omega)
      obtain ⟨left, hleft, hleftRe, hleftSorted⟩ :=
        ih (b := b) (e := (r : ℕ) + 1) split hb (by omega) (by omega) (by omega)
      obtain ⟨done, hdone, hdoneRe, hdoneSorted⟩ :=
        ih (b := (r : ℕ) + 1) (e := e) left (by omega) he (by omega) (by omega)
      have hderef : deref data b = pure (data first) := by rw [← hfirst, deref_cell]
      rw [if_neg hshort, hderef, pure_bind, hloop, pure_bind]
      simp only [hleft, pure_bind, hdone]
      have houtside : ∀ i : Fin N, Within b ((r : ℕ) + 1) i → done i = left i := by
        intro i hi
        apply hdoneRe.outside
        intro hi'
        obtain ⟨_, _⟩ := hi
        obtain ⟨_, _⟩ := hi'
        omega
      refine ⟨done, rfl, ?_, ?_⟩
      · exact (hsplit.trans (hleftRe.widen le_rfl (by omega))).trans
          (hdoneRe.widen (by omega) le_rfl)
      · refine sortedWithin_join (data first) ?_ hdoneSorted ?_ ?_
        · intro i j hi hj hij
          rw [houtside i hi, houtside j hj]
          exact hleftSorted i j hi hj hij
        · intro i hi
          rw [houtside i hi]
          exact hleftRe.forall_within (P := (· ≤ data first)) hlow hi
        · intro i hi
          refine hdoneRe.forall_within (P := (data first ≤ ·)) ?_ hi
          intro k hk
          rw [hleftRe.outside ?_]
          · exact hhigh k hk
          · intro hk'
            obtain ⟨_, _⟩ := hk
            obtain ⟨_, _⟩ := hk'
            omega

/-- The sort of a range returns with the range in order, permuted, and the rest as it was. -/
theorem ministl_sort_sorts (data : Fin N → α) (fuel : ℕ) (hb : 0 ≤ b) (hbe : b ≤ e) (he : e ≤ N)
    (hfuel : e - b + 3 ≤ fuel) :
    ∃ data', ministl_sort fuel b e data = pure data' ∧
      (∀ i j : Fin N, b ≤ (i : ℕ) → i ≤ j → ((j : ℕ) : ℤ) < e → data' i ≤ data' j) ∧
      (∃ σ : Equiv.Perm (Fin N), data' = data ∘ σ ∧
        ∀ i : Fin N, ¬ (b ≤ (i : ℕ) ∧ ((i : ℕ) : ℤ) < e) → σ i = i) ∧
      ∀ i : Fin N, ¬ (b ≤ (i : ℕ) ∧ ((i : ℕ) : ℤ) < e) → data' i = data i := by
  obtain ⟨data', hsort, hre, hsorted⟩ := sort_spec data fuel hb he hbe hfuel
  refine ⟨data', hsort, ?_, hre, fun i hi => hre.outside hi⟩
  intro i j hi hij hj
  rw [Fin.le_def] at hij
  exact hsorted i j ⟨hi, by omega⟩ ⟨by omega, hj⟩ (Fin.le_def.mpr hij)

theorem ministl_sort_sorts_sample : ∃ data',
    ministl_sort 6 1 4 (![5, 3, 3, 1, 0] : Fin 5 → ℕ) = pure data' ∧
      (∀ i j : Fin 5, (1 : ℤ) ≤ (i : ℕ) → i ≤ j → ((j : ℕ) : ℤ) < 4 → data' i ≤ data' j) ∧
      data' 0 = 5 ∧ data' 4 = 0 := by
  obtain ⟨data', hsort, hsorted, _, hrest⟩ :=
    ministl_sort_sorts (b := 1) (e := 4) (![5, 3, 3, 1, 0] : Fin 5 → ℕ) 6
      (by decide) (by decide) (by decide) (by decide)
  refine ⟨data', hsort, hsorted, ?_, ?_⟩
  · exact hrest 0 (by decide)
  · exact hrest 4 (by decide)

end sorting

end ModCpp.MinistlSort
