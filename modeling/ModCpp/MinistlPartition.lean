import ModCpp.MinistlSort
import ModCpp.TracedLoop

/-!
# The partition step of `ministl_sort`

The scans have no check of their bounds. With the positions logged at which `left` and `right`
are dereferenced, all of them are in the range that is split.
-/

namespace ModCpp.MinistlSort
variable {α : Type} {N : ℕ}

def derefTraced (data : Fin N → α) (idx : ℤ) : Traced ℤ α := .record [idx] (deref data idx)

def swapAtTraced (data : Fin N → α) (i j : ℤ) : Traced ℤ (Fin N → α) :=
  .record [i, j] (swapAt data i j)

theorem derefTraced_logs (data : Fin N → α) (idx : ℤ) :
    (derefTraced data idx).Logs fun _ log => log = [idx] := .record fun _ _ => rfl

theorem swapAtTraced_logs (data : Fin N → α) (i j : ℤ) :
    (swapAtTraced data i j).Logs fun _ log => log = [i, j] := .record fun _ _ => rfl

variable [LinearOrder α]

section code

def scanLeftTraced (data : Fin N → α) (pivot : α) : ℕ → ℤ → Traced ℤ ℤ
  | 0, _ => .record [] running
  | fuel + 1, left => do
    let left := left + 1
    if (← derefTraced data left) < pivot then scanLeftTraced data pivot fuel left else pure left

def scanRightTraced (data : Fin N → α) (pivot : α) : ℕ → ℤ → Traced ℤ ℤ
  | 0, _ => .record [] running
  | fuel + 1, right => do
    let right := right - 1
    if (← derefTraced data right) > pivot then scanRightTraced data pivot fuel right else pure right

def partitionLoopTraced (pivot : α) : ℕ → ℤ → ℤ → (Fin N → α) → Traced ℤ (ℤ × (Fin N → α))
  | 0, _, _, _ => .record [] running
  | fuel + 1, left, right, data =>
    if left < right then do
      let left ← scanLeftTraced data pivot fuel left
      let right ← scanRightTraced data pivot fuel right
      let data ← if left < right then swapAtTraced data left right else pure data
      partitionLoopTraced pivot fuel left right data
    else pure (right, data)

end code

section values
variable {data : Fin N → α} {pivot : α}

theorem scanLeftTraced_value (fuel : ℕ) (left : ℤ) :
    (scanLeftTraced data pivot fuel left).value = scanLeft data pivot fuel left := by
  induction fuel generalizing left with
  | zero => rfl
  | succ fuel ih =>
    rw [scanLeftTraced, scanLeft, Traced.value_bind, derefTraced, Traced.value_record]
    refine bind_congr fun a => ?_
    rw [apply_ite Traced.value, ih, Traced.value_pure]

theorem scanRightTraced_value (fuel : ℕ) (right : ℤ) :
    (scanRightTraced data pivot fuel right).value = scanRight data pivot fuel right := by
  induction fuel generalizing right with
  | zero => rfl
  | succ fuel ih =>
    rw [scanRightTraced, scanRight, Traced.value_bind, derefTraced, Traced.value_record]
    refine bind_congr fun a => ?_
    rw [apply_ite Traced.value, ih, Traced.value_pure]

theorem partitionLoopTraced_value (fuel : ℕ) (left right : ℤ) (data : Fin N → α) :
    (partitionLoopTraced pivot fuel left right data).value =
      partitionLoop pivot fuel left right data := by
  induction fuel generalizing left right data with
  | zero => rfl
  | succ fuel ih =>
    rw [partitionLoopTraced, partitionLoop]
    split_ifs
    · rw [Traced.value_bind, scanLeftTraced_value]
      refine bind_congr fun l => ?_
      rw [Traced.value_bind, scanRightTraced_value]
      refine bind_congr fun r => ?_
      dsimp only
      split_ifs
      · rw [Traced.value_bind, swapAtTraced, Traced.value_record]
        exact bind_congr fun data => ih l r data
      · rw [Traced.value_bind]
        exact bind_congr fun data => ih l r data
    · rfl

end values

section logs
variable {data : Fin N → α} {pivot : α} {b e left right : ℤ}

theorem scanLeftTraced_logs (fuel : ℕ) (left : ℤ) : (scanLeftTraced data pivot fuel left).Logs
    fun l log => left < l ∧ ∀ idx ∈ log, left < idx ∧ idx ≤ l := by
  induction fuel generalizing left with
  | zero => exact .record fun _ h => by cases h
  | succ fuel ih =>
    rw [scanLeftTraced]
    refine (derefTraced_logs data (left + 1)).bind ?_
    rintro a _ - rfl
    split_ifs
    · intro l log hrun
      obtain ⟨hl, hin⟩ := ih (left + 1) l log hrun
      refine ⟨by omega, List.forall_mem_cons.mpr ⟨by omega, ?_⟩⟩
      intro idx hidx
      have := hin idx hidx
      omega
    · exact .pure ⟨by omega, List.forall_mem_singleton.mpr (by omega)⟩

theorem scanRightTraced_logs (fuel : ℕ) (right : ℤ) :
    (scanRightTraced data pivot fuel right).Logs
      fun r log => r < right ∧ ∀ idx ∈ log, r ≤ idx ∧ idx < right := by
  induction fuel generalizing right with
  | zero => exact .record fun _ h => by cases h
  | succ fuel ih =>
    rw [scanRightTraced]
    refine (derefTraced_logs data (right - 1)).bind ?_
    rintro a _ - rfl
    split_ifs
    · intro r log hrun
      obtain ⟨hr, hin⟩ := ih (right - 1) r log hrun
      refine ⟨by omega, List.forall_mem_cons.mpr ⟨by omega, ?_⟩⟩
      intro idx hidx
      have := hin idx hidx
      omega
    · exact .pure ⟨by omega, List.forall_mem_singleton.mpr (by omega)⟩

theorem scanLeftTraced_inside {fuel : ℕ} {l : ℤ} (h : scanLeft data pivot fuel left = pure l)
    (hb : b - 1 ≤ left) (hl : l < e) : (scanLeftTraced data pivot fuel left).Logs
      fun l' log => l' = l ∧ ∀ idx ∈ log, b ≤ idx ∧ idx < e := by
  intro l' log hrun
  have hval := Traced.value_of_run hrun
  rw [scanLeftTraced_value, h] at hval
  cases hval
  refine ⟨rfl, ?_⟩
  intro idx hidx
  have := (scanLeftTraced_logs fuel left l log hrun).2 idx hidx
  omega

theorem scanRightTraced_inside {fuel : ℕ} {r : ℤ} (h : scanRight data pivot fuel right = pure r)
    (he : right ≤ e) (hr : b ≤ r) : (scanRightTraced data pivot fuel right).Logs
      fun r' log => r' = r ∧ ∀ idx ∈ log, b ≤ idx ∧ idx < e := by
  intro r' log hrun
  have hval := Traced.value_of_run hrun
  rw [scanRightTraced_value, h] at hval
  cases hval
  refine ⟨rfl, ?_⟩
  intro idx hidx
  have := (scanRightTraced_logs fuel right r log hrun).2 idx hidx
  omega

theorem partitionLoopTraced_done (fuel : ℕ) (h : right ≤ left) :
    (partitionLoopTraced pivot fuel left right data).Logs fun _ log => log = [] := by
  cases fuel with
  | zero => exact .record fun _ _ => rfl
  | succ fuel =>
    rw [partitionLoopTraced, if_neg (not_lt.mpr h)]
    exact .pure rfl

theorem partitionLoopTraced_logs (fuel : ℕ) (hb : 0 ≤ b) (he : e ≤ N)
    (h : Splitting b e pivot left right data) (hfuel : right - left + 1 ≤ fuel) :
    (partitionLoopTraced pivot fuel left right data).Logs
      fun _ log => ∀ idx ∈ log, b ≤ idx ∧ idx < e := by
  induction fuel generalizing left right data with
  | zero => exact .record fun _ h => by cases h
  | succ fuel ih =>
    obtain ⟨hlt, l, r, hl, hr, ⟨hll, hlin⟩, ⟨hrr, hrin⟩, hswap, -⟩ :=
      h.round fuel hb he (by omega)
    rw [partitionLoopTraced, if_pos hlt]
    refine (scanLeftTraced_inside hl h.left_ge hlin.2).bind ?_
    rintro _ log - ⟨rfl, hin⟩
    refine (scanRightTraced_inside hr h.right_le hrin.1).bind ?_
    rintro _ log' - ⟨rfl, hin'⟩
    dsimp only
    by_cases hlr : l < r
    · have hlr' : ((l : ℕ) : ℤ) < (r : ℕ) := by
        rw [Fin.lt_def] at hlr
        omega
      rw [if_pos hlr']
      refine (swapAtTraced_logs data _ _).bind ?_
      rintro _ _ hval rfl
      rw [swapAtTraced, Traced.value_record, swapAt_cell] at hval
      cases hval
      intro q rest hrun
      -- the log of the round, the two positions swapped and the log of the later rounds
      have hrest := ih (hswap hlr) (by omega) q rest hrun
      simp only [List.forall_mem_append, List.forall_mem_cons]
      exact ⟨hin, hin', ⟨hlin, hrin, by simp⟩, hrest⟩
    · have hrl : ((r : ℕ) : ℤ) ≤ (l : ℕ) := by
        rw [not_lt, Fin.le_def] at hlr
        omega
      rw [if_neg (not_lt.mpr hrl)]
      refine Traced.Logs.bind (P := fun _ log => log = []) (.pure rfl) ?_
      rintro data' _ - rfl q rest hrun
      rw [partitionLoopTraced_done fuel hrl q rest hrun]
      simp only [List.forall_mem_append]
      exact ⟨hin, hin', by simp⟩

end logs

section split
variable {b e : ℤ}

/-- The loop returns with the range split by the pivot. It dereferences positions of the range
only, and the two calls after it sort the parts, which are smaller. -/
theorem partition_splits (data : Fin N → α) (fuel : ℕ) (hb : 0 ≤ b) (htwo : b + 2 ≤ e)
    (he : e ≤ N) (hfuel : e - b + 2 ≤ fuel) :
    ∃ pivot right data' log, deref data b = pure pivot ∧
      partitionLoop pivot fuel (b - 1) e data = pure (right, data') ∧
      (partitionLoopTraced pivot fuel (b - 1) e data).run = pure ((right, data'), log) ∧
      (∀ idx ∈ log, b ≤ idx ∧ idx < e) ∧
      Split b e (right + 1) pivot data' ∧ Rearranged b e data data' ∧
      ministl_sort (fuel + 1) b e data =
        ministl_sort fuel b (right + 1) data' >>= ministl_sort fuel (right + 1) e ∧
      right + 1 - b < e - b ∧ e - (right + 1) < e - b := by
  obtain ⟨first, hfirst⟩ := exists_cell (N := N) hb (by omega)
  have hderef : deref data b = pure (data first) := by rw [← hfirst, deref_cell]
  have hstart : Splitting b e (data first) (b - 1) e data := .start hfirst.symm (by omega)
  obtain ⟨r, data', hloop, hre, hsplit⟩ := partitionLoop_spec fuel hb he hstart (by omega)
  have hvalue : (partitionLoopTraced (data first) fuel (b - 1) e data).value =
      pure (((r : ℕ) : ℤ), data') := by
    rw [partitionLoopTraced_value, hloop]
  obtain ⟨log, hrun, hin⟩ :=
    (partitionLoopTraced_logs fuel hb he hstart (by omega)).returns hvalue
  have hm := hsplit.begin_lt
  have hm' := hsplit.lt_end
  refine ⟨data first, (r : ℕ), data', log, hderef, hloop, hrun, hin, hsplit, hre, ?_, by omega,
    by omega⟩
  have hlong : ¬ b ≥ e - 1 := by omega
  rw [ministl_sort, if_neg hlong, hderef, pure_bind, hloop, pure_bind]

/-- All elements are equal, and both scans stop at each of them. -/
theorem partition_splits_sample : ∃ right data' log,
    (partitionLoopTraced 3 5 0 4 (![5, 3, 3, 3, 0] : Fin 5 → ℕ)).run =
      pure ((right, data'), log) ∧ (∀ idx ∈ log, 1 ≤ idx ∧ idx < 4) ∧
      Split 1 4 (right + 1) 3 data' := by
  obtain ⟨pivot, right, data', log, hpivot, _, hrun, hin, hsplit, _⟩ :=
    partition_splits (b := 1) (e := 4) (![5, 3, 3, 3, 0] : Fin 5 → ℕ) 5
      (by decide) (by decide) (by decide) (by decide)
  obtain rfl : pivot = 3 := by
    cases hpivot
    rfl
  exact ⟨right, data', log, hrun, hin, hsplit⟩

example : (fun p => (p.1.1, p.2)) <$> (partitionLoopTraced 2 5 (-1) 3 ![2, 3, 1]).run =
    (pure (0, [0, 2, 0, 2, 1, 1, 0]) : Loop (ℤ × List ℤ)) := rfl

end split
end ModCpp.MinistlSort
