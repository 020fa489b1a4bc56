import Mathlib.Tactic.Linarith
import ModCpp.MinistlPartition

/-!
# The dereferences of `ministl_sort`

The whole recursion with the positions logged at which iterators are dereferenced. It stays in the
range it is given, and the number of dereferences is at most quadratic in its length. A range that
is in order already comes close to that.
-/

namespace ModCpp.MinistlSort
variable {α : Type} {N : ℕ} [LinearOrder α] {data : Fin N → α} {pivot : α} {b e left right : ℤ}

def ministl_sortTraced : ℕ → ℤ → ℤ → (Fin N → α) → Traced ℤ (Fin N → α)
  | 0, _, _, _ => .record [] running
  | fuel + 1, begin_, end_, data =>
    if begin_ ≥ end_ - 1 then pure data
    else do
      let pivot ← derefTraced data begin_
      let (right, data) ← partitionLoopTraced pivot fuel (begin_ - 1) end_ data
      let right := right + 1
      let data ← ministl_sortTraced fuel begin_ right data
      ministl_sortTraced fuel right end_ data

theorem ministl_sortTraced_value (fuel : ℕ) (b e : ℤ) (data : Fin N → α) :
    (ministl_sortTraced fuel b e data).value = ministl_sort fuel b e data := by
  induction fuel generalizing b e data with
  | zero => rfl
  | succ fuel ih =>
    rw [ministl_sortTraced, ministl_sort]
    split_ifs
    · rfl
    · rw [Traced.value_bind, derefTraced, Traced.value_record]
      refine bind_congr fun pivot => ?_
      rw [Traced.value_bind, partitionLoopTraced_value]
      refine bind_congr fun p => ?_
      rw [Traced.value_bind, ih]
      exact bind_congr fun data => ih ..

section scans

theorem scanLeftTraced_length (fuel : ℕ) (left : ℤ) : (scanLeftTraced data pivot fuel left).Logs
    fun l log => (log.length : ℤ) = l - left := by
  induction fuel generalizing left with
  | zero => exact .record fun _ h => by cases h
  | succ fuel ih =>
    rw [scanLeftTraced]
    refine (derefTraced_logs data (left + 1)).bind ?_
    rintro a _ - rfl
    split_ifs
    · intro l log hrun
      have hlen := ih (left + 1) l log hrun
      rw [List.singleton_append, List.length_cons]
      omega
    · apply Traced.Logs.pure
      rw [List.append_nil, List.length_singleton]
      omega

theorem scanRightTraced_length (fuel : ℕ) (right : ℤ) :
    (scanRightTraced data pivot fuel right).Logs
      fun r log => (log.length : ℤ) = right - r := by
  induction fuel generalizing right with
  | zero => exact .record fun _ h => by cases h
  | succ fuel ih =>
    rw [scanRightTraced]
    refine (derefTraced_logs data (right - 1)).bind ?_
    rintro a _ - rfl
    split_ifs
    · intro r log hrun
      have hlen := ih (right - 1) r log hrun
      rw [List.singleton_append, List.length_cons]
      omega
    · apply Traced.Logs.pure
      rw [List.append_nil, List.length_singleton]
      omega

theorem cell_unique {x : Loop ℤ} {i j : Fin N} (hi : x = pure ((i : ℕ) : ℤ))
    (hj : x = pure ((j : ℕ) : ℤ)) : i = j := by
  have hij : ((i : ℕ) : ℤ) = (j : ℕ) := by
    have heq := hi.symm.trans hj
    injection heq with heq
    injection heq
  exact Fin.ext (Int.ofNat_inj.mp hij)

theorem Splitting.near (h : Splitting b e pivot left right data) {fuel : ℕ} (hb : 0 ≤ b)
    (he : e ≤ N) (hfuel : right - left ≤ fuel) {l r : Fin N}
    (hl : scanLeft data pivot fuel left = pure ((l : ℕ) : ℤ))
    (hr : scanRight data pivot fuel right = pure ((r : ℕ) : ℤ)) : (l : ℕ) ≤ (r : ℕ) + 1 := by
  obtain ⟨s, hs, hsr, hse, -, hsp⟩ := h.stopsLeft
  obtain ⟨s', hbs, hls, hsr', hsp'⟩ := h.stopsRight
  have hleft := h.left_ge
  have hright := h.right_le
  obtain ⟨l', hl', -, hls', -, hbelow⟩ := scanLeft_spec fuel left (by omega) hs hsp (by omega)
  obtain ⟨r', hr', -, hrs, -, habove⟩ := scanRight_spec fuel right (by omega) hsr' hsp' (by omega)
  obtain rfl := cell_unique hl hl'
  obtain rfl := cell_unique hr hr'
  by_contra hfar
  have hi : (r : ℕ) + 1 < N := by omega
  have hls'' : (l : ℕ) ≤ s := hls'
  have hrs' : (s' : ℕ) ≤ r := hrs
  have hlow := hbelow ⟨(r : ℕ) + 1, hi⟩ (by dsimp only; omega)
    (Fin.lt_def.mpr (by dsimp only; omega))
  have hhigh := habove ⟨(r : ℕ) + 1, hi⟩ (by dsimp only; omega)
    (Fin.lt_def.mpr (by dsimp only; omega))
  exact lt_asymm hlow hhigh

end scans

section bound

/-- Each swap is paid for by the positions that the scans of its round pass. -/
theorem partitionLoopTraced_length (fuel : ℕ) (hb : 0 ≤ b) (he : e ≤ N)
    (h : Splitting b e pivot left right data) (hfuel : right - left + 1 ≤ fuel) :
    (partitionLoopTraced pivot fuel left right data).Logs
      fun _ log => (log.length : ℤ) ≤ 2 * (right - left) := by
  induction fuel generalizing left right data with
  | zero => exact .record fun _ h => by cases h
  | succ fuel ih =>
    obtain ⟨hlt, l, r, hl, hr, ⟨hll, hlin⟩, ⟨hrr, hrin⟩, hswap, -⟩ :=
      h.round fuel hb he (by omega)
    have hnear := h.near hb he (by omega) hl hr
    rw [partitionLoopTraced, if_pos hlt]
    have hscan := scanLeftTraced_inside hl h.left_ge hlin.2
    refine (hscan.and (scanLeftTraced_length fuel left)).bind ?_
    rintro _ log - ⟨⟨rfl, -⟩, hlen⟩
    have hscan' := scanRightTraced_inside hr h.right_le hrin.1
    refine (hscan'.and (scanRightTraced_length fuel right)).bind ?_
    rintro _ log' - ⟨⟨rfl, -⟩, hlen'⟩
    dsimp only
    by_cases hlr : l < r
    · have hlr' : ((l : ℕ) : ℤ) < (r : ℕ) := by
        rw [Fin.lt_def] at hlr
        omega
      rw [if_pos hlr']
      refine (swapAtTraced_logs data _ _).bind ?_
      rintro _ _ hval rfl
      rw [swapAtTraced, Traced.value_record, swapAt_cell] at hval
      cases hval
      intro q rest hrun
      have hrest := ih (hswap hlr) (by omega) q rest hrun
      simp only [List.length_append, List.length_cons, List.length_nil]
      omega
    · have hrl : ((r : ℕ) : ℤ) ≤ (l : ℕ) := by
        rw [not_lt, Fin.le_def] at hlr
        omega
      rw [if_neg (not_lt.mpr hrl)]
      refine Traced.Logs.bind (P := fun _ log => log = []) (.pure rfl) ?_
      rintro data' _ - rfl q rest hrun
      rw [partitionLoopTraced_done fuel hrl q rest hrun]
      simp only [List.length_append, List.length_nil]
      omega

theorem sortTraced_short {fuel : ℕ} (hfuel : 0 < fuel) (hbe : e - 1 ≤ b) (data : Fin N → α) :
    ministl_sortTraced fuel b e data = pure data := by
  obtain ⟨fuel, rfl⟩ : ∃ k, fuel = k + 1 := ⟨fuel - 1, by omega⟩
  rw [ministl_sortTraced, if_pos hbe]

theorem sortTraced_logs (fuel : ℕ) (data : Fin N → α) (hb : 0 ≤ b) (he : e ≤ N) (hbe : b < e)
    (hfuel : e - b + 3 ≤ fuel) : (ministl_sortTraced fuel b e data).Logs fun _ log =>
      (∀ idx ∈ log, b ≤ idx ∧ idx < e) ∧
        (log.length : ℤ) + 5 ≤ (e - b) * (e - b) + 4 * (e - b) := by
  induction fuel generalizing b e data with
  | zero => omega
  | succ fuel ih =>
    rw [ministl_sortTraced]
    by_cases hshort : b ≥ e - 1
    · rw [if_pos hshort]
      obtain rfl : e = b + 1 := by omega
      refine .pure ⟨by simp, ?_⟩
      rw [add_sub_cancel_left]
      simp
    · rw [if_neg hshort]
      obtain ⟨first, hfirst⟩ := exists_cell (N := N) hb (by omega)
      have hstart : Splitting b e (data first) (b - 1) e data := .start hfirst.symm (by omega)
      obtain ⟨r, split, hloop, -, hsplit⟩ := partitionLoop_spec fuel hb he hstart (by omega)
      have hbr := hsplit.begin_lt
      have hre := hsplit.lt_end
      refine (derefTraced_logs data b).bind ?_
      rintro pivot _ hval rfl
      rw [derefTraced, Traced.value_record, ← hfirst, deref_cell] at hval
      cases hval
      refine ((partitionLoopTraced_logs fuel hb he hstart (by omega)).and
        (partitionLoopTraced_length fuel hb he hstart (by omega))).bind ?_
      rintro p log hval ⟨hin, hlen⟩
      rw [partitionLoopTraced_value, hloop] at hval
      cases hval
      refine (ih split hb (by omega) hbr (by omega)).bind ?_
      rintro sorted logLow - ⟨hinLow, hlenLow⟩ data' logHigh hrun
      obtain ⟨hinHigh, hlenHigh⟩ := ih sorted (by omega) he hre (by omega) data' logHigh hrun
      constructor
      · simp only [List.forall_mem_append, List.forall_mem_singleton]
        refine ⟨⟨le_rfl, hbe⟩, hin, ?_, ?_⟩
        · intro idx hidx
          have := hinLow idx hidx
          omega
        · intro idx hidx
          have := hinHigh idx hidx
          omega
      · simp only [List.length_append, List.length_singleton]
        push_cast
        -- the part sizes multiply to at least their sum less one
        nlinarith [mul_nonneg (show 0 ≤ ((r : ℕ) : ℤ) + 1 - b - 1 by omega)
          (show 0 ≤ e - (((r : ℕ) : ℤ) + 1) - 1 by omega)]

/-- The sort of a range returns after at most quadratically many dereferences, all in the range. -/
theorem ministl_sort_dereferences (data : Fin N → α) (fuel : ℕ) (hb : 0 ≤ b) (hbe : b ≤ e)
    (he : e ≤ N) (hfuel : e - b + 3 ≤ fuel) : ∃ data' log,
      ministl_sort fuel b e data = pure data' ∧
      (ministl_sortTraced fuel b e data).run = pure (data', log) ∧
      (∀ idx ∈ log, b ≤ idx ∧ idx < e) ∧ (log.length : ℤ) ≤ (e - b) * (e - b + 4) := by
  obtain ⟨data', hsort, -⟩ := sort_spec data fuel hb he hbe hfuel
  have hvalue := (ministl_sortTraced_value fuel b e data).trans hsort
  rcases hbe.eq_or_lt with rfl | hlt
  · have hshort := sortTraced_short (show 0 < fuel by omega) (show b - 1 ≤ b by omega) data
    rw [hshort, Traced.value_pure] at hvalue
    cases hvalue
    exact ⟨data, [], hsort, by rw [hshort]; rfl, by simp, by simp⟩
  · obtain ⟨log, hrun, hin, hlen⟩ := (sortTraced_logs fuel data hb he hlt hfuel).returns hvalue
    refine ⟨data', log, hsort, hrun, hin, ?_⟩
    nlinarith

theorem ministl_sort_dereferences_sample : ∃ data' log,
    (ministl_sortTraced 6 1 4 (![5, 3, 3, 1, 0] : Fin 5 → ℕ)).run = pure (data', log) ∧
      (∀ idx ∈ log, 1 ≤ idx ∧ idx < 4) ∧ (log.length : ℤ) ≤ 21 := by
  obtain ⟨data', log, -, hrun, hin, hlen⟩ :=
    ministl_sort_dereferences (b := 1) (e := 4) (![5, 3, 3, 1, 0] : Fin 5 → ℕ) 6
      (by decide) (by decide) (by decide) (by decide)
  exact ⟨data', log, hrun, hin, hlen⟩

end bound

section inOrder

def IncreasingWithin (b e : ℤ) (data : Fin N → α) : Prop :=
  ∀ i j, Within b e i → Within b e j → i < j → data i < data j

theorem partitionLoopTraced_increasing {first : Fin N} {fuel : ℕ} (he : e ≤ N)
    (hfirst : ((first : ℕ) : ℤ) = b) (hlong : b < e - 1) (hinc : IncreasingWithin b e data)
    (hfuel : e - b + 2 ≤ fuel) : (partitionLoopTraced (data first) fuel (b - 1) e data).Logs
      fun p log => p = (b, data) ∧ (log.length : ℤ) = e - b + 1 := by
  obtain ⟨fuel, rfl⟩ : ∃ k, fuel = k + 1 := ⟨fuel - 1, by omega⟩
  have hpivot : data first ≤ data first := le_rfl
  obtain ⟨l, hl, hll, hlf, -, -⟩ :=
    scanLeft_spec fuel (b - 1) (by omega) (by omega) hpivot (by omega)
  obtain ⟨r, hr, hrr, hrf, hrp, -⟩ := scanRight_spec fuel e he (by omega) hpivot (by omega)
  have hfl : l = first := by
    have : (l : ℕ) ≤ first := hlf
    exact Fin.ext (by omega)
  have hfr : r = first := by
    have hle : (first : ℕ) ≤ r := hrf
    rcases hrf.lt_or_eq with hlt | heq
    · exact absurd hrp (not_le.mpr (hinc first r ⟨by omega, by omega⟩ ⟨by omega, hrr⟩ hlt))
    · exact heq.symm
  subst hfl hfr
  rw [partitionLoopTraced, if_pos (by omega)]
  refine ((scanLeftTraced_inside (b := b) (e := e) hl le_rfl (by omega)).and
    (scanLeftTraced_length fuel (b - 1))).bind ?_
  rintro _ log - ⟨⟨rfl, -⟩, hlen⟩
  refine ((scanRightTraced_inside (b := b) (e := e) hr le_rfl (by omega)).and
    (scanRightTraced_length fuel e)).bind ?_
  rintro _ log' - ⟨⟨rfl, -⟩, hlen'⟩
  dsimp only
  rw [if_neg (lt_irrefl _)]
  refine Traced.Logs.bind (P := fun data' log => data' = data ∧ log = []) (.pure ⟨rfl, rfl⟩) ?_
  rintro _ _ - ⟨rfl, rfl⟩
  obtain ⟨fuel, rfl⟩ : ∃ k, fuel = k + 1 := ⟨fuel - 1, by omega⟩
  rw [partitionLoopTraced, if_neg (lt_irrefl _)]
  apply Traced.Logs.pure
  rw [hfirst]
  refine ⟨rfl, ?_⟩
  simp only [List.length_append, List.length_nil]
  omega

theorem sortTraced_increasing (fuel : ℕ) (hb : 0 ≤ b) (hbe : b < e) (he : e ≤ N)
    (hinc : IncreasingWithin b e data) (hfuel : e - b + 3 ≤ fuel) :
    (ministl_sortTraced fuel b e data).Logs fun data' log =>
      data' = data ∧ 2 * (log.length : ℤ) = (e - b - 1) * (e - b + 6) := by
  induction fuel generalizing b with
  | zero => omega
  | succ fuel ih =>
    by_cases hshort : e - 1 ≤ b
    · rw [sortTraced_short (Nat.succ_pos fuel) hshort]
      obtain rfl : e = b + 1 := by omega
      refine .pure ⟨rfl, ?_⟩
      rw [add_sub_cancel_left]
      rfl
    · obtain ⟨first, hfirst⟩ := exists_cell (N := N) hb (by omega)
      rw [ministl_sortTraced, if_neg hshort]
      refine (derefTraced_logs data b).bind ?_
      rintro pivot _ hval rfl
      rw [derefTraced, Traced.value_record, ← hfirst, deref_cell] at hval
      cases hval
      refine (partitionLoopTraced_increasing he hfirst (by omega) hinc (by omega)).bind ?_
      rintro _ log - ⟨rfl, hlen⟩
      dsimp only
      rw [sortTraced_short (show 0 < fuel by omega) (show b + 1 - 1 ≤ b by omega)]
      refine Traced.Logs.bind (P := fun data' log => data' = data ∧ log = []) (.pure ⟨rfl, rfl⟩) ?_
      rintro left _ - ⟨hleft, rfl⟩
      rw [hleft]
      intro data' rest hrun
      have hinc' : IncreasingWithin (b + 1) e data := by
        intro i j hi hj hij
        exact hinc i j ⟨by linarith [hi.1], hi.2⟩ ⟨by linarith [hj.1], hj.2⟩ hij
      obtain ⟨rfl, hrest⟩ := ih (by omega) (by omega) hinc' (by omega) data' rest hrun
      refine ⟨rfl, ?_⟩
      simp only [List.length_append, List.length_singleton, List.length_nil]
      push_cast
      linarith

/-- A range in strictly increasing order is left as it is, at the cost of a dereference for
almost every other pair of its positions. -/
theorem sort_increasing_dereferences (data : Fin N → α) (fuel : ℕ) (hb : 0 ≤ b) (hbe : b < e)
    (he : e ≤ N) (hinc : ∀ i j : Fin N, b ≤ (i : ℕ) → i < j → ((j : ℕ) : ℤ) < e → data i < data j)
    (hfuel : e - b + 3 ≤ fuel) : ∃ log,
      (ministl_sortTraced fuel b e data).run = pure (data, log) ∧
      2 * (log.length : ℤ) = (e - b - 1) * (e - b + 6) := by
  have hwithin : IncreasingWithin b e data := fun i j hi hj hij => hinc i j hi.1 hij hj.2
  obtain ⟨data', hsort, -⟩ := sort_spec data fuel hb he hbe.le hfuel
  have hvalue := (ministl_sortTraced_value fuel b e data).trans hsort
  obtain ⟨log, hrun, rfl, hlen⟩ :=
    (sortTraced_increasing fuel hb hbe he hwithin hfuel).returns hvalue
  exact ⟨log, hrun, hlen⟩

theorem sort_increasing_dereferences_sample : ∃ log,
    (ministl_sortTraced 7 0 4 (![1, 2, 4, 8] : Fin 4 → ℕ)).run =
      pure ((![1, 2, 4, 8] : Fin 4 → ℕ), log) ∧ log.length = 15 := by
  obtain ⟨log, hrun, hlen⟩ := sort_increasing_dereferences (b := 0) (e := 4)
    (![1, 2, 4, 8] : Fin 4 → ℕ) 7 (by decide) (by decide) (by decide) (by decide) (by decide)
  exact ⟨log, hrun, by omega⟩

end inOrder
end ModCpp.MinistlSort
