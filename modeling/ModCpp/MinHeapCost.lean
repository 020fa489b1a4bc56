import ModCpp.MinHeapBuild
import ModCpp.TracedLoop
import Mathlib.Algebra.Order.BigOperators.Group.Finset

/-!
# The array accesses of `MinHeap`

The methods with the positions of `data` logged that they read or write. How far an element moves
is bounded by the height of its position, whatever the array holds.
-/

namespace ModCpp.MinHeap

section code
variable (conv : ℤ → ℤ) (MaxHeapSize : ℕ)

def getTraced (h : Heap) (i : ℕ) : Traced ℕ ℤ := .record [i] (get MaxHeapSize h i)

def swapTraced (h : Heap) (i j : ℕ) : Traced ℕ Heap := .record [i, j, i, j] (swap MaxHeapSize h i j)

/-- A child that is less is read a second time, into `min_val`. -/
def childTraced (h : Heap) (pos : ℕ) (best : ℤ × ℕ) : Traced ℕ (ℤ × ℕ) :=
  if pos ≤ h.last then do
    let val ← getTraced MaxHeapSize h pos
    if val < best.1 then do
      let val ← getTraced MaxHeapSize h pos
      pure (conv val, pos)
    else pure best
  else pure best

def downTraced : ℕ → ℕ → Heap → Traced ℕ Heap
  | 0, _, _ => .record [] running
  | fuel + 1, root, h => do
    let val ← getTraced MaxHeapSize h root
    let left ← .record [] (int (root * 2))
    let best ← childTraced conv MaxHeapSize h left (conv val, root)
    let right ← .record [] (int (root * 2 + 1))
    let best ← childTraced conv MaxHeapSize h right best
    if best.2 ≠ root then do
      let h ← swapTraced MaxHeapSize h root best.2
      downTraced fuel best.2 h
    else pure h

def upTraced : ℕ → ℕ → Heap → Traced ℕ Heap
  | 0, _, _ => .record [] running
  | fuel + 1, root, h =>
    if root = 1 then pure h
    else do
      let father := root / 2
      let a ← getTraced MaxHeapSize h father
      let b ← getTraced MaxHeapSize h root
      if a > b then do
        let h ← swapTraced MaxHeapSize h father root
        upTraced fuel father h
      else pure h

def pushTraced (val : ℤ) (h : Heap) : Traced ℕ Result :=
  if full MaxHeapSize h then pure (.error "heap is full", h)
  else do
    let last ← .record [] (int (h.last + 1))
    let h ← .record [last] (set MaxHeapSize { h with last := last } last val)
    let h ← upTraced MaxHeapSize last last h
    pure (.ok none, h)

def topTraced (h : Heap) : Traced ℕ Result :=
  if empty h then pure (.error "heap is empty", h)
  else do
    let val ← getTraced MaxHeapSize h 1
    pure (.ok (some val), h)

def popTraced (h : Heap) : Traced ℕ Result :=
  if empty h then pure (.error "heap is empty", h)
  else do
    let h ← swapTraced MaxHeapSize h 1 h.last
    let h := { h with last := h.last - 1 }
    let h ← downTraced conv MaxHeapSize (h.last + 1) 1 h
    pure (.ok none, h)

def invokeTraced (h : Heap) : Call → Traced ℕ Result
  | .push val => pushTraced MaxHeapSize val h
  | .top => topTraced MaxHeapSize h
  | .pop => popTraced conv MaxHeapSize h

def buildFromTraced : ℕ → Heap → Traced ℕ Heap
  | 0, h => pure h
  | i + 1, h => do
    let h ← downTraced conv MaxHeapSize (h.last + 1) (i + 1) h
    buildFromTraced i h

def buildHeapTraced (h : Heap) : Traced ℕ Heap :=
  buildFromTraced conv MaxHeapSize (h.last / 2) h

def uncaughtTraced (call : Traced ℕ Result) : Traced ℕ (Option ℤ × Heap) := do
  match ← call with
  | (.ok val, h) => pure (val, h)
  | (.error what, _) => .record [] (throw (.exception what))

def drainTraced : ℕ → Heap → Traced ℕ (List ℤ)
  | 0, _ => .record [] running
  | fuel + 1, h =>
    if size h = 0 then pure []
    else do
      let (val, h) ← uncaughtTraced (topTraced MaxHeapSize h)
      let (_, h) ← uncaughtTraced (popTraced conv MaxHeapSize h)
      let vals ← drainTraced fuel h
      return val.toList ++ vals

end code

section values
variable {conv : ℤ → ℤ} {M : ℕ} {h : Heap}

theorem childTraced_value (pos : ℕ) (best : ℤ × ℕ) :
    (childTraced conv M h pos best).value = child conv M h pos best := by
  rw [childTraced, child]
  split_ifs
  · rw [Traced.value_bind, getTraced, Traced.value_record]
    by_cases hpos : 1 ≤ pos ∧ pos < M
    · rw [get, if_pos hpos, pure_bind, pure_bind]
      split_ifs
      · rw [Traced.value_bind, Traced.value_record, pure_bind, Traced.value_pure]
      · rfl
    · rw [get, if_neg hpos]
      rfl
  · rfl

theorem downTraced_value (fuel root : ℕ) (h : Heap) :
    (downTraced conv M fuel root h).value = down conv M fuel root h := by
  induction fuel generalizing root h with
  | zero => rfl
  | succ fuel ih =>
    rw [downTraced, down, Traced.value_bind, getTraced, Traced.value_record]
    refine bind_congr fun val => ?_
    rw [Traced.value_bind, Traced.value_record]
    refine bind_congr fun left => ?_
    rw [Traced.value_bind, childTraced_value]
    refine bind_congr fun best => ?_
    rw [Traced.value_bind, Traced.value_record]
    refine bind_congr fun right => ?_
    rw [Traced.value_bind, childTraced_value]
    refine bind_congr fun best => ?_
    split_ifs
    · rw [Traced.value_bind, swapTraced, Traced.value_record]
      exact bind_congr fun h => ih best.2 h
    · rfl

theorem upTraced_value (fuel root : ℕ) (h : Heap) :
    (upTraced M fuel root h).value = up M fuel root h := by
  induction fuel generalizing root h with
  | zero => rfl
  | succ fuel ih =>
    rw [upTraced, up]
    split_ifs
    · rfl
    · dsimp only
      rw [Traced.value_bind, getTraced, Traced.value_record]
      refine bind_congr fun a => ?_
      rw [Traced.value_bind, getTraced, Traced.value_record]
      refine bind_congr fun b => ?_
      split_ifs
      · rw [Traced.value_bind, swapTraced, Traced.value_record]
        exact bind_congr fun h => ih (root / 2) h
      · rfl

theorem pushTraced_value (val : ℤ) : (pushTraced M val h).value = push M val h := by
  rw [pushTraced, push]
  split_ifs
  · rfl
  · rw [Traced.value_bind, Traced.value_record]
    refine bind_congr fun last => ?_
    rw [Traced.value_bind, Traced.value_record]
    refine bind_congr fun h => ?_
    rw [Traced.value_bind, upTraced_value]
    rfl

theorem topTraced_value : (topTraced M h).value = top M h := by
  rw [topTraced, top]
  split_ifs
  · rfl
  · rw [Traced.value_bind, getTraced, Traced.value_record]
    rfl

theorem popTraced_value : (popTraced conv M h).value = pop conv M h := by
  rw [popTraced, pop]
  split_ifs
  · rfl
  · rw [Traced.value_bind, swapTraced, Traced.value_record]
    refine bind_congr fun h => ?_
    rw [Traced.value_bind, downTraced_value]
    rfl

theorem invokeTraced_value (c : Call) : (invokeTraced conv M h c).value = invoke conv M h c := by
  cases c with
  | push val => exact pushTraced_value val
  | top => exact topTraced_value
  | pop => exact popTraced_value

theorem buildFromTraced_value (i : ℕ) (h : Heap) :
    (buildFromTraced conv M i h).value = buildFrom conv M i h := by
  induction i generalizing h with
  | zero => rfl
  | succ i ih =>
    rw [buildFromTraced, buildFrom, Traced.value_bind, downTraced_value]
    exact bind_congr fun h => ih h

theorem uncaughtTraced_value (call : Traced ℕ Result) :
    (uncaughtTraced call).value = uncaught call.value := by
  rw [uncaughtTraced, uncaught, Traced.value_bind]
  refine bind_congr fun r => ?_
  obtain ⟨res, h⟩ := r
  cases res <;> rfl

theorem drainTraced_value (fuel : ℕ) (h : Heap) :
    (drainTraced conv M fuel h).value = drain conv M fuel h := by
  induction fuel generalizing h with
  | zero => rfl
  | succ fuel ih =>
    rw [drainTraced, drain]
    split_ifs
    · rfl
    · rw [Traced.value_bind, uncaughtTraced_value, topTraced_value]
      refine bind_congr fun r => ?_
      dsimp only
      rw [Traced.value_bind, uncaughtTraced_value, popTraced_value]
      refine bind_congr fun r' => ?_
      rw [Traced.value_bind, ih]
      rfl

end values

section logs
variable {conv : ℤ → ℤ} {M : ℕ} {h : Heap}

theorem getTraced_logs (i : ℕ) : (getTraced M h i).Logs fun _ log => log.length = 1 :=
  .record fun _ _ => rfl

theorem swapTraced_logs (i j : ℕ) :
    (swapTraced M h i j).Logs fun h' log => h'.last = h.last ∧ log.length = 4 :=
  .record fun _ hswap => ⟨(swap_yields i j).returns _ hswap, rfl⟩

theorem intTraced_logs (i : ℕ) :
    (Traced.record ([] : List ℕ) (int i)).Logs fun j log => j = i ∧ log = [] :=
  .record fun _ hint => ⟨(int_yields i).returns _ hint, rfl⟩

theorem childTraced_logs (pos : ℕ) (best : ℤ × ℕ) :
    (childTraced conv M h pos best).Logs fun best' log =>
      best' = best ∧ log.length ≤ 1 ∨ best'.2 = pos ∧ pos ≤ h.last ∧ log.length ≤ 2 := by
  rw [childTraced]
  split_ifs with hpos
  · refine (getTraced_logs pos).bind ?_
    intro val log _ hlen
    split_ifs
    · refine (getTraced_logs pos).bind ?_
      intro val' log' _ hlen'
      apply Traced.Logs.pure
      refine .inr ⟨rfl, hpos, ?_⟩
      rw [List.append_nil, List.length_append, hlen, hlen']
    · apply Traced.Logs.pure
      refine .inl ⟨rfl, ?_⟩
      rw [List.append_nil, hlen]
  · exact .pure (.inl ⟨rfl, Nat.zero_le 1⟩)

/-- An element that sinks is compared at most twice at each height. -/
theorem downTraced_logs (fuel root : ℕ) (h1 : 1 ≤ root) : (downTraced conv M fuel root h).Logs
    fun h' log => h'.last = h.last ∧ log.length ≤ 3 + 9 * height h.last root := by
  induction fuel generalizing root h with
  | zero => exact .record fun _ hrun => by cases hrun
  | succ fuel ih =>
    rw [downTraced]
    refine (getTraced_logs root).bind ?_
    intro val log₁ _ hget
    refine (intTraced_logs _).bind ?_
    rintro left log₂ - ⟨rfl, rfl⟩
    refine (childTraced_logs _ _).bind ?_
    intro best log₃ _ hbest
    refine (intTraced_logs _).bind ?_
    rintro right log₄ - ⟨rfl, rfl⟩
    refine (childTraced_logs _ _).bind ?_
    intro best' log₅ _ hbest'
    have hreads : log₃.length ≤ 2 ∧ log₅.length ≤ 2 := by omega
    split_ifs with hmove
    · have hchild : best'.2 / 2 = root ∧ best'.2 ≤ h.last := by
        rcases hbest' with ⟨rfl, -⟩ | ⟨hpos, hle, -⟩
        · rcases hbest with ⟨rfl, -⟩ | ⟨hpos, hle, -⟩
          · exact absurd rfl hmove
          · omega
        · omega
      have hheight := height_child h1 hchild.1 hchild.2
      refine (swapTraced_logs root best'.2).bind ?_
      rintro h₁ log₆ - ⟨hlast, hswap⟩ h' log hrun
      obtain ⟨hlast', hlen⟩ := ih best'.2 (by omega) h' log hrun
      rw [hlast] at hlast' hlen
      refine ⟨hlast', ?_⟩
      simp only [List.length_append, List.length_nil]
      omega
    · -- `root` stays the least: neither child is read again
      have hkept : log₃.length ≤ 1 ∧ log₅.length ≤ 1 := by
        rcases hbest' with ⟨rfl, hright⟩ | ⟨hpos, -, -⟩
        · rcases hbest with ⟨rfl, hleft⟩ | ⟨hpos, -, -⟩
          · exact ⟨hleft, hright⟩
          · omega
        · omega
      apply Traced.Logs.pure
      refine ⟨rfl, ?_⟩
      simp only [List.length_append, List.length_nil]
      omega

theorem upTraced_logs (fuel root : ℕ) (h1 : 1 ≤ root) :
    (upTraced M fuel root h).Logs fun _ log => log.length ≤ 6 * Nat.log 2 root := by
  induction fuel generalizing root h with
  | zero => exact .record fun _ hrun => by cases hrun
  | succ fuel ih =>
    rw [upTraced]
    split_ifs with hroot
    · exact .pure (Nat.zero_le _)
    · have hlog := Nat.log_of_one_lt_of_le (b := 2) (by decide) (show 2 ≤ root by omega)
      refine (getTraced_logs _).bind ?_
      intro a log₁ _ ha
      refine (getTraced_logs _).bind ?_
      intro b log₂ _ hb
      split_ifs
      · refine (swapTraced_logs _ _).bind ?_
        rintro h₁ log₃ - ⟨-, hswap⟩ h' log hrun
        have hlen := ih (root / 2) (by omega) h' log hrun
        simp only [List.length_append]
        omega
      · apply Traced.Logs.pure
        simp only [List.length_append, List.length_nil]
        omega

theorem pushTraced_logs (val : ℤ) : (pushTraced M val h).Logs
    fun _ log => log.length ≤ 1 + 6 * Nat.log 2 (h.last + 1) := by
  rw [pushTraced]
  split_ifs
  · exact .pure (Nat.zero_le _)
  · refine (intTraced_logs _).bind ?_
    rintro last _ - ⟨rfl, rfl⟩
    refine Traced.Logs.bind (P := fun _ log => log.length = 1) (.record fun _ _ => rfl) ?_
    intro h₁ log₁ _ hset
    refine (upTraced_logs _ _ (Nat.le_add_left 1 _)).bind ?_
    intro h₂ log₂ _ hup
    apply Traced.Logs.pure
    simp only [List.length_append, List.length_nil]
    omega

theorem topTraced_logs : (topTraced M h).Logs fun r log => r.2 = h ∧ log.length ≤ 1 := by
  rw [topTraced]
  split_ifs
  · exact .pure ⟨rfl, Nat.zero_le _⟩
  · refine (getTraced_logs 1).bind ?_
    intro val log _ hlen
    apply Traced.Logs.pure
    rw [List.append_nil, hlen]
    exact ⟨rfl, le_rfl⟩

theorem popTraced_logs : (popTraced conv M h).Logs
    fun r log => r.2.last = h.last - 1 ∧ log.length ≤ 7 + 9 * Nat.log 2 h.last := by
  rw [popTraced]
  split_ifs with hempty
  · have hlast : h.last = 0 := hempty
    exact .pure ⟨by dsimp only; omega, Nat.zero_le _⟩
  · refine (swapTraced_logs 1 h.last).bind ?_
    rintro h₁ log₁ - ⟨hlast, hswap⟩
    refine (downTraced_logs _ 1 le_rfl).bind ?_
    rintro h₂ log₂ - ⟨hlast', hdown⟩
    apply Traced.Logs.pure
    have hlog : height (h₁.last - 1) 1 ≤ Nat.log 2 h.last := by
      rw [height_one, hlast]
      exact Nat.log_mono_right (Nat.sub_le _ 1)
    simp only [List.length_append, List.length_nil]
    dsimp only at hdown hlast' ⊢
    omega

theorem invokeTraced_logs (c : Call) : (invokeTraced conv M h c).Logs
    fun _ log => log.length ≤ 7 + 9 * Nat.log 2 (h.last + 1) := by
  cases c with
  | push val =>
    intro r log hrun
    have hlen := pushTraced_logs val r log hrun
    omega
  | top =>
    intro r log hrun
    have hlen := (topTraced_logs r log hrun).2
    omega
  | pop =>
    intro r log hrun
    have hlen := (popTraced_logs r log hrun).2
    have hmono : Nat.log 2 h.last ≤ Nat.log 2 (h.last + 1) := Nat.log_mono_right (Nat.le_succ _)
    omega

/-- The elements that are sunk are those with a child, and together they sink no further than there
are elements. -/
theorem buildFromTraced_logs (i : ℕ) : (buildFromTraced conv M i h).Logs
    fun h' log => h'.last = h.last ∧
      log.length ≤ 3 * i + 9 * ∑ j ∈ Finset.Icc 1 i, height h.last j := by
  induction i generalizing h with
  | zero => exact .pure ⟨rfl, Nat.zero_le _⟩
  | succ i ih =>
    rw [buildFromTraced]
    refine (downTraced_logs _ (i + 1) (Nat.le_add_left 1 i)).bind ?_
    rintro h₁ log₁ - ⟨hlast, hdown⟩ h' log hrun
    obtain ⟨hlast', hlen⟩ := ih h' log hrun
    rw [hlast] at hlast' hlen
    refine ⟨hlast', ?_⟩
    rw [List.length_append, Finset.sum_Icc_succ_top (Nat.le_add_left 1 i)]
    omega

theorem buildHeapTraced_logs : (buildHeapTraced conv M h).Logs
    fun _ log => 2 * log.length ≤ 21 * h.last := by
  intro h' log hrun
  obtain ⟨-, hlen⟩ := buildFromTraced_logs (h.last / 2) h' log hrun
  have hsub : ∑ j ∈ Finset.Icc 1 (h.last / 2), height h.last j ≤
      ∑ j ∈ Finset.Icc 1 h.last, height h.last j :=
    Finset.sum_le_sum_of_subset (Finset.Icc_subset_Icc le_rfl (Nat.div_le_self _ 2))
  have hsum := sum_height_le h.last
  omega

theorem uncaughtTraced_logs {call : Traced ℕ Result} {P : Heap → List ℕ → Prop}
    (hcall : call.Logs fun r log => P r.2 log) :
    (uncaughtTraced call).Logs fun r log => P r.2 log := by
  rw [uncaughtTraced]
  refine hcall.bind ?_
  intro r log _ hP
  obtain ⟨res, h⟩ := r
  cases res with
  | ok val =>
    apply Traced.Logs.pure
    rwa [List.append_nil]
  | error what => exact .record fun _ hthrow => by cases hthrow

theorem drainTraced_logs {n : ℕ} (fuel : ℕ) (hn : h.last ≤ n) : (drainTraced conv M fuel h).Logs
    fun _ log => log.length ≤ h.last * (8 + 9 * Nat.log 2 n) := by
  induction fuel generalizing h with
  | zero => exact .record fun _ hrun => by cases hrun
  | succ fuel ih =>
    rw [drainTraced]
    split_ifs with hsize
    · exact .pure (Nat.zero_le _)
    · refine (uncaughtTraced_logs (P := fun h' log => h' = h ∧ log.length ≤ 1)
        topTraced_logs).bind ?_
      rintro ⟨val, h₁⟩ log₁ - ⟨hkept, htop⟩
      refine (uncaughtTraced_logs (P := fun h' log =>
        h'.last = h₁.last - 1 ∧ log.length ≤ 7 + 9 * Nat.log 2 h₁.last) popTraced_logs).bind ?_
      rintro ⟨_, h₂⟩ log₂ - ⟨hlast, hpop⟩
      dsimp only at hkept hlast hpop ⊢
      subst hkept
      refine (ih (by omega)).bind ?_
      intro vals log₃ _ hrest
      apply Traced.Logs.pure
      have hlog : Nat.log 2 h₁.last ≤ Nat.log 2 n := Nat.log_mono_right hn
      have hsucc : h₁.last * (8 + 9 * Nat.log 2 n) =
          h₂.last * (8 + 9 * Nat.log 2 n) + (8 + 9 * Nat.log 2 n) := by
        have hpos : h₁.last ≠ 0 := hsize
        rw [← Nat.succ_mul]
        congr 1
        omega
      simp only [List.length_append, List.length_nil]
      omega

end logs

section runs
variable {M : ℕ} {h : Heap}

/-- In every run each call of a heap of `n` elements returns after a number of accesses that is
logarithmic in `n`. -/
theorem calls_logarithmic {tr : List (Call × Except String (Option ℤ))} (hM : 1 ≤ M)
    (hint : M ≤ 2 ^ 30 + 1) (hr : (heapSystem id M).Run System.always tr h) (c : Call) :
    ∃ r log, (invokeTraced id M h c).run = pure (r, log) ∧ invoke id M h c = pure r ∧
      log.length ≤ 7 + 9 * Nat.log 2 (size h + 1) := by
  obtain ⟨hs, -⟩ := run_sound_of_small hM hint hr
  obtain ⟨res, h', hcall, -⟩ := invoke_served hM hs hint c
  obtain ⟨log, hrun, hlen⟩ :=
    (invokeTraced_logs c).returns ((invokeTraced_value c).trans hcall)
  exact ⟨_, log, hrun, hcall, hlen⟩

theorem serves_top {cap : ℕ} {s s' : Multiset ℤ} {x : ℤ}
    (h : Serves cap s .top (.ok (some x)) s') : x ∈ s ∧ ∀ y ∈ s, x ≤ y := by
  cases h with
  | top hmem hleast => exact ⟨hmem, hleast⟩

theorem serves_pop {cap : ℕ} {s s' : Multiset ℤ} {res : Except String (Option ℤ)}
    (h : Serves cap s .pop res s') (hs : s ≠ 0) :
    ∃ x ∈ s, (∀ y ∈ s, x ≤ y) ∧ res = .ok none ∧ s' = s.erase x := by
  cases h with
  | pop hmem hleast => exact ⟨_, hmem, hleast, rfl, rfl⟩
  | popEmpty => exact absurd rfl hs

theorem drain_sorted (fuel : ℕ) (hs : Sound M h) (hsmall : h.last ≤ 2 ^ 30)
    (hfuel : h.last < fuel) : ∃ out : List ℤ, drain id M fuel h = pure out ∧
      out.Pairwise (· ≤ ·) ∧ (out : Multiset ℤ) = h.contents := by
  induction fuel generalizing h with
  | zero => omega
  | succ fuel ih =>
    have hcard : Multiset.card h.contents = h.last := card_contents
    rw [drain]
    split_ifs with hsize
    · refine ⟨[], rfl, .nil, ?_⟩
      have hzero : h.last = 0 := hsize
      exact (Multiset.card_eq_zero.mp (hcard.trans hzero)).symm
    · have hpos : h.last ≠ 0 := hsize
      have hleft : ServedBy id M h .top := top_served hs
      obtain ⟨res, h₁, htop, hserves, -, -⟩ := hleft
      obtain ⟨res', h₂, hpop, hserves', -, hs₂⟩ := pop_served hs (popSinks_id hs hsmall)
      obtain ⟨x, hx⟩ := top_pure hpos htop
      have hres : res = .ok (some x) := congrArg Prod.fst hx
      have hkept : h₁ = h := congrArg Prod.snd hx
      rw [hres] at hserves
      rw [hres, hkept] at htop
      obtain ⟨hmem, hleast⟩ := serves_top hserves
      have hne : h.contents ≠ 0 := by
        intro hzero
        rw [hzero] at hmem
        exact Multiset.notMem_zero x hmem
      obtain ⟨y, hmem', hleast', rfl, hrest⟩ := serves_pop hserves' hne
      obtain rfl : x = y := le_antisymm (hleast y hmem') (hleast' x hmem)
      have hcard' : Multiset.card h₂.contents = h₂.last := card_contents
      rw [hrest, Multiset.card_erase_of_mem hmem, hcard, Nat.pred_eq_sub_one] at hcard'
      obtain ⟨out, hdrain, hsorted, hout⟩ := ih hs₂ (by omega) (by omega)
      refine ⟨x :: out, ?_, ?_, ?_⟩
      · rw [show top M h = pure (.ok (some x), h) from htop]
        change (uncaught (pop id M h) >>= fun r => drain id M fuel r.2 >>= fun vals =>
          pure (x :: vals)) = _
        rw [show pop id M h = pure (.ok none, h₂) from hpop]
        change (drain id M fuel h₂ >>= fun vals => pure (x :: vals)) = _
        rw [hdrain, pure_bind]
      · refine List.pairwise_cons.mpr ⟨?_, hsorted⟩
        intro z hz
        have hz' : z ∈ h₂.contents := hout ▸ Multiset.mem_coe.mpr hz
        rw [hrest] at hz'
        exact hleast z (Multiset.mem_of_mem_erase hz')
      · rw [← Multiset.cons_coe, hout, hrest, Multiset.cons_erase hmem]

/-- `build_heap` and the loop of `heap_routine` sort any elements that fit, the former with a
linear number of accesses. -/
theorem heap_sorts {last : ℕ} (data : ℕ → ℤ) (hlast : last < M) (hsmall : last < 2 ^ 30) :
    ∃ h' built out drained, (buildHeapTraced id M ⟨data, last⟩).run = pure (h', built) ∧
      (drainTraced id M (last + 1) h').run = pure (out, drained) ∧
      out.Pairwise (· ≤ ·) ∧ (out : Multiset ℤ) = contents data last ∧
      2 * built.length ≤ 21 * last ∧ drained.length ≤ last * (8 + 9 * Nat.log 2 last) := by
  rcases buildHeap_spec (h := ⟨data, last⟩) hlast with ⟨⟨h', hbuilt⟩, -⟩ | ⟨-, hbig, -⟩
  · have hlast' : h'.last = last := hbuilt.last
    have hs : Sound M h' := by
      refine ⟨?_, by omega⟩
      intro i h2 hi _
      exact hbuilt.ordered i h2 (hlast' ▸ hi)
    obtain ⟨out, hdrain, hsorted, hout⟩ := drain_sorted (last + 1) hs (by omega) (by omega)
    obtain ⟨built, hrun, hbound⟩ :=
      buildHeapTraced_logs.returns ((buildFromTraced_value _ _).trans hbuilt.returns)
    obtain ⟨drained, hrun', hbound'⟩ :=
      (drainTraced_logs (last + 1) hlast'.le).returns ((drainTraced_value _ _).trans hdrain)
    rw [hlast'] at hbound'
    refine ⟨h', built, out, drained, hrun, hrun', hsorted, ?_, hbound, hbound'⟩
    rw [hout, Heap.contents, hlast']
    exact hbuilt.permutes
  · exact absurd hsmall (not_lt.mpr hbig)

theorem calls_logarithmic_sample : ∃ h r log,
    (heapSystem id 4).Run System.always [(.push 5, .ok none)] h ∧
      (invokeTraced id 4 h .pop).run = pure (r, log) ∧ invoke id 4 h .pop = pure r ∧
      log.length ≤ 16 := by
  have hinit : (heapSystem id 4).init ⟨fun _ => 0, 0⟩ := rfl
  have hr : (heapSystem id 4).Run System.always ([] ++ [(.push 5, .ok none)])
      ⟨Function.update (fun _ => 0) 1 5, 1⟩ := .step (.start hinit) trivial rfl
  obtain ⟨r, log, hrun, hcall, hlen⟩ := calls_logarithmic (by decide) (by decide) hr .pop
  exact ⟨_, r, log, hr, hrun, hcall, hlen⟩

/-- Nine elements, as in `heap_routine`. -/
theorem heap_sorts_sample : ∃ h' built out drained,
    (buildHeapTraced id 1000 ⟨fun i => 10 - (i : ℤ), 9⟩).run = pure (h', built) ∧
      (drainTraced id 1000 10 h').run = pure (out, drained) ∧ out.Pairwise (· ≤ ·) ∧
      (out : Multiset ℤ) = contents (fun i => 10 - (i : ℤ)) 9 ∧ 2 * built.length ≤ 189 ∧
      drained.length ≤ 315 := by
  obtain ⟨h', built, out, drained, hrun, hrun', hsorted, hout, hbuilt, hdrained⟩ :=
    heap_sorts (fun i => 10 - (i : ℤ)) (show 9 < 1000 by decide) (by decide)
  exact ⟨h', built, out, drained, hrun, hrun', hsorted, hout, hbuilt,
    hdrained.trans (by decide)⟩

end runs

end ModCpp.MinHeap
