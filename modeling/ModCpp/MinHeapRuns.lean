import ModCpp.MinHeap

/-!
# `MinHeap<int>` as a priority queue
-/

namespace ModCpp.MinHeap

/-- A priority queue with room for `cap` elements. -/
inductive Serves (cap : ℕ) :
    Multiset ℤ → Call → Except String (Option ℤ) → Multiset ℤ → Prop
  | push {s : Multiset ℤ} {val : ℤ} :
      Multiset.card s < cap → Serves cap s (.push val) (.ok none) (val ::ₘ s)
  | full {s : Multiset ℤ} {val : ℤ} :
      Multiset.card s = cap → Serves cap s (.push val) (.error "heap is full") s
  | top {s : Multiset ℤ} {x : ℤ} :
      x ∈ s → (∀ y ∈ s, x ≤ y) → Serves cap s .top (.ok (some x)) s
  | topEmpty : Serves cap 0 .top (.error "heap is empty") 0
  | pop {s : Multiset ℤ} {x : ℤ} :
      x ∈ s → (∀ y ∈ s, x ≤ y) → Serves cap s .pop (.ok none) (s.erase x)
  | popEmpty : Serves cap 0 .pop (.error "heap is empty") 0

def priorityQueue (cap : ℕ) : System (Multiset ℤ) (Call × Except String (Option ℤ)) where
  init s := s = 0
  step s e s' := Serves cap s e.1 e.2 s'

def Heap.contents (h : Heap) : Multiset ℤ := ModCpp.contents h.data h.last

section calls
variable {conv : ℤ → ℤ} {M : ℕ} {h : Heap} {val : ℤ}

structure Sound (M : ℕ) (h : Heap) : Prop where
  ordered : HeapOrdered h.data 1 h.last
  fits : h.last ≤ M - 1

/-- A call on elements that go through the `int` of `down` has a result, a priority queue may
give it, and an exception changes nothing. -/
def ServedBy (conv : ℤ → ℤ) (M : ℕ) (h : Heap) (c : Call) : Prop :=
  ∃ res h', invoke conv M h c = pure (res, h') ∧ Serves (M - 1) h.contents c res h'.contents ∧
    (∀ what, res = .error what → h' = h) ∧ Sound M h'

/-- What `pop` moves to the root sinks to a place in order. -/
def PopSinks (conv : ℤ → ℤ) (h : Heap) : Prop :=
  h.last ≠ 0 → Sinks conv (h.last - 1) h.data (h.data h.last) (h.last - 1 + 1) 1

theorem push_served (hM : 1 ≤ M) (hs : Sound M h) (hint : full M h ∨ h.last + 1 < 2 ^ 31)
    (val : ℤ) : ServedBy conv M h (.push val) := by
  have hfits := hs.fits
  have hcard : Multiset.card h.contents = h.last := card_contents
  by_cases hfull : full M h
  · have hfull' : M - 1 ≤ h.last := hfull
    refine ⟨.error "heap is full", h, if_pos hfull, .full (by omega), fun _ _ => rfl, hs⟩
  · have hroom : h.last < M - 1 := not_le.mp hfull
    have hint := hint.resolve_left hfull
    have hupd : ∀ i, i ≤ h.last → Function.update h.data (h.last + 1) val i = h.data i := by
      intro i hi
      exact Function.update_of_ne (by omega) ..
    have hup : UpOrdered (Function.update h.data (h.last + 1) val) (h.last + 1) (h.last + 1) := by
      constructor
      · intro i h2 hi hne
        rw [hupd i (by omega), hupd (i / 2) (by omega)]
        exact hs.ordered i h2 (by omega) (by omega)
      · intro _ i hi hp
        omega
    obtain ⟨data, hrun, hord, hcont⟩ :=
      up_spec (h := ⟨Function.update h.data (h.last + 1) val, h.last + 1⟩) (M := M) (h.last + 1)
        (show 1 ≤ h.last + 1 by omega) le_rfl (show h.last + 1 < M by omega) le_rfl hup
    refine ⟨.ok none, ⟨data, h.last + 1⟩, ?_, ?_, by simp, hord,
      show h.last + 1 ≤ M - 1 by omega⟩
    · simp only [invoke, push, if_neg hfull, int_of_lt hint, pure_bind]
      rw [set_of (show 1 ≤ h.last + 1 by omega) (show h.last + 1 < M by omega), pure_bind, hrun,
        pure_bind]
    · have hsum : (⟨data, h.last + 1⟩ : Heap).contents = val ::ₘ h.contents := by
        refine hcont.trans ?_
        simp only [contents_succ, Function.update_self]
        exact congrArg _ (contents_congr fun i _ hi => hupd i hi)
      rw [hsum]
      exact .push (by omega)

theorem top_served (hs : Sound M h) : ServedBy conv M h .top := by
  have hfits := hs.fits
  by_cases hempty : empty h
  · have hlast : h.last = 0 := hempty
    have hzero : h.contents = 0 := by rw [Heap.contents, hlast, contents_zero]
    refine ⟨.error "heap is empty", h, if_pos hempty, ?_, fun _ _ => rfl, hs⟩
    rw [hzero]
    exact .topEmpty
  · have hpos : h.last ≠ 0 := hempty
    refine ⟨.ok (some (h.data 1)), h, ?_, .top ?_ ?_, by simp, hs⟩
    · simp only [invoke, top, if_neg hempty]
      rw [get_of le_rfl (by omega), pure_bind]
    · exact mem_contents.mpr ⟨1, le_rfl, by omega, rfl⟩
    · intro y hy
      obtain ⟨i, h1, hi, rfl⟩ := mem_contents.mp hy
      exact hs.ordered.least h1 hi

theorem pop_served (hs : Sound M h) (hsinks : PopSinks conv h) : ServedBy conv M h .pop := by
  have hfits := hs.fits
  by_cases hempty : empty h
  · have hlast : h.last = 0 := hempty
    have hzero : h.contents = 0 := by rw [Heap.contents, hlast, contents_zero]
    refine ⟨.error "heap is empty", h, if_pos hempty, ?_, fun _ _ => rfl, hs⟩
    rw [hzero]
    exact .popEmpty
  · have hpos : h.last ≠ 0 := hempty
    have hother : ∀ i, i ≠ 1 → i ≠ h.last → (h.data ∘ Equiv.swap 1 h.last) i = h.data i :=
      fun _ => comp_swap_of_ne
    have hdown : DownOrdered (h.data ∘ Equiv.swap 1 h.last) 1 (h.last - 1) 1 := by
      constructor
      · intro i h2 hi hlo hne
        rw [hother i (by omega) (by omega), hother (i / 2) hne (by omega)]
        exact hs.ordered i h2 (by omega) hlo
      · intro h0
        omega
    have hval : (h.data ∘ Equiv.swap 1 h.last) 1 = h.data h.last := by simp
    have hsinks₁ := hsinks hpos
    rw [← hval] at hsinks₁
    obtain ⟨data, hrun, hord, hcont, _⟩ :=
      down_of_sinks (h := ⟨h.data ∘ Equiv.swap 1 h.last, h.last - 1⟩) (M := M) le_rfl le_rfl
        (by omega) (show h.last - 1 < M by omega) hsinks₁
        (fun i hi hil => hother i (by omega) (by dsimp only at hil; omega)) hdown
    refine ⟨.ok none, ⟨data, h.last - 1⟩, ?_, ?_, by simp, hord,
      show h.last - 1 ≤ M - 1 by omega⟩
    · simp only [invoke, pop, if_neg hempty]
      rw [swap_of le_rfl (by omega) (by omega) (by omega), pure_bind]
      simp only [hrun, pure_bind]
    · have hsum : h.contents = h.data 1 ::ₘ (⟨data, h.last - 1⟩ : Heap).contents := by
        have hswap : contents (h.data ∘ Equiv.swap 1 h.last) h.last = h.contents :=
          contents_swap le_rfl (by omega) (by omega) le_rfl
        have hlast : h.last = h.last - 1 + 1 := by omega
        rw [← hswap, hlast, contents_succ, ← hlast]
        simp only [Function.comp_apply, Equiv.swap_apply_right]
        exact congrArg _ hcont.symm
      have herase : (⟨data, h.last - 1⟩ : Heap).contents = h.contents.erase (h.data 1) := by
        rw [hsum, Multiset.erase_cons_head]
      rw [herase]
      refine .pop (mem_contents.mpr ⟨1, le_rfl, by omega, rfl⟩) ?_
      intro y hy
      obtain ⟨i, h1, hi, rfl⟩ := mem_contents.mp hy
      exact hs.ordered.least h1 hi

theorem popSinks_id (hs : Sound M h) (hint : h.last ≤ 2 ^ 30) : PopSinks id h := by
  intro hpos
  have hfits := hs.fits
  have hval : (h.data ∘ Equiv.swap 1 h.last) 1 = h.data h.last := by simp
  have hcases := sinks_or_overflow (h := ⟨h.data ∘ Equiv.swap 1 h.last, h.last - 1⟩) (M := M)
    (d := h.data) (h.last - 1 + 1) 1 le_rfl (by omega) (show h.last - 1 < M by omega)
    (show h.last - 1 + 1 ≤ 1 + (h.last - 1 + 1) by omega) (by omega) fun i hi hil =>
      comp_swap_of_ne (by omega) (by dsimp only at hil; omega)
  rw [← hval]
  refine hcases.resolve_right ?_
  intro hover
  have hbig : 2 ^ 30 ≤ h.last - 1 := hover.2.resolve_left (by decide)
  omega

theorem invoke_served (hM : 1 ≤ M) (hs : Sound M h) (hint : M ≤ 2 ^ 30 + 1) (c : Call) :
    ServedBy id M h c := by
  have hfits := hs.fits
  cases c with
  | push val => exact push_served hM hs (.inr (by omega)) val
  | top => exact top_served hs
  | pop => exact pop_served hs (popSinks_id hs (by omega))

end calls

section runs
variable {conv : ℤ → ℤ} {M : ℕ} {h : Heap} {tr : List (Call × Except String (Option ℤ))}

theorem run_served {cond : Heap → Call × Except String (Option ℤ) → Prop}
    (hserved : ∀ h e, Sound M h → cond h e → ServedBy conv M h e.1)
    (hr : ((heapSystem conv M).restrict cond).Run System.always tr h) :
    Sound M h ∧ (priorityQueue (M - 1)).Run System.always tr h.contents := by
  refine System.run_invariant (P := fun tr h => Sound M h ∧
    (priorityQueue (M - 1)).Run System.always tr h.contents) ?_ ?_ hr
  · intro h hinit
    have hlast : h.last = 0 := hinit
    refine ⟨⟨?_, by omega⟩, .start ?_⟩
    · intro i h2 hi
      omega
    · change h.contents = 0
      rw [Heap.contents, hlast, contents_zero]
  · intro tr h e h' _ hinv _ hstep
    obtain ⟨hs, hq⟩ := hinv
    obtain ⟨res, h'', hcall, hserves, _, hs'⟩ := hserved h e hs hstep.1
    have heq : (pure (e.2, h') : Loop Result) = pure (res, h'') := hstep.2.symm.trans hcall
    cases heq
    exact ⟨hs', .step hq trivial hserves⟩

theorem run_sound_of_small (hM : 1 ≤ M) (hint : M ≤ 2 ^ 30 + 1)
    (hr : (heapSystem id M).Run System.always tr h) :
    Sound M h ∧ (priorityQueue (M - 1)).Run System.always tr h.contents :=
  run_served (fun _ e hs _ => invoke_served hM hs hint e.1) (System.restrict_of_run hr)

end runs

section overflow
variable {M : ℕ} {h : Heap}

theorem push_stays {val : ℤ} (hroom : h.last < M - 1) (hint : h.last + 1 < 2 ^ 31)
    (hle : h.last ≠ 0 → h.data ((h.last + 1) / 2) ≤ val) :
    push M val h =
      pure (.ok none, ⟨Function.update h.data (h.last + 1) val, h.last + 1⟩) := by
  have hfull : ¬ full M h := not_le.mpr hroom
  simp only [push, if_neg hfull, int_of_lt hint, pure_bind]
  rw [set_of (show 1 ≤ h.last + 1 by omega) (show h.last + 1 < M by omega), pure_bind, up]
  by_cases h0 : h.last = 0
  · rw [if_pos (by omega), pure_bind]
  · have hne : (h.last + 1) / 2 ≠ h.last + 1 := by omega
    rw [if_neg (by omega)]
    simp only [get_of (M := M) (show 1 ≤ (h.last + 1) / 2 by omega)
      (show (h.last + 1) / 2 < M by omega), get_of (M := M) (show 1 ≤ h.last + 1 by omega)
      (show h.last + 1 < M by omega), pure_bind, Function.update_self,
      Function.update_of_ne hne, gt_iff_lt, not_lt.mpr (hle h0), if_false]

theorem zeros_run {n : ℕ} (hn : n < M) (hint : n < 2 ^ 31) :
    ∃ tr h, (heapSystem id M).Run System.always tr h ∧ h.last = n ∧
      ∀ i, 1 ≤ i → i ≤ n → h.data i = 0 := by
  induction n with
  | zero => exact ⟨[], ⟨fun _ => 0, 0⟩, .start rfl, rfl, fun _ _ _ => rfl⟩
  | succ n ih =>
    obtain ⟨tr, h, hr, hlast, hzero⟩ := ih (by omega) (by omega)
    have hpush : (heapSystem id M).step h (.push 0, .ok none)
        ⟨Function.update h.data (h.last + 1) 0, h.last + 1⟩ :=
      push_stays (by omega) (by omega) fun _ => (hzero _ (by omega) (by omega)).le
    refine ⟨_, _, .step hr trivial hpush, ?_, ?_⟩
    · simp only [hlast]
    · intro i h1 hi
      by_cases he : i = h.last + 1
      · rw [he]
        exact Function.update_self ..
      · refine (Function.update_of_ne he ..).trans (hzero i h1 ?_)
        omega

/-- The only element above zeros sinks along the left edge to a position whose double is not
an `int` any more. -/
theorem down_overflow {n : ℕ} (fuel : ℕ) (hn : n ≤ 30) (hfuel : n < fuel) (hlast : h.last < M)
    (hbig : 2 ^ 30 ≤ h.last) (hone : h.data (2 ^ (30 - n)) = 1)
    (hzero : ∀ i, 2 ^ (30 - n) < i → i ≤ h.last → h.data i = 0) :
    down id M fuel (2 ^ (30 - n)) h = throw (.undefined "int overflow") := by
  induction n generalizing fuel h with
  | zero =>
    obtain ⟨fuel, rfl⟩ : ∃ f, fuel = f + 1 := ⟨fuel - 1, by omega⟩
    exact down_overflow_of (by decide) (by decide) (by omega)
  | succ n ih =>
    obtain ⟨fuel, rfl⟩ : ∃ f, fuel = f + 1 := ⟨fuel - 1, by omega⟩
    have hexp : 30 - n = 30 - (n + 1) + 1 := by omega
    have hdouble : 2 ^ (30 - n) = 2 ^ (30 - (n + 1)) * 2 := by rw [hexp, pow_succ]
    have hpos : 0 < 2 ^ (30 - (n + 1)) := Nat.two_pow_pos _
    have hle : 2 ^ (30 - n) ≤ 2 ^ 30 := Nat.pow_le_pow_right (by decide) (by omega)
    generalize 2 ^ (30 - (n + 1)) = root at *
    have hleft : h.data (root * 2) = 0 := hzero _ (by omega) (by omega)
    have hleast : sinkPos id h.last h.data (h.data root) root = root * 2 := by
      have hl : root * 2 ≤ h.last ∧ h.data (root * 2) < h.data root := by
        rw [hleft, hone]
        exact ⟨by omega, by decide⟩
      have hr : ¬ (root * 2 + 1 ≤ h.last ∧ h.data (root * 2 + 1) < h.data (root * 2)) := by
        intro hboth
        obtain ⟨hlt, hless⟩ := hboth
        rw [hleft, hzero _ (by omega) hlt] at hless
        exact lt_irrefl _ hless
      simp only [sinkPos, minValPos, id, if_pos hl, if_neg hr]
    rw [down_step (by omega) (by omega) (by omega) (by omega) hleast, if_pos (by omega),
      swap_of (by omega) (by omega) (by omega) (by omega), pure_bind, ← hdouble]
    refine ih _ (by omega) (by omega) hlast hbig ?_ ?_
    · simp only [Function.comp_apply]
      rw [Equiv.swap_apply_right, hone]
    · intro i hi hil
      have hil' : i ≤ h.last := hil
      have hsame : (h.data ∘ Equiv.swap root (2 ^ (30 - n))) i = h.data i :=
        comp_swap_of_ne (by omega) (by omega)
      exact hsame.trans (hzero i (by omega) hil')

/-- A heap that can hold more than `2 ^ 30` elements can get stuck in a `pop`. -/
theorem exists_overflow (hM : 2 ^ 30 + 1 < M) : ∃ tr h, (heapSystem id M).Run System.always tr h ∧
    h.last = 2 ^ 30 + 1 ∧ invoke id M h .pop = throw (.undefined "int overflow") := by
  obtain ⟨tr, h, hr, hlast, hzero⟩ := zeros_run (M := M) (n := 2 ^ 30) (by omega) (by decide)
  have hpush : (heapSystem id M).step h (.push 1, .ok none)
      ⟨Function.update h.data (h.last + 1) 1, h.last + 1⟩ := by
    refine push_stays (by omega) (by omega) ?_
    intro _
    rw [hzero _ (by omega) (by omega)]
    decide
  refine ⟨_, _, .step hr trivial hpush, by rw [hlast], ?_⟩
  have hempty : ¬ empty ⟨Function.update h.data (h.last + 1) 1, h.last + 1⟩ := Nat.succ_ne_zero _
  simp only [invoke, pop, if_neg hempty]
  rw [swap_of le_rfl (by omega) (by omega) (by omega), pure_bind]
  have hdown := down_overflow (M := M) (n := 30) (h.last + 1)
    (h := ⟨Function.update h.data (h.last + 1) 1 ∘ Equiv.swap 1 (h.last + 1), h.last⟩)
    le_rfl (by omega) (by dsimp only; omega) (by dsimp only; omega) ?_ ?_
  · exact congrArg (fun x : Loop Heap => x >>= fun h => pure ((.ok none, h) : Result)) hdown
  · simp
  · intro i h1 hi
    have h1' : 1 < i := h1
    have hi' : i ≤ h.last := hi
    have hswap : (Function.update h.data (h.last + 1) 1 ∘ Equiv.swap 1 (h.last + 1)) i =
        Function.update h.data (h.last + 1) 1 i := comp_swap_of_ne (by omega) (by omega)
    rw [Function.update_of_ne (by omega)] at hswap
    exact hswap.trans (hzero i (by omega) (by omega))

end overflow

section claim
variable {M : ℕ}

/-- The heap after a run is the priority queue after it, in order, and answers the next call. -/
structure Refines (M : ℕ) (tr : List (Call × Except String (Option ℤ))) (h : Heap) : Prop where
  queue : (priorityQueue (M - 1)).Run System.always tr h.contents
  ordered : ∀ i, 2 ≤ i → i ≤ h.last → h.data (i / 2) ≤ h.data i
  serves : ∀ c, ∃ res h', invoke id M h c = pure (res, h') ∧
    Serves (M - 1) h.contents c res h'.contents ∧ (∀ what, res = .error what → h' = h)

/-- `MinHeap<int>` refines a priority queue in every run if and only if the double of a position
always is an `int`. -/
theorem heap_refines (hM : 1 ≤ M) :
    (∀ tr h, (heapSystem id M).Run System.always tr h → Refines M tr h) ↔ M ≤ 2 ^ 30 + 1 := by
  constructor
  · intro hall
    by_contra hbig
    obtain ⟨tr, h, hr, _, hpop⟩ := exists_overflow (M := M) (by omega)
    obtain ⟨res, h', hcall, _⟩ := (hall tr h hr).serves .pop
    rw [hpop] at hcall
    cases hcall
  · intro hsmall tr h hr
    obtain ⟨hs, hq⟩ := run_sound_of_small hM hsmall hr
    refine ⟨hq, fun i h2 hi => hs.ordered i h2 hi (by omega), ?_⟩
    intro c
    obtain ⟨res, h', hcall, hserves, hsame, _⟩ := invoke_served hM hs hsmall c
    exact ⟨res, h', hcall, hserves, hsame⟩

theorem heap_refines_sample : ∃ tr h, (heapSystem id 1000).Run System.always tr h ∧
    h.last = 3 ∧ Refines 1000 tr h := by
  obtain ⟨tr, h, hr, hlast, _⟩ := zeros_run (M := 1000) (n := 3) (by decide) (by decide)
  exact ⟨tr, h, hr, hlast, (heap_refines (by decide)).mpr (by decide) tr h hr⟩

/-- After `2 ^ 30` zeros and a one, `pop` sinks the one to position `2 ^ 30` and doubles it. -/
theorem heap_refines_fails : ¬ ∀ M, 1 ≤ M →
    ∀ tr h, (heapSystem id M).Run System.always tr h → Refines M tr h := by
  intro hall
  obtain ⟨tr, h, hr, _, hpop⟩ := exists_overflow (M := 2 ^ 30 + 2) (by decide)
  obtain ⟨res, h', hcall, _⟩ := (hall _ (by decide) tr h hr).serves .pop
  rw [hpop] at hcall
  cases hcall

end claim

end ModCpp.MinHeap
