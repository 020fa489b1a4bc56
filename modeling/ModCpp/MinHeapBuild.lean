import ModCpp.MinHeapRuns

/-!
# Building a `MinHeap`

`build_heap` sinks the elements from the middle of the array down to the first; what lies
behind an element that is sunk is already in order. The constructor from a vector copies the
elements from position 1 on, in the vector as in the array.
-/

namespace ModCpp.MinHeap

section code
variable (conv : ℤ → ℤ) (MaxHeapSize : ℕ)

/-- The loop of `build_heap`, from `i` down to 1. -/
def buildFrom : ℕ → Heap → Loop Heap
  | 0, h => pure h
  | i + 1, h => do
    let h ← down conv MaxHeapSize (h.last + 1) (i + 1) h
    buildFrom i h

def buildHeap (h : Heap) : Loop Heap := buildFrom conv MaxHeapSize (h.last / 2) h

/-- The loop of the constructor, from `i` on for `left` rounds; `nums[i]` is not checked. -/
def fill (nums : List ℤ) : ℕ → ℕ → Heap → Loop Heap
  | _, 0, h => pure h
  | i, left + 1, h =>
    match nums[i]? with
    | none => throw (.undefined "nums[i]")
    | some val => do
      let h ← set MaxHeapSize h i val
      fill nums (i + 1) left h

/-- `MinHeap(const std::vector<T>& nums)` on an array with the contents `data`. A negative `n` is
above the size of any array when it is compared with a `size_t`. -/
def construct (data : ℕ → ℤ) (nums : List ℤ) : Loop Heap :=
  let n := toInt nums.length
  if MaxHeapSize < toUint64 n then throw (.exception "nums capacity overflow")
  else do
    let h ← fill MaxHeapSize nums 1 n.toNat ⟨data, 0⟩
    buildHeap conv MaxHeapSize { h with last := n.toNat }

/-- A call whose exception nobody catches. -/
def uncaught (call : Loop Result) : Loop (Option ℤ × Heap) := do
  match ← call with
  | (.ok val, h) => pure (val, h)
  | (.error what, _) => throw (.exception what)

def size (h : Heap) : ℕ := h.last

/-- The loop of `heap_routine`, with what `top` returns. -/
def drain : ℕ → Heap → Loop (List ℤ)
  | 0, _ => running
  | fuel + 1, h =>
    if size h = 0 then pure []
    else do
      let (val, h) ← uncaught (top MaxHeapSize h)
      let (_, h) ← uncaught (pop conv MaxHeapSize h)
      let vals ← drain fuel h
      return val.toList ++ vals

end code

section build
variable {M : ℕ} {h : Heap} {i : ℕ}

/-- What `build_heap` is for. -/
structure Built (M : ℕ) (h h' : Heap) : Prop where
  returns : buildHeap id M h = pure h'
  ordered : ∀ i, 2 ≤ i → i ≤ h.last → h'.data (i / 2) ≤ h'.data i
  permutes : contents h'.data h.last = contents h.data h.last
  others : ∀ i, i < 1 ∨ h.last < i → h'.data i = h.data i
  last : h'.last = h.last

/-- In each round of the loop the element that is sunk stops before position `2 ^ 30`. -/
def RoundsSink (M : ℕ) : ℕ → Heap → Prop
  | 0, _ => True
  | i + 1, h => Sinks id h.last h.data (h.data (i + 1)) (h.last + 1) (i + 1) ∧
      ∀ h', down id M (h.last + 1) (i + 1) h = pure h' → RoundsSink M i h'

theorem buildFrom_spec (hlast : h.last < M) (hi : i ≤ h.last)
    (ho : HeapOrdered h.data (i + 1) h.last) :
    (∃ data, buildFrom id M i h = pure ⟨data, h.last⟩ ∧ HeapOrdered data 1 h.last ∧
      contents data h.last = contents h.data h.last ∧
      (∀ j, j < 1 ∨ h.last < j → data j = h.data j) ∧ RoundsSink M i h) ∨
    (buildFrom id M i h = throw (.undefined "int overflow") ∧ 2 ^ 30 ≤ h.last ∧
      ¬ RoundsSink M i h) := by
  induction i generalizing h with
  | zero => exact .inl ⟨h.data, rfl, ho, rfl, fun _ _ => rfl, trivial⟩
  | succ i ih =>
    -- what lies behind `i + 1` is in order, so that sinking its element orders from `i + 1` on
    rw [buildFrom]
    rcases sinks_or_overflow (h := h) (M := M) (h.last + 1) (i + 1) (by omega) (by omega)
      hlast (by omega) (by omega) (fun _ _ _ => rfl) with hsinks | ⟨hover, hbig⟩
    · obtain ⟨data, hdown, horder, hcont, hframe⟩ :=
        down_of_sinks (by omega) le_rfl (by omega) hlast hsinks (fun _ _ _ => rfl)
          (ho.downOrdered (by omega))
      have hrounds : RoundsSink M (i + 1) h ↔ RoundsSink M i ⟨data, h.last⟩ := by
        constructor
        · exact fun hround => hround.2 _ hdown
        · intro hround
          refine ⟨hsinks, fun h' hh' => ?_⟩
          rw [hdown] at hh'
          cases hh'
          exact hround
      rw [hdown, pure_bind, hrounds]
      have hrec := @ih ⟨data, h.last⟩ hlast (show i ≤ h.last by omega) horder
      rcases hrec with ⟨data', hbuild, horder', hcont', hframe', hround⟩ | hover
      · refine .inl ⟨data', hbuild, horder', hcont'.trans hcont, ?_, hround⟩
        intro j hj
        exact (hframe' j hj).trans (hframe j (by omega))
      · exact .inr hover
    · rw [hover, throw_bind]
      refine .inr ⟨rfl, by omega, fun hround => ?_⟩
      obtain ⟨data, hdown, _⟩ := down_of_sinks (by omega) le_rfl (by omega) hlast hround.1
        (fun _ _ _ => rfl) (ho.downOrdered (by omega))
      rw [hdown] at hover
      cases hover

theorem buildHeap_spec (hlast : h.last < M) :
    ((∃ h', Built M h h') ∧ RoundsSink M (h.last / 2) h) ∨
    (buildHeap id M h = throw (.undefined "int overflow") ∧ 2 ^ 30 ≤ h.last ∧
      ¬ RoundsSink M (h.last / 2) h) := by
  have ho : HeapOrdered h.data (h.last / 2 + 1) h.last := by
    intro j _ hj hlo
    omega
  rcases buildFrom_spec hlast (by omega) ho with
    ⟨data, hbuild, horder, hcont, hframe, hrounds⟩ | hover
  · refine .inl ⟨⟨⟨data, h.last⟩, hbuild, ?_, hcont, hframe, rfl⟩, hrounds⟩
    exact fun i h2 hi => horder i h2 hi (by omega)
  · exact .inr hover

/-- The element at the root above zeros sinks to position `2 ^ 30`. -/
theorem buildFrom_overflow (hlast : h.last < M) (hbig : 2 ^ 30 ≤ h.last) (hone : h.data 1 = 1)
    (hzero : ∀ j, 2 ≤ j → j ≤ h.last → h.data j = 0) (hi1 : 1 ≤ i) (hi : i ≤ h.last / 2) :
    buildFrom id M i h = throw (.undefined "int overflow") := by
  induction i with
  | zero => omega
  | succ i ih =>
    rw [buildFrom]
    by_cases hroot : i = 0
    · subst hroot
      have hdown := down_overflow (n := 30) (M := M) (h := h) (h.last + 1) le_rfl (by omega)
        (by omega) hbig hone fun j hj hjl => hzero j hj hjl
      rw [show (2 : ℕ) ^ (30 - 30) = 0 + 1 from rfl] at hdown
      rw [hdown, throw_bind]
    · by_cases hsmall : i + 1 < 2 ^ 30
      · -- a zero above zeros stays, and the array is as before
        have hstays : sinkPos id h.last h.data (h.data (i + 1)) (i + 1) = i + 1 := by
          rcases sinkPos_cases h.last h.data (i + 1) with
            ⟨hpos, _⟩ | ⟨pos, _, _, hle, hlt, hless, _⟩
          · exact hpos
          · rw [hzero _ (by omega) hle, hzero _ (by omega) (by omega)] at hless
            exact absurd hless (lt_irrefl 0)
        rw [down_step (by omega) hsmall (by omega) hlast hstays, if_neg (not_not.mpr rfl),
          pure_bind]
        exact ih (by omega) (by omega)
      · -- the child of a position this far is no `int`
        rw [down_overflow_of (by omega) (not_lt.mp hsmall) (by omega), throw_bind]

theorem not_built_of_overflow (hover : buildHeap id M h = throw (.undefined "int overflow")) :
    ¬ ∃ h', Built M h h' := by
  intro hex
  obtain ⟨h', hbuilt⟩ := hex
  have hreturns := hbuilt.returns
  rw [hover] at hreturns
  cases hreturns

theorem not_built_of_large {last : ℕ} (hlast : last < M) (hbig : 2 ^ 30 ≤ last) :
    ¬ ∃ h', Built M ⟨fun i => if i = 1 then 1 else 0, last⟩ h' := by
  refine not_built_of_overflow (buildFrom_overflow hlast hbig rfl ?_ ?_ le_rfl)
  · intro j h2 _
    exact if_neg (by omega)
  · show 1 ≤ last / 2
    omega

/-- `build_heap` makes a heap of any contents if and only if the double of a position always is
an `int`, and of given contents if and only if no element sinks further. -/
theorem heap_built {last : ℕ} (hlast : last < M) :
    ((∀ data, ∃ h', Built M ⟨data, last⟩ h') ↔ last < 2 ^ 30) ∧
    ∀ data, (∃ h', Built M ⟨data, last⟩ h') ↔ RoundsSink M (last / 2) ⟨data, last⟩ := by
  constructor
  · constructor
    · intro hall
      by_contra hbig
      exact not_built_of_large hlast (not_lt.mp hbig) (hall _)
    · intro hsmall data
      rcases buildHeap_spec (h := ⟨data, last⟩) hlast with ⟨hbuilt, _⟩ | ⟨_, hbig, _⟩
      · exact hbuilt
      · exact absurd hsmall (not_lt.mpr hbig)
  · intro data
    rcases buildHeap_spec (h := ⟨data, last⟩) hlast with ⟨hbuilt, hrounds⟩ | ⟨hover, _, hrounds⟩
    · exact iff_of_true hbuilt hrounds
    · exact iff_of_false (not_built_of_overflow hover) hrounds

theorem heap_built_sample : ∃ h', Built 1000 ⟨fun i => 10 - i, 9⟩ h' :=
  (heap_built (M := 1000) (show 9 < 1000 by decide)).1.mpr (by decide) _

/-- A one at the root above `2 ^ 30 - 1` zeros sinks to position `2 ^ 30`. -/
theorem heap_built_fails : ¬ ∀ M last, last < M → ∀ data, ∃ h', Built M ⟨data, last⟩ h' := by
  intro hall
  exact not_built_of_large (M := 2 ^ 30 + 1) (show 2 ^ 30 < 2 ^ 30 + 1 by decide) le_rfl
    (hall _ _ (by decide) _)

end build

section lasts
variable {conv : ℤ → ℤ} {M : ℕ} {h : Heap} {nums : List ℤ}

theorem get_yields (i : ℕ) : (get M h i).Yields fun _ => True := by
  rw [get]
  exact .guarded fun _ => trivial

theorem set_yields (i : ℕ) (val : ℤ) : (set M h i val).Yields fun h' => h'.last = h.last := by
  rw [set]
  exact .guarded fun _ => rfl

theorem swap_yields (i j : ℕ) : (swap M h i j).Yields fun h' => h'.last = h.last := by
  refine (get_yields i).bind fun a _ => (get_yields j).bind fun b _ => ?_
  refine (set_yields i b).bind fun h' hlast => ?_
  rw [← hlast]
  exact set_yields j a

theorem child_yields (pos : ℕ) (best : ℤ × ℕ) :
    (child conv M h pos best).Yields fun _ => True := by
  rw [child]
  split_ifs
  · refine (get_yields pos).bind fun val _ => ?_
    split_ifs
    · exact .pure trivial
    · exact .pure trivial
  · exact .pure trivial

theorem down_yields (fuel root : ℕ) :
    (down conv M fuel root h).Yields fun h' => h'.last = h.last := by
  induction fuel generalizing root h with
  | zero => exact .running
  | succ fuel ih =>
    refine (get_yields root).bind fun val _ => (int_yields _).bind fun left _ => ?_
    refine (child_yields left _).bind fun best _ => (int_yields _).bind fun right _ => ?_
    refine (child_yields right best).bind fun best _ => ?_
    split_ifs
    · refine (swap_yields root best.2).bind fun h' hlast => ?_
      rw [← hlast]
      exact ih best.2
    · exact .pure rfl

theorem buildFrom_yields (i : ℕ) :
    (buildFrom conv M i h).Yields fun h' => h'.last = h.last := by
  induction i generalizing h with
  | zero => exact .pure rfl
  | succ i ih =>
    refine (down_yields _ (i + 1)).bind fun h' hlast => ?_
    rw [← hlast]
    exact ih

theorem fill_yields (i left : ℕ) :
    (fill M nums i left h).Yields fun _ => i + left ≤ nums.length ∨ left = 0 := by
  induction left generalizing i h with
  | zero => exact .pure (.inr rfl)
  | succ left ih =>
    rw [fill]
    split
    · exact .undefined
    · rename_i val hval
      have hi : i < nums.length := (List.getElem?_eq_some_iff.mp hval).1
      refine (set_yields i val).bind fun h' _ => ?_
      refine ⟨(ih (i + 1)).quiet, fun h'' hfill => ?_⟩
      have hrec := (ih (i + 1)).returns h'' hfill
      omega

theorem construct_of {data : ℕ → ℤ} {n : ℕ} (hroom : ¬ M < toUint64 (toInt nums.length))
    (hn : (toInt nums.length).toNat = n) :
    construct conv M data nums =
      fill M nums 1 n ⟨data, 0⟩ >>= fun h => buildHeap conv M { h with last := n } := by
  rw [construct]
  simp only [hroom, if_false, hn]

theorem construct_yields {data : ℕ → ℤ} {n : ℕ} (hroom : ¬ M < toUint64 (toInt nums.length))
    (hn : (toInt nums.length).toNat = n) :
    (construct conv M data nums).Yields fun h => h.last = n ∧ (1 + n ≤ nums.length ∨ n = 0) := by
  rw [construct_of hroom hn]
  refine (fill_yields 1 n).bind fun h hfill => ?_
  refine ⟨(buildFrom_yields _).quiet, fun h' hbuild => ⟨?_, hfill⟩⟩
  exact (buildFrom_yields _).returns h' hbuild

theorem uncaught_pure {call : Loop Result} {r : Option ℤ × Heap} (h : uncaught call = pure r) :
    call = pure (.ok r.1, r.2) := by
  obtain ⟨⟨res, h'⟩, hcall, hr⟩ := loop_bind_pure h
  cases res with
  | ok val =>
    cases hr
    exact hcall
  | error what => cases hr

theorem top_pure {r : Result} (hpos : h.last ≠ 0) (htop : top M h = pure r) :
    ∃ val, r = (.ok (some val), h) := by
  have hempty : ¬ empty h := hpos
  rw [top, if_neg hempty] at htop
  obtain ⟨val, _, hr⟩ := loop_bind_pure htop
  cases hr
  exact ⟨val, rfl⟩

theorem pop_pure {r : Result} (hpos : h.last ≠ 0) (hpop : pop conv M h = pure r) :
    r.2.last = h.last - 1 := by
  have hempty : ¬ empty h := hpos
  rw [pop, if_neg hempty] at hpop
  obtain ⟨h₁, hswap, hpop⟩ := loop_bind_pure hpop
  obtain ⟨h₂, hdown, hr⟩ := loop_bind_pure hpop
  cases hr
  have hlast := (swap_yields 1 h.last).returns h₁ hswap
  rw [← hlast]
  exact (down_yields _ 1).returns h₂ hdown

theorem drain_length {fuel : ℕ} {out : List ℤ} (hdrain : drain conv M fuel h = pure out) :
    out.length = h.last := by
  induction fuel generalizing h out with
  | zero => cases hdrain
  | succ fuel ih =>
    rw [drain] at hdrain
    split_ifs at hdrain with hsize
    · cases hdrain
      exact hsize.symm
    · have hpos : h.last ≠ 0 := hsize
      obtain ⟨⟨val, h₁⟩, htop, hafter⟩ := loop_bind_pure hdrain
      obtain ⟨x, hx⟩ := top_pure hpos (uncaught_pure htop)
      have hkept : h₁ = h := congrArg Prod.snd hx
      have hval : val = some x := by simpa using congrArg Prod.fst hx
      have hrest : (uncaught (pop conv M h) >>= fun r => drain conv M fuel r.2 >>= fun vals =>
          pure (x :: vals)) = (pure out : Loop (List ℤ)) := by
        rw [← hkept, ← hafter, hval]
        rfl
      obtain ⟨r, hpop, hvals⟩ := loop_bind_pure hrest
      obtain ⟨vals, hdrain', hout⟩ := loop_bind_pure hvals
      cases hout
      have hlast : r.2.last = h.last - 1 := pop_pure hpos (uncaught_pure hpop)
      rw [List.length_cons, ih hdrain', hlast]
      omega

end lasts

section sorting
variable {M : ℕ} {nums : List ℤ} {data : ℕ → ℤ}

/-- The constructor throws, or makes a heap that gives the elements of `nums` in order. -/
def Sorts (M : ℕ) (data : ℕ → ℤ) (nums : List ℤ) : Prop :=
  (∃ what, construct id M data nums = throw (.exception what)) ∨
  ∃ h fuel out, construct id M data nums = pure h ∧ drain id M fuel h = pure out ∧
    out.Pairwise (· ≤ ·) ∧ out.Perm nums

/-- A heap is built from no vector that has elements and is not rejected: the loop reads
`nums[n]`, or leaves elements out where `n` is not their number. -/
theorem construct_sorts : Sorts M data nums ↔
    nums = [] ∨ M < toUint64 (toInt nums.length) := by
  constructor
  · intro hsorts
    by_contra hnot
    obtain ⟨hne, hroom⟩ := not_or.mp hnot
    have hyields : (construct id M data nums).Yields _ := construct_yields hroom rfl
    rcases hsorts with ⟨what, hthrow⟩ | ⟨h, fuel, out, hmake, hdrain, _, hperm⟩
    -- `construct` throws nothing behind the check of the capacity
    · exact hyields.quiet what hthrow
    · obtain ⟨hlast, hread⟩ := hyields.returns h hmake
      have hlength := hperm.length_eq.symm.trans ((drain_length hdrain).trans hlast)
      have hpos : nums.length ≠ 0 := fun h0 => hne (List.length_eq_zero_iff.mp h0)
      rw [← hlength] at hread
      omega
  · intro h
    rcases h with rfl | hover
    · refine .inr ⟨⟨data, 0⟩, 1, [], ?_, rfl, .nil, .nil⟩
      have hzero : toUint64 (toInt ([] : List ℤ).length) = 0 := by
        rw [toInt_of_lt (by decide)]
        exact toUint64_natCast (by decide)
      have hn : (toInt ([] : List ℤ).length).toNat = 0 := by
        rw [toInt_of_lt (by decide)]
        rfl
      rw [construct_of (by omega) hn, fill, pure_bind, buildHeap, Nat.zero_div, buildFrom]
    · refine .inl ⟨"nums capacity overflow", ?_⟩
      rw [construct]
      simp only [hover, if_true]

/-- For one element, the loop reads `nums[1]`. -/
theorem construct_sorts_fails : ¬ ∀ M, 1 ≤ M → ∀ data nums, Sorts M data nums := by
  intro hall
  have hsorts := hall 1000 (by decide) (fun _ => 0) [5]
  rcases hsorts with ⟨what, hthrow⟩ | ⟨h, _, _, hmake, _⟩
  · cases hthrow
  · cases hmake

end sorting
end ModCpp.MinHeap
