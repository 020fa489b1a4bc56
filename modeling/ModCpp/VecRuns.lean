import ModCpp.Runs
import ModCpp.Vec

/-!
# Elements of the vector

The elements are in the stack array up to `N` of them and in one heap block beyond. A call
of `emplace_back` at size `N` or at a full block moves them, and then constructs the
new one.
-/

namespace ModCpp.Vec

def noFaults : Faults := ⟨false, fun _ => false, false⟩

section exec
variable {T : Type} {N : ℕ} {v : Vec T N} {xs : List T} {cells : Cells T}

theorem exec_failIf {c : Prop} [Decidable c] {e : Failure} (h : ¬ c) :
    exec (failIf c e) v = (.ok (), v) :=
  Action.exec_failIf h

theorem exec_failIf_error {c : Prop} [Decidable c] {e : Failure} (h : c) :
    exec (failIf c e) v = (.error e, v) :=
  Action.exec_failIf_error h

theorem exec_element {area : Area} (i : ℕ) : exec (element area i) v = (.ok ⟨area, i⟩, v) := by
  rw [element, exec_ok (exec_failIf (by omega))]
  rfl

theorem exec_heapElement {block : ℕ} (h : v.heapVec = some block) (i : ℕ) :
    exec (heapElement i) v = (.ok ⟨.heap block, i⟩, v) := by
  rw [heapElement, exec_get, h]
  exact exec_element i

def cellsOf (v : Vec T N) : Area → Option (Cells T)
  | .stack => some v.stackVec
  | .heap block => v.heap block

def withCells (v : Vec T N) (cells : Cells T) : Area → Vec T N
  | .stack => { v with stackVec := cells }
  | .heap block => { v with heap := Function.update v.heap block (some cells) }

theorem exec_array {area : Area} (h : v.cellsOf area = some cells) :
    exec (array area) v = (.ok cells, v) := by
  cases area with
  | stack =>
    cases h
    rfl
  | heap block =>
    have hblock : v.heap block = some cells := h
    rw [array, exec_get, hblock]
    rfl

theorem exec_setArray (area : Area) :
    exec (setArray area cells) v = (.ok (), v.withCells cells area) := by
  cases area <;> rfl

theorem exec_load {area : Area} {i : ℕ} (h : v.cellsOf area = some cells)
    (hs : cells.Stores xs) (hi : i < xs.length) : exec (load ⟨area, i⟩) v = (.ok xs[i], v) := by
  rw [load, exec_ok (exec_array h)]
  simp only [hs.read hi]
  rfl

theorem exec_store {area : Area} {i : ℕ} {x : T} (h : v.cellsOf area = some cells)
    (hi : i < cells.length) :
    exec (store ⟨area, i⟩ x) v = (.ok (), v.withCells (cells.set i (some x)) area) := by
  rw [store, exec_ok (exec_array h)]
  simp only [Cells.write_of hi]
  exact exec_setArray area

theorem exec_newArray (n : ℕ) : exec (newArray noFaults n) v = (.ok v.fresh, { v with
    heap := Function.update v.heap v.fresh (some (Cells.indeterminate n))
    fresh := v.fresh + 1 }) := by
  rw [newArray, exec_ok (exec_failIf (by omega)), exec_ok (exec_failIf (by simp [noFaults]))]
  rfl

theorem exec_newArray_neg {n : ℤ} (h : n < 0) : exec (newArray noFaults n) v =
    (.error (.exception "std::bad_array_new_length"), v) := by
  rw [newArray]
  exact exec_error (exec_failIf_error h)

theorem exec_deleteArray {block : ℕ} (h : v.heap block = some cells) :
    exec (deleteArray (some block)) v =
      (.ok (), { v with heap := Function.update v.heap block none }) := by
  rw [deleteArray, exec_ok (exec_array (show v.cellsOf (.heap block) = some cells from h))]
  rfl

theorem exec_postIncrement (h : v.vecSize ≠ intMax) :
    exec postIncrement v = (.ok v.vecSize, { v with vecSize := v.vecSize + 1 }) := by
  rw [postIncrement, exec_get, exec_ok (exec_failIf h)]
  rfl

theorem exec_postIncrement_error (h : v.vecSize = intMax) :
    exec postIncrement v = (.error (.undefined "int overflow"), v) := by
  rw [postIncrement, exec_get]
  exact exec_error (exec_failIf_error h)

def withBlock (v : Vec T N) (block : ℕ) (cells : Cells T) : Vec T N :=
  { v with heap := Function.update v.heap block (some cells) }

theorem exec_copyLoop {src : ℕ → Op T N Place} {block n : ℕ} (hb : v.heapVec = some block)
    (hsrc : ∀ i (h : i < xs.length) cells, ∃ p,
      exec (src i) (v.withBlock block cells) = (.ok p, v.withBlock block cells) ∧
      exec (load p) (v.withBlock block cells) = (.ok xs[i], v.withBlock block cells))
    (hn : n ≤ xs.length) (hc : n ≤ cells.length) :
    ∃ cells', exec (copyLoop noFaults src n) (v.withBlock block cells) =
        (.ok (), v.withBlock block cells') ∧
      cells'.Stores (xs.take n) ∧ cells'.length = cells.length := by
  induction n with
  | zero => exact ⟨cells, rfl, nofun, rfl⟩
  | succ n ih =>
    obtain ⟨filled, hexec, hfilled, hlen⟩ := ih (by omega) (by omega)
    obtain ⟨p, hp, hload⟩ := hsrc n hn filled
    have hcells : (v.withBlock block filled).cellsOf (.heap block) = some filled :=
      Function.update_self ..
    have hblock : (v.withBlock block filled).heapVec = some block := hb
    refine ⟨filled.set n (some xs[n]), ?_, ?_, ?_⟩
    · rw [copyLoop, exec_ok hexec, exec_ok hp, exec_ok (exec_heapElement hblock n),
        exec_ok hload, exec_ok (exec_failIf (by simp [noFaults])), exec_store hcells (by omega)]
      simp only [withCells, withBlock, Function.update_idem]
    · have htake : (xs.take n).length = n := by
        rw [List.length_take]
        omega
      have hpush := hfilled.push (v := xs[n]) (by omega)
      rwa [htake, List.take_append_getElem hn] at hpush
    · rw [List.length_set, hlen]

/-- What holds of all vectors between two calls and after the growth in a call. -/
structure Shaped (v : Vec T N) : Prop where
  stack_length : v.stackVec.length = N
  heap : ∀ b, (v.heap b).isSome ↔ v.heapVec = some b
  fresh : ∀ b, v.heapVec = some b → b < v.fresh

structure InHeap (v : Vec T N) (xs : List T) : Prop where
  block : ∃ b cells, v.heapVec = some b ∧ v.heap b = some cells ∧ cells.Stores xs ∧
    cells.length = v.vecCapacity
  small : v.vecCapacity < 2 ^ 31

/-- The vector in `grow` with its new block, which is still to be filled. -/
def grown (v : Vec T N) (cap : ℤ) : Vec T N :=
  { v with vecCapacity := cap, heapVec := some v.fresh, fresh := v.fresh + 1 }

theorem bmod_double {c : ℕ} (h : 2 * c < 2 ^ 31) :
    Int.bmod (2 * (c : ℤ)) (2 ^ 32) = ((2 * c : ℕ) : ℤ) := by
  rw [Int.bmod_eq_of_le (by omega) (by omega)]
  omega

/-- What `grow` does after the allocation, of what it has read in `v` before. -/
def relocate (faults : Faults) (v : Vec T N) : Op T N Unit := do
  (if v.vecSize = N then copyLoop faults (fun i => element .stack i) v.vecSize.toNat
  else copyLoop faults (fun i => match v.heapVec with
    | none => throw (.undefined "null pointer")
    | some old => element (.heap old) i) v.vecSize.toNat)
  deleteArray v.heapVec

theorem exec_grow {cap : ℕ} (hcap : v.vecCapacity = cap) (hfit : 2 * cap < 2 ^ 31) :
    exec (grow noFaults) v = exec (relocate noFaults v)
      ((v.grown (2 * cap : ℕ)).withBlock v.fresh (Cells.indeterminate (2 * cap))) := by
  rw [grow, exec_modify, exec_get]
  simp only [hcap, bmod_double hfit]
  rw [exec_ok (exec_newArray (2 * cap)), exec_modify]
  rfl

theorem exec_fillGrown (area : Area) (cap : ℕ) (hs : cells.Stores xs) (hroom : xs.length ≤ cap)
    (hkept : ∀ filled, ((v.grown cap).withBlock v.fresh filled).cellsOf area = some cells) :
    ∃ filled, exec (copyLoop noFaults (fun i => element area i) xs.length)
        ((v.grown cap).withBlock v.fresh (Cells.indeterminate cap)) =
          (.ok (), (v.grown cap).withBlock v.fresh filled) ∧
      filled.Stores xs ∧ filled.length = cap := by
  have hlen : (Cells.indeterminate cap : Cells T).length = cap := List.length_replicate
  have hloop := exec_copyLoop (show (v.grown cap).heapVec = some v.fresh from rfl)
    (fun i hi filled => ⟨⟨area, i⟩, exec_element i, exec_load (hkept filled) hs hi⟩)
    (Nat.le_refl _) (hroom.trans (Nat.le_of_eq hlen.symm))
  rwa [List.take_length, hlen] at hloop

theorem Shaped.grow (hv : Shaped v) (hs : v.stackVec.Stores xs) (hnone : v.heapVec = none)
    (hsize : v.vecSize = xs.length) (hN : xs.length = N) (hcap : v.vecCapacity = N)
    (hfit : 2 * N < 2 ^ 31) :
    ∃ v', exec (grow noFaults) v = (.ok (), v') ∧ Shaped v' ∧ InHeap v' xs ∧
      v'.vecSize = xs.length ∧ v'.vecCapacity = (2 * N : ℕ) ∧ v'.stackVec = v.stackVec := by
  obtain ⟨filled, hexec, hfilled, hlen⟩ :=
    exec_fillGrown .stack (2 * N) hs (by omega) fun _ => rfl
  refine ⟨(v.grown (2 * N : ℕ)).withBlock v.fresh filled, ?_, ?_, ?_, hsize, rfl, rfl⟩
  · rw [exec_grow hcap hfit, relocate, if_pos (by omega), hsize, Int.toNat_natCast, exec_ok hexec,
      hnone]
    rfl
  · refine ⟨hv.stack_length, ?_, ?_⟩
    · intro b
      by_cases hb : b = v.fresh
      · simp [withBlock, grown, hb]
      · have hiff := hv.heap b
        rw [hnone] at hiff
        simpa [withBlock, grown, hb, Ne.symm hb] using hiff
    · intro b hb
      cases hb
      exact Nat.lt_succ_self _
  · refine ⟨⟨v.fresh, filled, rfl, Function.update_self .., hfilled, congrArg _ hlen⟩, ?_⟩
    simp only [withBlock, grown]
    omega

theorem InHeap.grow {cap : ℕ} (hv : Shaped v) (h : InHeap v xs) (hsize : v.vecSize = xs.length)
    (hN : xs.length ≠ N) (hcap : v.vecCapacity = cap) (hfit : 2 * cap < 2 ^ 31) :
    ∃ v', exec (grow noFaults) v = (.ok (), v') ∧ Shaped v' ∧ InHeap v' xs ∧
      v'.vecSize = xs.length ∧ v'.vecCapacity = (2 * cap : ℕ) ∧
      ∀ old, v.heapVec = some old → v'.heap old = none := by
  obtain ⟨old, cells, hold, hcells, hs, hclen⟩ := h.block
  have hne : old ≠ v.fresh := Nat.ne_of_lt (hv.fresh old hold)
  have hkept : ∀ filled, ((v.grown (2 * cap : ℕ)).withBlock v.fresh filled).cellsOf (.heap old) =
      some cells := by
    intro filled
    exact (Function.update_of_ne hne _ _).trans hcells
  have hle := hs.length_le
  obtain ⟨filled, hexec, hfilled, hlen⟩ := exec_fillGrown (.heap old) (2 * cap) hs (by omega) hkept
  refine ⟨{ (v.grown (2 * cap : ℕ)).withBlock v.fresh filled with
    heap := Function.update (Function.update v.heap v.fresh (some filled)) old none },
    ?_, ?_, ?_, hsize, rfl, ?_⟩
  · rw [exec_grow hcap hfit, relocate, if_neg (by omega), hsize, Int.toNat_natCast, hold,
      exec_ok hexec, exec_deleteArray (hkept filled)]
    rfl
  · refine ⟨hv.stack_length, ?_, ?_⟩
    · intro b
      have hiff := hv.heap b
      rw [hold] at hiff
      by_cases hb : b = old
      · simp [withBlock, grown, hb, Ne.symm hne]
      · by_cases hf : b = v.fresh
        · simp [withBlock, grown, hf, Ne.symm hne]
        · simpa [withBlock, grown, hb, hf, Ne.symm hb, Ne.symm hf] using hiff
    · intro b hb
      cases hb
      exact Nat.lt_succ_self _
  · refine ⟨⟨v.fresh, filled, rfl, ?_, hfilled, congrArg _ hlen⟩, ?_⟩
    · exact (Function.update_of_ne (Ne.symm hne) _ _).trans (Function.update_self ..)
    · simp only [withBlock, grown]
      omega
  · intro old' hold'
    obtain rfl : old = old' := Option.some_inj.mp (hold.symm.trans hold')
    exact Function.update_self ..

theorem exec_grow_error {cap : ℕ} (hcap : v.vecCapacity = cap) (hlo : 2 ^ 31 ≤ 2 * cap)
    (hhi : cap < 2 ^ 31) : exec (grow noFaults) v =
      (.error (.exception "std::bad_array_new_length"),
        { v with vecCapacity := Int.bmod (2 * v.vecCapacity) (2 ^ 32) }) := by
  have hneg : Int.bmod (2 * v.vecCapacity) (2 ^ 32) < 0 := by
    rw [hcap, Int.bmod_def]
    omega
  rw [grow, exec_modify, exec_get]
  exact exec_error (exec_newArray_neg hneg)

theorem Shaped.withBlock {b : ℕ} {cells' : Cells T} (hv : Shaped v) (hb : v.heap b = some cells) :
    Shaped (v.withBlock b cells') := by
  refine ⟨hv.stack_length, ?_, hv.fresh⟩
  intro c
  rw [Vec.withBlock, ← hv.heap]
  by_cases hc : c = b
  · simp [hc, hb]
  · simp [hc]

/-- The last part of `emplace_back`, in which `place` is the array. -/
def append (faults : Faults) (place : ℤ → Op T N Place) (arg : Op T N T) : Op T N Unit := do
  let size ← postIncrement
  let p ← place size
  let x ← arg
  failIf (faults.construction) (.exception "constructor")
  store p x

theorem exec_emplaceBack_stack {faults : Faults} {arg : Op T N T} (hlt : v.vecSize < N) :
    exec (emplaceBack faults arg) v = exec (append faults (element .stack) arg) v := by
  rw [emplaceBack, exec_get, if_pos hlt]
  rfl

theorem exec_emplaceBack_heap {faults : Faults} {arg : Op T N T} (hle : N ≤ v.vecSize) :
    exec (emplaceBack faults arg) v = exec (do
      (if v.vecSize = v.vecCapacity then grow faults else pure ())
      append faults heapElement arg) v := by
  rw [emplaceBack, exec_get, if_neg (by omega)]
  rfl

/-- The constructor reads its argument when `vec_size` is up already. -/
theorem exec_append_heap {block n : ℕ} {arg : Op T N T} {x : T} (hb : v.heapVec = some block)
    (hcells : v.heap block = some cells) (hsize : v.vecSize = n) (hroom : n < cells.length)
    (hmax : n < 2 ^ 31 - 1)
    (harg : exec arg { v with vecSize := n + 1 } = (.ok x, { v with vecSize := n + 1 })) :
    exec (append noFaults heapElement arg) v = (.ok (), { v with
      vecSize := n + 1
      heap := Function.update v.heap block (some (cells.set n (some x))) }) := by
  have hne : v.vecSize ≠ intMax := by
    rw [intMax]
    omega
  have hcells' : ({ v with vecSize := n + 1 } : Vec T N).cellsOf (.heap block) = some cells :=
    hcells
  rw [append, exec_ok (exec_postIncrement hne), hsize,
    exec_ok (exec_heapElement (v := { v with vecSize := (n : ℤ) + 1 }) hb n),
    exec_ok harg, exec_ok (exec_failIf (by simp [noFaults])), exec_store hcells' hroom]
  rfl

theorem InHeap.push {arg : Op T N T} {x : T} (hv : Shaped v) (h : InHeap v xs)
    (hsize : v.vecSize = xs.length) (hroom : xs.length < v.vecCapacity)
    (harg : exec arg { v with vecSize := xs.length + 1 } =
      (.ok x, { v with vecSize := xs.length + 1 })) :
    ∃ v', exec (append noFaults heapElement arg) v = (.ok (), v') ∧
      Shaped v' ∧ InHeap v' (xs ++ [x]) ∧ v'.vecSize = xs.length + 1 := by
  obtain ⟨b, cells, hb, hcells, hs, hlen⟩ := h.block
  have hsmall := h.small
  refine ⟨_, exec_append_heap hb hcells hsize (by omega) (by omega) harg, ?_, ?_, rfl⟩
  · have hshaped : Shaped (v.withBlock b (cells.set xs.length (some x))) := hv.withBlock hcells
    exact ⟨hshaped.stack_length, hshaped.heap, hshaped.fresh⟩
  · refine ⟨⟨b, _, hb, Function.update_self .., hs.push (by omega), ?_⟩, hsmall⟩
    rw [List.length_set, hlen]

inductive Stored (v : Vec T N) (xs : List T) : Prop
  | stack (hle : xs.length ≤ N) (hs : v.stackVec.Stores xs) (hnone : v.heapVec = none)
      (hcap : v.vecCapacity = toInt N)
  | heap (hlt : N < xs.length) (h : InHeap v xs)

structure Represents (v : Vec T N) (xs : List T) : Prop where
  shaped : Shaped v
  size : v.vecSize = xs.length
  stored : Stored v xs

theorem construct_represents : Represents (construct : Vec T N) [] := by
  refine ⟨⟨?_, ?_, ?_⟩, rfl, .stack (Nat.zero_le N) ?_ rfl ?_⟩
  · simp [construct, Cells.indeterminate]
  · intro b
    simp [construct]
  · intro b hb
    cases hb
  · intro i hi
    cases hi
  · simp only [construct]

theorem Represents.place (h : Represents v xs) : ∃ area cells,
    (∀ i : ℕ, exec (index i) v = (.ok ⟨area, i⟩, v)) ∧ v.cellsOf area = some cells ∧
      cells.Stores xs ∧ ∀ cells' ys, cells'.Stores ys → cells'.length = cells.length →
        ys.length = xs.length → Represents (v.withCells cells' area) ys := by
  have hsize := h.size
  cases h.stored with
  | stack hle hs hnone hcap =>
    refine ⟨.stack, v.stackVec, ?_, rfl, hs, ?_⟩
    · intro i
      rw [index, exec_get, if_pos (by omega)]
      exact exec_element i
    · intro cells' ys hys hlen hylen
      refine ⟨⟨hlen.trans h.shaped.stack_length, h.shaped.heap, h.shaped.fresh⟩, ?_, ?_⟩
      · rw [hylen]
        exact hsize
      · exact .stack (by omega) hys hnone hcap
  | heap hlt hheap =>
    obtain ⟨b, cells, hb, hcells, hs, hblen⟩ := hheap.block
    refine ⟨.heap b, cells, ?_, hcells, hs, ?_⟩
    · intro i
      rw [index, exec_get, if_neg (by omega)]
      exact exec_heapElement hb i
    · intro cells' ys hys hlen hylen
      refine ⟨h.shaped.withBlock hcells, ?_, ?_⟩
      · rw [hylen]
        exact hsize
      · refine .heap (by omega) ⟨⟨b, cells', hb, Function.update_self .., hys, ?_⟩, hheap.small⟩
        rw [hlen]
        exact hblen

theorem Represents.read (h : Represents v xs) {i : ℕ} (hi : i < xs.length) :
    ∃ p, exec (index i) v = (.ok p, v) ∧ exec (load p) v = (.ok xs[i], v) := by
  obtain ⟨area, cells, hindex, hcells, hs, _⟩ := h.place
  exact ⟨⟨area, i⟩, hindex i, exec_load hcells hs hi⟩

theorem Represents.assign {i : ℕ} {x : T} (h : Represents v xs) (hi : i < xs.length) :
    ∃ v', exec (assign i x) v = (.ok (), v') ∧ Represents v' (xs.set i x) := by
  obtain ⟨area, cells, hindex, hcells, hs, hput⟩ := h.place
  have hlen := hs.length_le
  refine ⟨v.withCells (cells.set i (some x)) area, ?_, ?_⟩
  · rw [Vec.assign, exec_ok (hindex i), exec_store hcells (by omega)]
  · exact hput _ _ hs.set List.length_set List.length_set

theorem Represents.push_stack {arg : Op T N T} {x : T} (h : Represents v xs) (hlt : xs.length < N)
    (hmax : xs.length < 2 ^ 31 - 1)
    (harg : exec arg { v with vecSize := xs.length + 1 } =
      (.ok x, { v with vecSize := xs.length + 1 })) : ∃ v',
    exec (emplaceBack noFaults arg) v = (.ok (), v') ∧ Represents v' (xs ++ [x]) := by
  have hsize := h.size
  have hlen := h.shaped.stack_length
  have hroom : xs.length < v.stackVec.length := by rwa [hlen]
  cases h.stored with
  | stack hle hs hnone hcap =>
    refine ⟨{ v with
      vecSize := xs.length + 1
      stackVec := v.stackVec.set xs.length (some x) }, ?_, ?_, ?_, ?_⟩
    · rw [exec_emplaceBack_stack (by omega), append,
        exec_ok (exec_postIncrement (by rw [intMax]; omega)), hsize,
        exec_ok (exec_element xs.length), exec_ok harg,
        exec_ok (exec_failIf (by simp [noFaults])),
        exec_store rfl hroom]
      rfl
    · exact ⟨List.length_set.trans hlen, h.shaped.heap, h.shaped.fresh⟩
    · simp
    · refine .stack ?_ (hs.push (by omega)) hnone hcap
      rw [List.length_append, List.length_singleton]
      omega
  | heap hlt' hheap => omega

theorem push_heap {v' : Vec T N} {arg : Op T N T} {x : T} (hle : N ≤ xs.length)
    (hsize : v.vecSize = xs.length)
    (hexec : exec (if v.vecSize = v.vecCapacity then grow noFaults else pure ()) v = (.ok (), v'))
    (hv : Shaped v') (hheap : InHeap v' xs) (hsize' : v'.vecSize = xs.length)
    (hroom : xs.length < v'.vecCapacity)
    (harg : exec arg { v' with vecSize := xs.length + 1 } =
      (.ok x, { v' with vecSize := xs.length + 1 })) : ∃ v'',
    exec (emplaceBack noFaults arg) v = (.ok (), v'') ∧ Represents v'' (xs ++ [x]) := by
  obtain ⟨v'', hpush, hshaped, hheap', hlen⟩ := hheap.push hv hsize' hroom harg
  refine ⟨v'', ?_, hshaped, ?_, .heap ?_ hheap'⟩
  · rw [exec_emplaceBack_heap (by omega), exec_ok hexec]
    exact hpush
  · rw [hlen]
    simp
  · rw [List.length_append, List.length_singleton]
    omega

theorem exec_emplaceBack_overflow {arg : Op T N T} (hlt : v.vecSize < N)
    (hmax : v.vecSize = intMax) :
    exec (emplaceBack noFaults arg) v = (.error (.undefined "int overflow"), v) := by
  rw [exec_emplaceBack_stack hlt]
  exact exec_error (exec_postIncrement_error hmax)

theorem Represents.push_moved {arg : Op T N T} {x : T} (h : Represents v xs) (hlen : xs.length = N)
    (hpos : 1 ≤ N) (hfit : 2 * N < 2 ^ 31)
    (harg : ∀ w : Vec T N, w.stackVec = v.stackVec → exec arg w = (.ok x, w)) : ∃ v',
    exec (emplaceBack noFaults arg) v = (.ok (), v') ∧ Represents v' (xs ++ [x]) := by
  have hsize := h.size
  cases h.stored with
  | stack hle hs hnone hcap =>
    rw [toInt_of_lt (by omega)] at hcap
    obtain ⟨v', hgrow, hshaped, hheap, hsize', hcap', hstack⟩ :=
      h.shaped.grow hs hnone hsize hlen hcap hfit
    refine push_heap (by omega) hsize ?_ hshaped hheap hsize' (by omega) (harg _ hstack)
    rw [if_pos (by omega), hgrow]
  | heap hlt hheap => omega

theorem Represents.push_room {arg : Op T N T} {x : T} (h : Represents v xs) (hlt : N < xs.length)
    (hroom : v.vecSize < v.vecCapacity)
    (harg : exec arg { v with vecSize := xs.length + 1 } =
      (.ok x, { v with vecSize := xs.length + 1 })) : ∃ v',
    exec (emplaceBack noFaults arg) v = (.ok (), v') ∧ Represents v' (xs ++ [x]) := by
  have hsize := h.size
  cases h.stored with
  | stack hle hs hnone hcap => omega
  | heap hlt' hheap =>
    refine push_heap (by omega) hsize ?_ h.shaped hheap hsize (by omega) harg
    rw [if_neg (by omega)]
    rfl

/-- A call that finds the heap block full: the elements are in another block and theirs is gone
before the argument is read. -/
theorem Represents.push_grown (h : Represents v xs) (hlt : N < xs.length)
    (hfull : v.vecSize = v.vecCapacity) (hfit : 2 * xs.length < 2 ^ 31) : ∃ w : Vec T N,
    w.vecSize = xs.length ∧ (∀ old, v.heapVec = some old → w.heap old = none) ∧ ∀ arg,
      exec (emplaceBack noFaults arg) v = exec (append noFaults heapElement arg) w ∧
      ∀ x, exec arg { w with vecSize := xs.length + 1 } =
          (.ok x, { w with vecSize := xs.length + 1 }) → ∃ v',
        exec (emplaceBack noFaults arg) v = (.ok (), v') ∧ Represents v' (xs ++ [x]) := by
  have hsize := h.size
  cases h.stored with
  | stack hle hs hnone hcap => omega
  | heap hlt' hheap =>
    obtain ⟨w, hgrow, hshaped, hheap', hsize', hcap', hgone⟩ :=
      hheap.grow h.shaped hsize (by omega) (show v.vecCapacity = (xs.length : ℕ) by omega) hfit
    have hexec : exec (if v.vecSize = v.vecCapacity then grow noFaults else pure ()) v =
        (.ok (), w) := by
      rw [if_pos hfull, hgrow]
    refine ⟨w, hsize', hgone, ?_⟩
    intro arg
    constructor
    · rw [exec_emplaceBack_heap (by omega), exec_ok hexec]
    · intro x harg
      exact push_heap (by omega) hsize hexec hshaped hheap' hsize' (by omega) harg

theorem Represents.push_error {arg : Op T N T} (h : Represents v xs) (hle : N ≤ xs.length)
    (hmax : xs.length < 2 ^ 31) (hlarge : 2 ^ 30 ≤ xs.length)
    (hfull : v.vecSize = v.vecCapacity) :
    exec (emplaceBack noFaults arg) v = (.error (.exception "std::bad_array_new_length"),
      { v with vecCapacity := Int.bmod (2 * v.vecCapacity) (2 ^ 32) }) := by
  have hsize := h.size
  rw [exec_emplaceBack_heap (by omega), if_pos hfull]
  exact exec_error (exec_grow_error (show v.vecCapacity = (xs.length : ℕ) by omega) (by omega) hmax)

/-- What the next call of `emplace_back` is going to do. -/
inductive Phase (v : Vec T N) (xs : List T) : Prop
  | stack (hlt : xs.length < N) (hmax : xs.length < 2 ^ 31 - 1)
  | overflow (hlt : xs.length < N) (hmax : v.vecSize = intMax)
  | moved (hlen : xs.length = N) (hfit : 2 * N < 2 ^ 31)
  | room (hlt : N < xs.length) (hroom : v.vecSize < v.vecCapacity)
  | grown (hlt : N < xs.length) (hfull : v.vecSize = v.vecCapacity) (hfit : 2 * xs.length < 2 ^ 31)
  | large (hle : N ≤ xs.length) (hlarge : 2 ^ 30 ≤ xs.length) (hfull : v.vecSize = v.vecCapacity)

theorem Represents.phase (h : Represents v xs) (hmax : xs.length < 2 ^ 31) : Phase v xs := by
  have hsize := h.size
  cases h.stored with
  | stack hle hs hnone hcap =>
    by_cases hlt : xs.length < N
    · by_cases hcount : xs.length < 2 ^ 31 - 1
      · exact .stack hlt hcount
      · refine .overflow hlt ?_
        rw [intMax]
        omega
    · rw [toInt_of_lt (by omega)] at hcap
      by_cases hfit : 2 * N < 2 ^ 31
      · exact .moved (by omega) hfit
      · exact .large (by omega) (by omega) (by omega)
  | heap hlt hheap =>
    obtain ⟨b, cells, hb, hcells, hs, hcap⟩ := hheap.block
    have hlen := hs.length_le
    by_cases hroom : v.vecSize < v.vecCapacity
    · exact .room hlt hroom
    · by_cases hfit : 2 * xs.length < 2 ^ 31
      · exact .grown hlt (by omega) hfit
      · exact .large (by omega) (by omega) (by omega)

theorem Represents.small (h : Represents v xs) (hlt : N < xs.length) : xs.length < 2 ^ 31 := by
  cases h.stored with
  | stack hle hs hnone hcap => omega
  | heap _ hheap =>
    obtain ⟨b, cells, hb, hcells, hs, hcap⟩ := hheap.block
    have hlen := hs.length_le
    have hsmall := hheap.small
    omega

theorem Represents.push {x : T} (h : Represents v xs) (hN : N < 2 ^ 31) (hpos : 1 ≤ N) :
    (∃ v', exec (emplaceBack noFaults (pure x)) v = (.ok (), v') ∧ Represents v' (xs ++ [x])) ∨
    2 ^ 30 ≤ xs.length ∧ ∃ v', exec (emplaceBack noFaults (pure x)) v =
      (.error (.exception "std::bad_array_new_length"), v') := by
  have hsize := h.size
  have hmax : xs.length < 2 ^ 31 := by
    by_cases hlt : N < xs.length
    · exact h.small hlt
    · omega
  cases h.phase hmax with
  | stack hlt hcount => exact .inl (h.push_stack hlt hcount (exec_pure x))
  | overflow hlt hcount =>
    rw [intMax] at hcount
    omega
  | moved hlen hfit => exact .inl (h.push_moved hlen hpos hfit fun _ _ => exec_pure x)
  | room hlt hroom => exact .inl (h.push_room hlt hroom (exec_pure x))
  | grown hlt hfull hfit =>
    obtain ⟨_, _, _, hpush⟩ := h.push_grown hlt hfull hfit
    exact .inl ((hpush (pure x)).2 x (exec_pure x))
  | large hle hlarge hfull => exact .inr ⟨hlarge, _, h.push_error hle hmax hlarge hfull⟩

end exec

inductive Event (T : Type)
  | emplaceBack (x : T)
  | assign (i : ℕ) (x : T)

section runs
variable {T : Type} {N : ℕ} {v : Vec T N} {xs : List T} {tr : List (Event T)}

def putLast (xs : List T) : Event T → List T
  | .emplaceBack x => xs ++ [x]
  | .assign i x => xs.set i x

def elements (tr : List (Event T)) : List T := history putLast [] tr

def Admissible (v : Vec T N) : Event T → Prop
  | .emplaceBack _ => True
  | .assign i _ => i < v.vecSize

/-- The argument of `emplace_back` does not refer into the vector. -/
def call : Event T → Op T N Unit
  | .emplaceBack x => emplaceBack noFaults (pure x)
  | .assign i x => assign i x

def next (v : Vec T N) (e : Event T) : Except Failure (Vec T N) :=
  match exec (call e) v with
  | (.ok (), v') => .ok v'
  | (.error f, _) => .error f

def vecs (T : Type) (N : ℕ) : System (Vec T N) (Event T) :=
  System.guarded (fun v => v = construct) Admissible next

/-- What a vector with the elements `xs` does; each access is to initialised memory. -/
structure Correct (v : Vec T N) (xs : List T) : Prop where
  size : v.vecSize = xs.length
  read : ∀ i (h : i < xs.length), ∃ p,
    exec (index i) v = (.ok p, v) ∧ exec (load p) v = (.ok xs[i], v)
  assign : ∀ i < xs.length, ∀ x, (exec (assign i x) v).1 = .ok ()
  emplaceBack : ∀ x, (exec (emplaceBack noFaults (pure x)) v).1 = .ok () ∨
    2 ^ 30 ≤ xs.length ∧ (exec (emplaceBack noFaults (pure x)) v).1 =
      .error (.exception "std::bad_array_new_length")

theorem Represents.correct (h : Represents v xs) (hN : N < 2 ^ 31) (hpos : 1 ≤ N) :
    Correct v xs := by
  refine ⟨h.size, fun i hi => h.read hi, ?_, ?_⟩
  · intro i hi x
    obtain ⟨v', hexec, _⟩ := h.assign (x := x) hi
    rw [hexec]
  · intro x
    rcases h.push (x := x) hN hpos with ⟨v', hexec, _⟩ | ⟨hlarge, v', hexec⟩
    · exact .inl (by rw [hexec])
    · exact .inr ⟨hlarge, by rw [hexec]⟩

theorem Represents.next {v' : Vec T N} {e : Event T} (h : Represents v xs) (hN : N < 2 ^ 31)
    (hpos : 1 ≤ N) (ha : Admissible v e) (he : next v e = .ok v') :
    Represents v' (putLast xs e) := by
  have hsize := h.size
  unfold Vec.next at he
  cases e with
  | emplaceBack x =>
    rw [call] at he
    rcases h.push (x := x) hN hpos with ⟨w, hexec, hw⟩ | ⟨_, w, hexec⟩
    · rw [hexec] at he
      cases he
      exact hw
    · rw [hexec] at he
      cases he
  | assign i x =>
    have hlt : (i : ℤ) < v.vecSize := ha
    obtain ⟨w, hexec, hw⟩ := h.assign (i := i) (x := x) (by omega)
    rw [call, hexec] at he
    cases he
    exact hw

theorem run_represents (hN : N < 2 ^ 31) (hpos : 1 ≤ N)
    (hr : (vecs T N).Run System.always tr v) : Represents v (elements tr) := by
  refine System.run_invariant (P := fun tr v => Represents v (elements tr)) ?_ ?_ hr
  · intro v hv
    subst hv
    exact construct_represents
  · intro tr v e v' _ h _ ⟨ha, he⟩
    rw [elements, history_concat]
    exact h.next hN hpos ha he

/-- As long as the stack array has room `N` may be anything. -/
theorem run_replicate (x : T) {n : ℕ} (hn : n ≤ N) (hmax : n < 2 ^ 31) :
    ∃ v, (vecs T N).Run System.always (List.replicate n (.emplaceBack x)) v ∧
      Represents v (List.replicate n x) := by
  induction n with
  | zero => exact ⟨construct, .start rfl, construct_represents⟩
  | succ n ih =>
    obtain ⟨v, hr, hv⟩ := ih (by omega) (by omega)
    obtain ⟨v', hexec, hv'⟩ := hv.push_stack (by simp; omega) (by simp; omega) (exec_pure x)
    have hstep : (vecs T N).step v (.emplaceBack x) v' := by
      refine ⟨trivial, ?_⟩
      simp only [Vec.next, call, hexec]
    rw [List.replicate_succ', List.replicate_succ']
    exact ⟨v', hr.step trivial hstep, hv'⟩

theorem not_correct (x : T) (hN : 2 ^ 31 ≤ N) :
    ∃ tr v, (vecs T N).Run System.always tr v ∧ ¬ Correct v (elements tr) := by
  obtain ⟨v, hr, hv⟩ := run_replicate x (N := N) (n := 2 ^ 31 - 1) (by omega) (by omega)
  refine ⟨_, v, hr, ?_⟩
  intro hc
  have hmax : v.vecSize = intMax := by
    rw [hv.size, List.length_replicate]
    rfl
  have hlt : v.vecSize < N := by
    rw [hmax, intMax]
    omega
  rcases hc.emplaceBack x with h | ⟨_, h⟩
  · rw [exec_emplaceBack_overflow hlt hmax] at h
    cases h
  · rw [exec_emplaceBack_overflow hlt hmax] at h
    cases h

theorem elements_kept [Inhabited T] (hpos : 1 ≤ N) :
    (∀ tr (v : Vec T N), (vecs T N).Run System.always tr v → Correct v (elements tr)) ↔
      N < 2 ^ 31 := by
  constructor
  · intro hall
    by_contra hN
    obtain ⟨tr, v, hr, hnot⟩ := not_correct (T := T) (N := N) default (by omega)
    exact hnot (hall tr v hr)
  · intro hN tr v hr
    exact (run_represents hN hpos hr).correct hN hpos

end runs

theorem elements_kept_sample : (∀ tr (v : Vec ℕ 8),
    (vecs ℕ 8).Run System.always tr v → Correct v (elements tr)) ↔ 8 < 2 ^ 31 :=
  elements_kept (by omega)

/-- The size of a stack array with `2 ^ 31` elements cannot be counted in an `int`. -/
theorem elements_kept_fails : ¬ ∀ N, 1 ≤ N → ∀ tr (v : Vec ℕ N),
    (vecs ℕ N).Run System.always tr v → Correct v (elements tr) := by
  intro hall
  obtain ⟨tr, v, hr, hnot⟩ := not_correct (N := 2 ^ 31) 0 (Nat.le_refl _)
  exact hnot (hall (2 ^ 31) (by omega) tr v hr)

end ModCpp.Vec
