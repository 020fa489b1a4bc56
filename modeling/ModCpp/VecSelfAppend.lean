import ModCpp.VecFaults

/-!
# Elements that are appended to their own vector

The argument of `v.emplace_back(v[i])` is a reference, which the constructor of the new element
reads when `grow` is over. Where `grow` moves the elements from the stack they are still there;
where it moves them from one heap block to another, the first one has been deleted.
-/

namespace ModCpp.Vec
variable {T : Type} {N : ℕ} {v v' : Vec T N} {xs : List T} {x : T} {i : ℕ}

def Call.Faultless : Call T → Prop
  | .emplaceBack faults _ => faults = noFaults
  | .assign _ _ => True

/-- `v.emplace_back(v[i])` appends a copy of `v[i]` and leaves the other elements. -/
def Copies (v : Vec T N) (i : ℕ) : Prop :=
  ∃ x v', value v i = .ok x ∧
    exec (Call.emplaceBack noFaults (.element i)).body v = (.ok (), v') ∧ Extends v v' x

theorem Represents.value (h : Represents v xs) (hi : i < xs.length) :
    Vec.value v i = .ok xs[i] := by
  obtain ⟨p, hindex, hload⟩ := h.read hi
  rw [value_index hindex, hload]

theorem Represents.extends (h : Represents v xs) (h' : Represents v' (xs ++ [x])) :
    Extends v v' x := by
  have hsize := h.size
  have hsize' := h'.size
  rw [List.length_append, List.length_singleton] at hsize'
  refine ⟨by omega, ?_, ?_⟩
  · intro i hi hlt
    lift i to ℕ using hi
    have hlt' : i < xs.length := by omega
    rw [h.value hlt', h'.value (by simp; omega), List.getElem_append_left hlt']
  · rw [hsize, h'.value (by simp)]
    simp

theorem Represents.load_stack (h : Represents v xs) (hle : xs.length ≤ N) (hi : i < xs.length)
    {w : Vec T N} (hw : w.stackVec = v.stackVec) :
    exec (load ⟨.stack, i⟩) w = (.ok xs[i], w) := by
  cases h.stored with
  | stack _ hs hnone hcap =>
    refine exec_load ?_ hs hi
    rw [← hw]
    rfl
  | heap hlt hheap => omega

theorem Represents.heapVec (h : Represents v xs) (hlt : N < xs.length) :
    ∃ b, v.heapVec = some b := by
  cases h.stored with
  | stack hle hs hnone hcap => omega
  | heap _ hheap =>
    obtain ⟨b, _, hb, _⟩ := hheap.block
    exact ⟨b, hb⟩

theorem Represents.load_heap {b : ℕ} (h : Represents v xs) (hlt : N < xs.length)
    (hi : i < xs.length) (hb : v.heapVec = some b) {w : Vec T N} (hw : w.heap b = v.heap b) :
    exec (load ⟨.heap b, i⟩) w = (.ok xs[i], w) := by
  cases h.stored with
  | stack hle hs hnone hcap => omega
  | heap _ hheap =>
    obtain ⟨b', cells, hb', hcells, hs, _⟩ := hheap.block
    obtain rfl : b = b' := Option.some_inj.mp (hb.symm.trans hb')
    exact exec_load (show w.cellsOf (.heap b) = some cells from hw.trans hcells) hs hi

/-- The vector after an allocation that failed for its size. -/
structure Stuck (v : Vec T N) : Prop where
  noRoom : NoRoom v
  large : 2 ^ 30 ≤ v.vecSize
  negative : v.vecCapacity < 0

theorem Stuck.emplaceBack (hv : Stuck v) (passed : Argument T) :
    ∃ why t, exec (Call.emplaceBack noFaults passed).body v = (.error (.undefined why), t) := by
  cases passed with
  | value x => exact hv.noRoom.emplaceBack (Action.inert_pure x)
  | element i =>
    rcases inert_index (i : ℤ) v with ⟨p, hp⟩ | ⟨why, hwhy⟩
    · obtain ⟨why, t, hexec⟩ := hv.noRoom.emplaceBack (inert_load p)
      exact ⟨why, t, (exec_ok hp).trans hexec⟩
    · exact ⟨why, v, exec_error hwhy⟩

theorem Stuck.withCells {area : Area} {cells cells' : Cells T} (hv : Stuck v)
    (h : v.cellsOf area = some cells) (hlen : cells'.length = cells.length) :
    Stuck (v.withCells cells' area) := by
  have hblock : ∀ b new, v.heapVec = some b → (v.withCells cells' area).heap b = some new →
      new.length ≤ v.vecSize := by
    intro b new hb hnew
    obtain ⟨old, hold, hnewlen⟩ := withCells_heap h hlen hnew
    rw [hnewlen]
    exact hv.noRoom.block b old hb hold
  cases area with
  | stack => exact ⟨⟨hv.noRoom.le, hv.noRoom.ne, hblock⟩, hv.large, hv.negative⟩
  | heap block => exact ⟨⟨hv.noRoom.le, hv.noRoom.ne, hblock⟩, hv.large, hv.negative⟩

theorem Represents.stuck (h : Represents v xs) (hv : Bounded v) (hpos : 1 ≤ N)
    (hle : N ≤ xs.length) (hmax : xs.length < 2 ^ 31) (hlarge : 2 ^ 30 ≤ xs.length)
    (hfull : v.vecSize = v.vecCapacity) : Stuck v.doubled := by
  have hsize := h.size
  have hdouble : v.doubled.vecCapacity = Int.bmod (2 * v.vecCapacity) (2 ^ 32) := rfl
  refine ⟨hv.noRoom hpos (by omega) hfull, ?_, ?_⟩
  · rw [show v.doubled.vecSize = v.vecSize from rfl]
    omega
  · rw [hdouble, Int.bmod_def]
    omega

/-- There is a place for another element which is reached without leaving a heap block. -/
def CanSelfAppend (v : Vec T N) : Prop :=
  v.vecSize < N ∧ v.vecSize < 2 ^ 31 - 1 ∨ v.vecSize = N ∧ N < 2 ^ 30 ∨
    N < v.vecSize ∧ v.vecSize < v.vecCapacity

theorem Represents.selfAppend (h : Represents v xs) (hpos : 1 ≤ N) (hi : i < xs.length)
    (hc : CanSelfAppend v) : ∃ v',
    exec (Call.emplaceBack noFaults (.element i)).body v = (.ok (), v') ∧
      Represents v' (xs ++ [xs[i]]) := by
  have hsize := h.size
  rcases hc with ⟨hlt, hmax⟩ | ⟨hlen, hfit⟩ | ⟨hlt, hroom⟩
  · obtain ⟨v', hexec, h'⟩ := h.push_stack (by omega) (by omega)
      (h.load_stack (by omega) hi rfl)
    exact ⟨v', (exec_ok (exec_index_stack (by omega) i)).trans hexec, h'⟩
  · obtain ⟨v', hexec, h'⟩ := h.push_moved (by omega) hpos (by omega)
      fun _ hw => h.load_stack (by omega) hi hw
    exact ⟨v', (exec_ok (exec_index_stack (by omega) i)).trans hexec, h'⟩
  · obtain ⟨b, hb⟩ := h.heapVec (by omega)
    obtain ⟨v', hexec, h'⟩ := h.push_room (by omega) hroom
      (h.load_heap (by omega) hi hb rfl)
    exact ⟨v', (exec_ok (exec_index_heap (by omega) hb i)).trans hexec, h'⟩

theorem Represents.selfAppend_fails (h : Represents v xs) (hv : Bounded v) (hpos : 1 ≤ N)
    (hmax : xs.length < 2 ^ 31) (hi : i < xs.length) (hc : ¬ CanSelfAppend v) :
    (∃ why t, exec (Call.emplaceBack noFaults (.element i)).body v =
      (.error (.undefined why), t)) ∨
    Stuck v.doubled ∧ ∃ m, exec (Call.emplaceBack noFaults (.element i)).body v =
      (.error (.exception m), v.doubled) := by
  have hsize := h.size
  obtain ⟨p, hindex, _⟩ := h.read hi
  cases h.phase hmax with
  | stack hlt hcount => exact absurd (.inl ⟨by omega, by omega⟩) hc
  | overflow hlt hcount =>
    exact .inl ⟨_, v, (exec_ok hindex).trans (exec_emplaceBack_overflow (by omega) hcount)⟩
  | moved hlen hfit => exact absurd (.inr (.inl ⟨by omega, by omega⟩)) hc
  | room hlt hroom => exact absurd (.inr (.inr ⟨by omega, hroom⟩)) hc
  | grown hlt hfull hfit =>
    obtain ⟨b, hb⟩ := h.heapVec hlt
    obtain ⟨w, _, hgone, hpush⟩ := h.push_grown hlt hfull hfit
    obtain ⟨why, t, happend⟩ := append_undefined (v := w) inert_heapElement
      (inert_load ⟨.heap b, i⟩) (by
        intro p x _ hx
        -- The reference is into the block that `grow` has deleted.
        have hnone : w.counted.cellsOf (.heap b) = none := hgone b hb
        rw [load, exec_error (exec_array_none hnone)] at hx
        cases hx)
    refine .inl ⟨why, t, ?_⟩
    rw [← happend, ← (hpush (load ⟨.heap b, i⟩)).1]
    exact exec_ok (exec_index_heap (by omega) hb i)
  | large hle hlarge hfull =>
    refine .inr ⟨h.stuck hv hpos hle hmax hlarge hfull, "std::bad_array_new_length", ?_⟩
    exact (exec_ok hindex).trans (h.push_error hle hmax hlarge hfull)

theorem Represents.append (h : Represents v xs) (hv : Bounded v) (hpos : 1 ≤ N)
    (hmax : xs.length < 2 ^ 31) (x : T) :
    (∃ v', exec (emplaceBack noFaults (pure x)) v = (.ok (), v') ∧ Represents v' (xs ++ [x])) ∨
    (∃ why t, exec (emplaceBack noFaults (pure x)) v = (.error (.undefined why), t)) ∨
    Stuck v.doubled ∧ ∃ m, exec (emplaceBack noFaults (pure x)) v =
      (.error (.exception m), v.doubled) := by
  have hsize := h.size
  cases h.phase hmax with
  | stack hlt hcount => exact .inl (h.push_stack hlt hcount (exec_pure x))
  | overflow hlt hcount => exact .inr (.inl ⟨_, v, exec_emplaceBack_overflow (by omega) hcount⟩)
  | moved hlen hfit => exact .inl (h.push_moved hlen hpos hfit fun _ _ => exec_pure x)
  | room hlt hroom => exact .inl (h.push_room hlt hroom (exec_pure x))
  | grown hlt hfull hfit =>
    obtain ⟨_, _, _, hpush⟩ := h.push_grown hlt hfull hfit
    exact .inl ((hpush (pure x)).2 x (exec_pure x))
  | large hle hlarge hfull =>
    exact .inr (.inr ⟨h.stuck hv hpos hle hmax hlarge hfull, _,
      h.push_error hle hmax hlarge hfull⟩)

inductive Sound (v : Vec T N) : Prop
  | represents (xs : List T) (h : Represents v xs) (hmax : xs.length < 2 ^ 31)
  | stuck (h : Stuck v)

theorem Represents.pushed {arg : Op T N T} (h : Represents v xs)
    (hexec : exec (emplaceBack noFaults arg) v = (.ok (), v'))
    (h' : Represents v' (xs ++ [x])) (hmax : xs.length < 2 ^ 31) : Sound v' := by
  have hsize := h.size
  have hlen : (xs ++ [x]).length = xs.length + 1 := List.length_append
  refine .represents _ h' ?_
  by_cases hlt : N < (xs ++ [x]).length
  · exact h'.small hlt
  · by_cases hcount : v.vecSize = intMax
    · cases hexec.symm.trans (exec_emplaceBack_overflow (by omega) hcount)
    · rw [intMax] at hcount
      omega

theorem Represents.keep {c : Call T} {r : Except Failure Unit} (h : Represents v xs)
    (hmax : xs.length < 2 ^ 31) (hv : Bounded v) (hpos : 1 ≤ N) (hc : c.Faultless)
    (ha : c.Admissible v) (hexec : exec c.body v = (r, v'))
    (hr : ∀ why, r ≠ .error (.undefined why)) : Sound v' := by
  have hsize := h.size
  cases c with
  | emplaceBack faults passed =>
    have hfaults : faults = noFaults := hc
    subst hfaults
    cases passed with
    | value x =>
      rcases h.append hv hpos hmax x with ⟨w, hw, h'⟩ | ⟨why, t, hwhy⟩ | ⟨hstuck, m, hm⟩
      · cases hexec.symm.trans hw
        exact h.pushed hw h' hmax
      · cases hexec.symm.trans hwhy
        exact absurd rfl (hr why)
      · cases hexec.symm.trans hm
        exact .stuck hstuck
    | element i =>
      have hlt : (i : ℤ) < v.vecSize := ha
      have hi : i < xs.length := by omega
      by_cases hcan : CanSelfAppend v
      · obtain ⟨w, hw, h'⟩ := h.selfAppend hpos hi hcan
        obtain ⟨p, hindex, _⟩ := h.read hi
        cases hexec.symm.trans hw
        exact h.pushed ((exec_ok hindex).symm.trans hw) h' hmax
      · rcases h.selfAppend_fails hv hpos hmax hi hcan with ⟨why, t, hwhy⟩ | ⟨hstuck, m, hm⟩
        · cases hexec.symm.trans hwhy
          exact absurd rfl (hr why)
        · cases hexec.symm.trans hm
          exact .stuck hstuck
  | assign i x =>
    have hlt : (i : ℤ) < v.vecSize := ha
    obtain ⟨w, hw, h'⟩ := h.assign (i := i) (x := x) (by omega)
    cases hexec.symm.trans hw
    refine .represents _ h' ?_
    rwa [List.length_set]

theorem Stuck.keep {c : Call T} {r : Except Failure Unit} (h : Stuck v) (hc : c.Faultless)
    (hexec : exec c.body v = (r, v')) (hr : ∀ why, r ≠ .error (.undefined why)) : Stuck v' := by
  cases c with
  | emplaceBack faults passed =>
    have hfaults : faults = noFaults := hc
    subst hfaults
    obtain ⟨why, t, hwhy⟩ := h.emplaceBack passed
    cases hexec.symm.trans hwhy
    exact absurd rfl (hr why)
  | assign i x =>
    rcases inert_index (i : ℤ) v with ⟨p, hp⟩ | ⟨why, hwhy⟩
    · have hbody : exec (Call.assign i x).body v = exec (store p x) v := exec_ok hp
      rcases store_cases (v := v) p x with ⟨why, hstore⟩ | ⟨cells, hcells, _, hstore⟩
      · cases hexec.symm.trans (hbody.trans hstore)
        exact absurd rfl (hr why)
      · cases hexec.symm.trans (hbody.trans hstore)
        exact h.withCells hcells List.length_set
    · have hbody : exec (Call.assign i x).body v = (.error (.undefined why), v) :=
        exec_error hwhy
      cases hexec.symm.trans hbody
      exact absurd rfl (hr why)

theorem run_sound {tr : List (Call T)} (hpos : 1 ≤ N)
    (hr : ((calls T N).restrict fun _ c => c.Faultless).Run System.always tr v) : Sound v := by
  refine System.run_invariant (P := fun _ v => Sound v) ?_ ?_ hr
  · intro v hv
    subst hv
    exact .represents [] construct_represents (by simp)
  · intro _ v c v' hr hv _ ⟨hc, ha, r, hexec, hdefined⟩
    cases hv with
    | represents xs h hmax =>
      exact h.keep hmax (run_bounded (System.run_of_restrict hr)) hpos hc ha hexec hdefined
    | stuck h => exact .stuck (h.keep hc hexec hdefined)

theorem Stuck.not_copies (h : Stuck v) : ¬ Copies v i := by
  intro ⟨x, v', _, hexec, _⟩
  obtain ⟨why, t, hwhy⟩ := h.emplaceBack (.element i)
  cases hexec.symm.trans hwhy

theorem Stuck.not_canSelfAppend (h : Stuck v) : ¬ CanSelfAppend v := by
  have hle := h.noRoom.le
  have hlarge := h.large
  have hneg := h.negative
  intro hcan
  rw [CanSelfAppend] at hcan
  omega

theorem selfAppend_copies {tr : List (Call T)} (hpos : 1 ≤ N)
    (hr : ((calls T N).restrict fun _ c => c.Faultless).Run System.always tr v)
    (hi : i < v.vecSize) : Copies v i ↔ CanSelfAppend v := by
  cases run_sound hpos hr with
  | stuck h => exact iff_of_false h.not_copies h.not_canSelfAppend
  | represents xs h hmax =>
    have hsize := h.size
    have hi' : i < xs.length := by omega
    constructor
    · intro ⟨x, v', _, hexec, _⟩
      by_contra hcan
      rcases h.selfAppend_fails (run_bounded (System.run_of_restrict hr)) hpos hmax hi' hcan with
        ⟨why, t, hwhy⟩ | ⟨_, m, hm⟩
      · cases hexec.symm.trans hwhy
      · cases hexec.symm.trans hm
    · intro hcan
      obtain ⟨v', hexec, h'⟩ := h.selfAppend hpos hi' hcan
      exact ⟨xs[i], v', h.value hi', hexec, h.extends h'⟩

/-- A vector with `7` on the stack and room for one element there. -/
def onStack : Vec ℕ 1 := { (construct : Vec ℕ 1) with stackVec := [some 7], vecSize := 1 }

/-- The same vector with `8` behind it, both in a heap block that is full. -/
def onHeap : Vec ℕ 1 := (exec (Call.emplaceBack noFaults (.value 8)).body onStack).2

theorem run_onStack : ((calls ℕ 1).restrict fun _ c => c.Faultless).Run System.always
    [.emplaceBack noFaults (.value 7)] onStack := by
  refine .step (.start rfl) trivial ⟨rfl, trivial, .ok (), rfl, ?_⟩
  intro why h
  cases h

theorem selfAppend_copies_sample : Copies onStack 0 ↔ CanSelfAppend onStack :=
  selfAppend_copies (Nat.le_refl 1) run_onStack (by decide)

theorem selfAppend_copies_fails : ¬ ∀ N, 1 ≤ N → ∀ tr (v : Vec ℕ N) (i : ℕ),
    ((calls ℕ N).restrict fun _ c => c.Faultless).Run System.always tr v → i < v.vecSize →
    Copies v i := by
  intro hall
  have hr : ((calls ℕ 1).restrict fun _ c => c.Faultless).Run System.always
      [.emplaceBack noFaults (.value 7), .emplaceBack noFaults (.value 8)] onHeap := by
    refine .step run_onStack trivial ⟨rfl, trivial, .ok (), rfl, ?_⟩
    intro why h
    cases h
  obtain ⟨x, v', _, hexec, _⟩ := hall 1 (Nat.le_refl 1) _ _ 0 hr (by decide)
  have hundefined : (exec (Call.emplaceBack noFaults (.element 0)).body onHeap).1 =
      .error (.undefined "access to a block that is not alive") := rfl
  rw [hexec] at hundefined
  cases hundefined

end ModCpp.Vec
