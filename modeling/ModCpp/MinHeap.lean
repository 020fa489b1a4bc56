import ModCpp.HeapOrder
import ModCpp.MachineWord
import ModCpp.Runs

/-!
# `MinHeap` (`heap.cc`)

Positions are `int` values that are never negative; the expressions that may overflow are
checked. Position 0 of `data` is not used by the heap, so an access there fails like one beyond
the array. `min_val` is an `int` whatever the element type, which is given by the conversion
`conv` from it. A method returns its result, or the text of the exception it throws, beside
the heap it leaves.
-/

namespace ModCpp.MinHeap

structure Heap where
  data : ℕ → ℤ
  last : ℕ

section code
variable (conv : ℤ → ℤ) (MaxHeapSize : ℕ)

def get (h : Heap) (i : ℕ) : Loop ℤ :=
  if 1 ≤ i ∧ i < MaxHeapSize then pure (h.data i) else throw (.undefined "index out of range")

def set (h : Heap) (i : ℕ) (val : ℤ) : Loop Heap :=
  if 1 ≤ i ∧ i < MaxHeapSize then pure { h with data := Function.update h.data i val }
  else throw (.undefined "index out of range")

/-- `std::swap(data[i], data[j])` -/
def swap (h : Heap) (i j : ℕ) : Loop Heap := do
  let a ← get MaxHeapSize h i
  let b ← get MaxHeapSize h j
  let h ← set MaxHeapSize h i b
  set MaxHeapSize h j a

/-- One test of `down`: `best` is the pair of `min_val` and `min_val_pos`. -/
def child (h : Heap) (pos : ℕ) (best : ℤ × ℕ) : Loop (ℤ × ℕ) :=
  if pos ≤ h.last then do
    let val ← get MaxHeapSize h pos
    if val < best.1 then pure (conv val, pos) else pure best
  else pure best

def down : ℕ → ℕ → Heap → Loop Heap
  | 0, _, _ => running
  | fuel + 1, root, h => do
    let val ← get MaxHeapSize h root
    let left ← int (root * 2)
    let best ← child conv MaxHeapSize h left (conv val, root)
    let right ← int (root * 2 + 1)
    let best ← child conv MaxHeapSize h right best
    if best.2 ≠ root then do
      let h ← swap MaxHeapSize h root best.2
      down fuel best.2 h
    else pure h

def up : ℕ → ℕ → Heap → Loop Heap
  | 0, _, _ => running
  | fuel + 1, root, h =>
    if root = 1 then pure h
    else do
      let father := root / 2
      let a ← get MaxHeapSize h father
      let b ← get MaxHeapSize h root
      if a > b then do
        let h ← swap MaxHeapSize h father root
        up fuel father h
      else pure h

def full (h : Heap) : Prop := h.last ≥ MaxHeapSize - 1

instance (h : Heap) : Decidable (full MaxHeapSize h) := inferInstanceAs (Decidable (_ ≥ _))

def empty (h : Heap) : Prop := h.last = 0

instance (h : Heap) : Decidable (empty h) := inferInstanceAs (Decidable (_ = _))

abbrev Result := Except String (Option ℤ) × Heap

/-- The recursion of `up` and `down` is never deeper than `last`. -/
def push (val : ℤ) (h : Heap) : Loop Result :=
  if full MaxHeapSize h then pure (.error "heap is full", h)
  else do
    let last ← int (h.last + 1)
    let h ← set MaxHeapSize { h with last := last } last val
    let h ← up MaxHeapSize last last h
    pure (.ok none, h)

def top (h : Heap) : Loop Result :=
  if empty h then pure (.error "heap is empty", h)
  else do
    let val ← get MaxHeapSize h 1
    pure (.ok (some val), h)

def pop (h : Heap) : Loop Result :=
  if empty h then pure (.error "heap is empty", h)
  else do
    let h ← swap MaxHeapSize h 1 h.last
    let h := { h with last := h.last - 1 }
    let h ← down conv MaxHeapSize (h.last + 1) 1 h
    pure (.ok none, h)

inductive Call
  | push (val : ℤ)
  | top
  | pop

def invoke (h : Heap) : Call → Loop Result
  | .push val => push MaxHeapSize val h
  | .top => top MaxHeapSize h
  | .pop => pop conv MaxHeapSize h

/-- The array of a default-constructed heap has any contents. -/
def heapSystem : System Heap (Call × Except String (Option ℤ)) where
  init h := h.last = 0
  step h e h' := invoke conv MaxHeapSize h e.1 = pure (e.2, h')

end code

section lemmas
variable {conv : ℤ → ℤ} {M : ℕ} {h : Heap} {i j root lo fuel : ℕ}

theorem get_of (h1 : 1 ≤ i) (hi : i < M) : get M h i = pure (h.data i) := if_pos ⟨h1, hi⟩

theorem set_of (h1 : 1 ≤ i) (hi : i < M) (val : ℤ) :
    set M h i val = pure { h with data := Function.update h.data i val } := if_pos ⟨h1, hi⟩

theorem swap_of (hi1 : 1 ≤ i) (hi : i < M) (hj1 : 1 ≤ j) (hj : j < M) :
    swap M h i j = pure { h with data := h.data ∘ Equiv.swap i j } := by
  rw [swap, get_of hi1 hi, pure_bind, get_of hj1 hj, pure_bind, set_of hi1 hi, pure_bind,
    set_of hj1 hj, Equiv.swap_comm, Equiv.comp_swap_eq_update]

theorem child_of {best : ℤ × ℕ} (h1 : 1 ≤ i) (hlast : h.last < M) :
    child conv M h i best =
      pure (if i ≤ h.last ∧ h.data i < best.1 then (conv (h.data i), i) else best) := by
  unfold child
  by_cases hi : i ≤ h.last
  · rw [if_pos hi, get_of h1 (by omega), pure_bind]
    simp only [hi, true_and]
    split_ifs <;> rfl
  · rw [if_neg hi, if_neg (by omega)]

def minValPos (conv : ℤ → ℤ) (last root : ℕ) (val left right : ℤ) : ℤ × ℕ :=
  let best := if root * 2 ≤ last ∧ left < conv val then (conv left, root * 2) else (conv val, root)
  if root * 2 + 1 ≤ last ∧ right < best.1 then (conv right, root * 2 + 1) else best

theorem minValPos_cases {last : ℕ} {val left right : ℤ} (h1 : 1 ≤ root) :
    (minValPos conv last root val left right).2 = root ∨
      ((minValPos conv last root val left right).2 / 2 = root ∧
        root < (minValPos conv last root val left right).2 ∧
        (minValPos conv last root val left right).2 ≤ last) := by
  rw [minValPos]
  by_cases hl : root * 2 ≤ last ∧ left < conv val
  · simp only [if_pos hl]
    split_ifs with hr
    · exact .inr ⟨by simp only; omega, by simp only; omega, hr.1⟩
    · exact .inr ⟨by simp only; omega, by simp only; omega, hl.1⟩
  · simp only [if_neg hl]
    split_ifs with hr
    · exact .inr ⟨by simp only; omega, by simp only; omega, hr.1⟩
    · exact .inl rfl

theorem minValPos_congr {d d' : ℕ → ℤ} {last : ℕ} {val : ℤ} (hpos : 1 ≤ root)
    (hd : ∀ i, root < i → i ≤ last → d i = d' i) :
    minValPos conv last root val (d (root * 2)) (d (root * 2 + 1)) =
      minValPos conv last root val (d' (root * 2)) (d' (root * 2 + 1)) := by
  rw [minValPos, minValPos]
  by_cases hl : root * 2 ≤ last
  · rw [hd (root * 2) (by omega) hl]
    by_cases hr : root * 2 + 1 ≤ last
    · rw [hd (root * 2 + 1) (by omega) hr]
    · simp only [hr, false_and, if_false]
  · have hr : ¬ root * 2 + 1 ≤ last := by omega
    simp only [hl, hr, false_and, if_false]

def sinkPos (conv : ℤ → ℤ) (last : ℕ) (d : ℕ → ℤ) (val : ℤ) (root : ℕ) : ℕ :=
  (minValPos conv last root val (d (root * 2)) (d (root * 2 + 1))).2

theorem sinkPos_cases (last : ℕ) (d : ℕ → ℤ) (root : ℕ) :
    sinkPos id last d (d root) root = root ∧ (∀ i ≤ last, i / 2 = root → d root ≤ d i) ∨
    ∃ pos, sinkPos id last d (d root) root = pos ∧ pos / 2 = root ∧ pos ≤ last ∧ root < pos ∧
      d pos < d root ∧ ∀ i ≤ last, i / 2 = root → d pos ≤ d i := by
  have hchild : ∀ i, i / 2 = root → i = root * 2 ∨ i = root * 2 + 1 := by
    intro i hi
    omega
  by_cases hl : root * 2 ≤ last ∧ d (root * 2) < d root
  · by_cases hr : root * 2 + 1 ≤ last ∧ d (root * 2 + 1) < d (root * 2)
    · refine .inr ⟨root * 2 + 1, ?_, by omega, hr.1, by omega, hr.2.trans hl.2, ?_⟩
      · simp only [sinkPos, minValPos, id, if_pos hl, if_pos hr]
      · intro i _ hp
        obtain rfl | rfl := hchild i hp
        · exact hr.2.le
        · exact le_rfl
    · have hne : root ≠ 0 := by
        intro h0
        rw [h0] at hl
        exact lt_irrefl _ hl.2
      refine .inr ⟨root * 2, ?_, by omega, hl.1, by omega, hl.2, ?_⟩
      · simp only [sinkPos, minValPos, id, if_pos hl, if_neg hr]
      · intro i hi hp
        obtain rfl | rfl := hchild i hp
        · exact le_rfl
        · exact not_lt.mp fun hlt => hr ⟨hi, hlt⟩
  · by_cases hr : root * 2 + 1 ≤ last ∧ d (root * 2 + 1) < d root
    · refine .inr ⟨root * 2 + 1, ?_, by omega, hr.1, by omega, hr.2, ?_⟩
      · simp only [sinkPos, minValPos, id, if_neg hl, if_pos hr]
      · intro i hi hp
        obtain rfl | rfl := hchild i hp
        · exact hr.2.le.trans (not_lt.mp fun hlt => hl ⟨hi, hlt⟩)
        · exact le_rfl
    · refine .inl ⟨?_, ?_⟩
      · simp only [sinkPos, minValPos, id, if_neg hl, if_neg hr]
      · intro i hi hp
        obtain rfl | rfl := hchild i hp
        · exact not_lt.mp fun hlt => hl ⟨hi, hlt⟩
        · exact not_lt.mp fun hlt => hr ⟨hi, hlt⟩

theorem down_step (h1 : 1 ≤ root) (hroot : root < 2 ^ 30) (hM : root < M) (hlast : h.last < M)
    {pos : ℕ} (hpos : sinkPos conv h.last h.data (h.data root) root = pos) :
    down conv M (fuel + 1) root h = if pos ≠ root then
      swap M h root pos >>= fun h' => down conv M fuel pos h' else pure h := by
  subst hpos
  rw [down, get_of h1 hM, pure_bind, int_of_lt (by omega), pure_bind, child_of (by omega) hlast,
    pure_bind, int_of_lt (by omega), pure_bind, child_of (by omega) hlast, pure_bind]
  rfl

theorem down_overflow_of (h1 : 1 ≤ root) (hroot : 2 ^ 30 ≤ root) (hM : root < M) :
    down conv M (fuel + 1) root h = throw (.undefined "int overflow") := by
  have hint : int (root * 2) = throw (.undefined "int overflow") := if_neg (by omega)
  rw [down, get_of h1 hM, pure_bind, hint, throw_bind]

/-- Sinking `val` from `root` into the elements `d`, `down` moves up a least one of an element
and its children at each position, and doubles none beyond `int`. -/
def Sinks (conv : ℤ → ℤ) (last : ℕ) (d : ℕ → ℤ) (val : ℤ) : ℕ → ℕ → Prop
  | 0, _ => False
  | fuel + 1, root =>
    root < 2 ^ 30 ∧ Function.update d root val (sinkPos conv last d val root) ≤ val ∧
      (∀ i ≤ last, i / 2 = root →
        Function.update d root val (sinkPos conv last d val root) ≤ d i) ∧
      (sinkPos conv last d val root ≠ root →
        Sinks conv last d val fuel (sinkPos conv last d val root))

instance (conv : ℤ → ℤ) (last : ℕ) (d : ℕ → ℤ) (val : ℤ) :
    ∀ fuel root, Decidable (Sinks conv last d val fuel root)
  | 0, _ => .isFalse id
  | fuel + 1, root =>
    have := instDecidableSinks conv last d val fuel (sinkPos conv last d val root)
    inferInstanceAs (Decidable (_ ∧ _ ∧ (∀ i ≤ last, _ → _) ∧ (_ → _)))

theorem down_of_sinks {d : ℕ → ℤ} (hlo : 1 ≤ lo) (h1 : lo ≤ root) (hM : root < M)
    (hlast : h.last < M) (hs : Sinks conv h.last d (h.data root) fuel root)
    (hd : ∀ i, root < i → i ≤ h.last → h.data i = d i)
    (ho : DownOrdered h.data lo h.last root) :
    ∃ data, down conv M fuel root h = pure ⟨data, h.last⟩ ∧ HeapOrdered data lo h.last ∧
      contents data h.last = contents h.data h.last ∧
      ∀ i, i < root ∨ h.last < i → data i = h.data i := by
  induction fuel generalizing root h with
  | zero => exact hs.elim
  | succ fuel ih =>
    obtain ⟨hroot, hself, hmin, hrest⟩ := hs
    rw [sinkPos, ← minValPos_congr (by omega) hd] at hself hmin hrest
    generalize hpos : (minValPos conv h.last root (h.data root) (h.data (root * 2))
      (h.data (root * 2 + 1))).2 = pos at *
    have hcases : pos = root ∨ (pos / 2 = root ∧ root < pos ∧ pos ≤ h.last) := by
      rw [← hpos]
      exact minValPos_cases (by omega)
    rw [down_step (by omega) hroot hM hlast hpos]
    rcases hcases with rfl | ⟨hp, hlt, hle⟩
    · rw [if_neg (not_not.mpr rfl)]
      refine ⟨h.data, rfl, ho.finish ?_, rfl, fun _ _ => rfl⟩
      intro i hi hip
      have hleast := hmin i hi hip
      rwa [Function.update_self, ← hd i (by omega) hi] at hleast
    · rw [Function.update_of_ne hlt.ne', ← hd pos hlt hle] at hself hmin
      rw [if_pos hlt.ne', swap_of (by omega) hM (by omega) (by omega), pure_bind]
      have hmoved := ho.move hlo h1 hp hle hself fun i hi hip => by
        rw [hd i (by omega) hi]
        exact hmin i hi hip
      have hswapped : ∀ i, i ≠ root → i ≠ pos → (h.data ∘ Equiv.swap root pos) i = h.data i :=
        fun _ => comp_swap_of_ne
      have hval : (h.data ∘ Equiv.swap root pos) pos = h.data root := by simp
      have hsinks : Sinks conv h.last d ((h.data ∘ Equiv.swap root pos) pos) fuel pos := by
        rw [hval]
        exact hrest hlt.ne'
      obtain ⟨data, hdown, horder, hcont, hframe⟩ :=
        @ih ⟨h.data ∘ Equiv.swap root pos, h.last⟩ pos (by omega) (by omega) hlast
          hsinks (fun i hi hil => (hswapped i (by omega) (by omega)).trans (hd i (by omega) hil))
          hmoved
      have hsame : contents (h.data ∘ Equiv.swap root pos) h.last = contents h.data h.last :=
        contents_swap (by omega) (by omega) (by omega) hle
      refine ⟨data, hdown, horder, hcont.trans hsame, ?_⟩
      intro i hi
      have hi' : i < pos ∨ h.last < i := by omega
      exact (hframe i hi').trans (hswapped i (by omega) (by omega))

/-- The elements of an `int` heap sink so, or to a position beyond `2 ^ 30`. -/
theorem sinks_or_overflow {d : ℕ → ℤ} (fuel root : ℕ) (h1 : 1 ≤ root) (hM : root < M)
    (hlast : h.last < M) (hfuel : h.last + 1 ≤ root + fuel) (hpos : 0 < fuel)
    (hd : ∀ i, root < i → i ≤ h.last → h.data i = d i) :
    Sinks id h.last d (h.data root) fuel root ∨
      (down id M fuel root h = throw (.undefined "int overflow") ∧
        (2 ^ 30 ≤ root ∨ 2 ^ 30 ≤ h.last)) := by
  induction fuel generalizing root h with
  | zero => omega
  | succ fuel ih =>
    by_cases hroot : root < 2 ^ 30
    · have hchosen : sinkPos id h.last d (h.data root) root =
          sinkPos id h.last h.data (h.data root) root := by
        rw [sinkPos, sinkPos, ← minValPos_congr h1 hd]
      rcases sinkPos_cases h.last h.data root with
        ⟨hpos, hstop⟩ | ⟨pos, hpos, hp, hle, hlt, hless, hmin⟩
      · left
        rw [Sinks, hchosen, hpos, Function.update_self]
        refine ⟨hroot, le_rfl, ?_, fun hne => absurd rfl hne⟩
        intro i hi hip
        rw [← hd i (by omega) hi]
        exact hstop i hi hip
      · have hswapped : ∀ i, i ≠ root → i ≠ pos → (h.data ∘ Equiv.swap root pos) i = h.data i :=
          fun _ => comp_swap_of_ne
        have hval : (h.data ∘ Equiv.swap root pos) pos = h.data root := by simp
        have hrec := @ih ⟨h.data ∘ Equiv.swap root pos, h.last⟩ pos
          (by omega) (by omega) hlast (show h.last + 1 ≤ pos + fuel by omega)
          (by omega) fun i hi hil =>
            (hswapped i (by omega) (by omega)).trans (hd i (by omega) hil)
        rw [Sinks, hchosen, down_step h1 hroot hM hlast hpos, hpos, if_pos hlt.ne',
          swap_of h1 hM (by omega) (by omega), pure_bind,
          Function.update_of_ne hlt.ne', ← hd _ hlt hle]
        simp only [hval] at hrec
        rcases hrec with hsinks | ⟨hover, hbig⟩
        · refine .inl ⟨hroot, hless.le, ?_, fun _ => hsinks⟩
          intro i hi hip
          rw [← hd i (by omega) hi]
          exact hmin i hi hip
        · refine .inr ⟨hover, ?_⟩
          have hbig' : 2 ^ 30 ≤ pos ∨ 2 ^ 30 ≤ h.last := hbig
          omega
    · exact .inr ⟨down_overflow_of h1 (not_lt.mp hroot) hM, .inl (not_lt.mp hroot)⟩

theorem up_spec (fuel : ℕ) (h1 : 1 ≤ root) (hle : root ≤ h.last) (hlast : h.last < M)
    (hfuel : root ≤ fuel) (ho : UpOrdered h.data h.last root) :
    ∃ data, up M fuel root h = pure ⟨data, h.last⟩ ∧ HeapOrdered data 1 h.last ∧
      contents data h.last = contents h.data h.last := by
  induction fuel generalizing root h with
  | zero => omega
  | succ fuel ih =>
    rw [up]
    by_cases hroot : root = 1
    · rw [if_pos hroot]
      exact ⟨h.data, rfl, ho.finish fun h2 => by omega, rfl⟩
    · rw [if_neg hroot]
      simp only [get_of (h := h) (i := root / 2) (M := M) (by omega) (by omega),
        get_of (h := h) h1 (show root < M by omega), pure_bind]
      by_cases hlt : h.data root < h.data (root / 2)
      · rw [if_pos hlt, swap_of (by omega) (by omega) (by omega) (by omega), pure_bind]
        have hmoved := ho.move (by omega) hle hlt
        obtain ⟨data, hup, horder, hcont⟩ :=
          @ih ⟨h.data ∘ Equiv.swap (root / 2) root, h.last⟩ _ (by omega)
            (show root / 2 ≤ h.last by omega) hlast (by omega) hmoved
        have hsame : contents (h.data ∘ Equiv.swap (root / 2) root) h.last =
            contents h.data h.last := contents_swap (by omega) (by omega) h1 hle
        exact ⟨data, hup, horder, hcont.trans hsame⟩
      · rw [if_neg hlt]
        exact ⟨h.data, rfl, ho.finish fun _ => not_lt.mp hlt, rfl⟩

end lemmas

end ModCpp.MinHeap
