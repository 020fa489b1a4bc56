import ModCpp.VecRuns

/-!
# Calls of the vector that end with an exception

An `emplace_back` may end with an exception of the allocation or of a copy assignment in
`grow`, or of the constructor of the new element. The members that are changed before it
keep their new values, so the caller has another vector than before or one whose next
`emplace_back` spoils it.
-/

namespace ModCpp.Vec

inductive Argument (T : Type)
  | value (x : T)
  /-- The reference `v[i]`. -/
  | element (i : ℕ)

inductive Call (T : Type)
  | emplaceBack (faults : Faults) (arg : Argument T)
  | assign (i : ℕ) (x : T)

section calls
variable {T : Type} {N : ℕ} {v v' : Vec T N} {faults : Faults} {arg : Op T N T}

def Call.body : Call T → Op T N Unit
  | .emplaceBack faults (.value x) => Vec.emplaceBack faults (pure x)
  | .emplaceBack faults (.element i) => do
    let p ← index i
    Vec.emplaceBack faults (load p)
  | .assign i x => Vec.assign i x

def Call.Admissible (v : Vec T N) : Call T → Prop
  | .emplaceBack _ (.value _) => True
  | .emplaceBack _ (.element i) => i < v.vecSize
  | .assign i _ => i < v.vecSize

/-- A call that throws leaves the vector as it is then. -/
def calls (T : Type) (N : ℕ) : System (Vec T N) (Call T) where
  init v := v = construct
  step v c v' := c.Admissible v ∧ ∃ r, exec c.body v = (r, v') ∧ ∀ why, r ≠ .error (.undefined why)

/-- `T x = v[i];` -/
def value (v : Vec T N) (i : ℤ) : Except Failure T := (exec (index i >>= load) v).1

structure Extends (v v' : Vec T N) (x : T) : Prop where
  size : v'.vecSize = v.vecSize + 1
  old : ∀ i, 0 ≤ i → i < v.vecSize → value v' i = value v i
  new : value v' v.vecSize = .ok x

/-- After a call that threw: the vector is as before and can be extended. -/
structure Unharmed (v v' : Vec T N) : Prop where
  size : v'.vecSize = v.vecSize
  values : ∀ i, 0 ≤ i → i < v.vecSize → value v' i = value v i
  later : ∀ x r v'', exec (emplaceBack noFaults (pure x)) v' = (r, v'') →
    (∀ why, r ≠ .error (.undefined why)) ∧ (r = .ok () → Extends v' v'' x)

theorem inert_array (area : Area) : Action.Inert (array area : Op T N (Cells T)) := by
  cases area with
  | stack => exact Action.inert_get.bind fun _ => Action.inert_pure _
  | heap block =>
    refine Action.inert_get.bind ?_
    intro v
    cases v.heap block with
    | none => exact Action.inert_undefined _
    | some cells => exact Action.inert_pure _

theorem inert_element (area : Area) (i : ℤ) : Action.Inert (element area i : Op T N Place) :=
  (Action.inert_failIf _ _).bind fun _ => Action.inert_pure _

theorem inert_heapElement (i : ℤ) : Action.Inert (heapElement i : Op T N Place) := by
  refine Action.inert_get.bind ?_
  intro v
  cases v.heapVec with
  | none => exact Action.inert_undefined _
  | some block => exact inert_element _ _

theorem inert_index (i : ℤ) : Action.Inert (index i : Op T N Place) := by
  refine Action.inert_get.bind ?_
  intro v
  split_ifs
  · exact inert_element _ _
  · exact inert_heapElement _

theorem inert_read (cells : Cells T) (i : ℕ) :
    Action.Inert (MonadExcept.ofExcept (Cells.read cells i) : Op T N T) := by
  rw [Cells.read]
  rcases cells[i]? with _ | _ | x
  · exact Action.inert_undefined _
  · exact Action.inert_undefined _
  · exact Action.inert_pure x

theorem inert_load (p : Place) : Action.Inert (load p : Op T N T) :=
  (inert_array _).bind fun _ => inert_read _ _

theorem exec_array_none {area : Area} (h : v.cellsOf area = none) : exec (array area) v =
    (.error (.undefined "access to a block that is not alive"), v) := by
  cases area with
  | stack => cases h
  | heap block =>
    have hblock : v.heap block = none := h
    rw [array, exec_get, hblock]
    rfl

theorem exec_load_cells {p : Place} {cells : Cells T} (h : v.cellsOf p.area = some cells) :
    exec (load p) v = (Cells.read cells p.index, v) := by
  rw [load, exec_ok (exec_array h), Cells.read]
  rcases cells[p.index]? with _ | _ | x
  · rfl
  · rfl
  · rfl

theorem load_congr {p : Place} (h : v'.cellsOf p.area = v.cellsOf p.area) :
    (exec (load p) v').1 = (exec (load p) v).1 := by
  rcases hcells : v.cellsOf p.area with _ | cells
  · have hload : ∀ w : Vec T N, w.cellsOf p.area = none → (exec (load p) w).1 =
        .error (.undefined "access to a block that is not alive") := by
      intro w hw
      rw [load, exec_error (exec_array_none hw)]
    rw [hload v hcells, hload v' (h.trans hcells)]
  · rw [exec_load_cells hcells, exec_load_cells (h.trans hcells)]

theorem store_cases (p : Place) (x : T) :
    (∃ why, exec (store p x) v = (.error (.undefined why), v)) ∨
    ∃ cells, v.cellsOf p.area = some cells ∧ p.index < cells.length ∧
      exec (store p x) v = (.ok (), v.withCells (cells.set p.index (some x)) p.area) := by
  rcases hcells : v.cellsOf p.area with _ | cells
  · exact .inl ⟨_, exec_error (exec_array_none hcells)⟩
  · by_cases hlt : p.index < cells.length
    · exact .inr ⟨cells, rfl, hlt, exec_store hcells hlt⟩
    · refine .inl ⟨"write past the end of an array", ?_⟩
      rw [store, exec_ok (exec_array hcells), Cells.write, if_neg hlt]
      rfl

theorem value_index {i : ℤ} {p : Place} (h : exec (index i) v = (.ok p, v)) :
    value v i = (exec (load p) v).1 := by
  rw [value, exec_ok h]

theorem exec_index_stack (h : v.vecSize ≤ N) (i : ℕ) :
    exec (index i) v = (.ok ⟨.stack, i⟩, v) := by
  rw [index, exec_get, if_pos h]
  exact exec_element i

theorem exec_index_heap {block : ℕ} (h : ¬ v.vecSize ≤ N) (hb : v.heapVec = some block) (i : ℕ) :
    exec (index i) v = (.ok ⟨.heap block, i⟩, v) := by
  rw [index, exec_get, if_neg h]
  exact exec_heapElement hb i

theorem heapElement_ok {i : ℤ} {p : Place} (h : exec (heapElement i) v = (.ok p, v)) :
    ∃ block, v.heapVec = some block ∧ p = ⟨.heap block, i.toNat⟩ := by
  rw [heapElement, exec_get] at h
  rcases hb : v.heapVec with _ | block
  · rw [hb] at h
    cases h
  · rw [hb] at h
    by_cases hi : i < 0
    · have hneg : exec (element (.heap block) i) v =
          (.error (.undefined "pointer before an array"), v) :=
        exec_error (exec_failIf_error hi)
      cases hneg.symm.trans h
    · have hpos : exec (element (.heap block) i) v = (.ok ⟨.heap block, i.toNat⟩, v) :=
        exec_ok (exec_failIf hi)
      cases hpos.symm.trans h
      exact ⟨block, rfl, rfl⟩

/-- What holds of a vector even after calls that threw. -/
structure Bounded (v : Vec T N) : Prop where
  fresh : ∀ b, v.heapVec = some b → b < v.fresh
  block : ∀ b cells, v.heapVec = some b → v.heap b = some cells → 0 ≤ v.vecCapacity →
    cells.length ≤ v.vecCapacity
  small : v.vecCapacity < 2 ^ 31

theorem construct_bounded : Bounded (construct : Vec T N) := by
  refine ⟨?_, ?_, ?_⟩
  · intro b hb
    cases hb
  · intro b cells hb
    cases hb
  · simp only [construct]
    exact toInt_lt N

theorem withCells_heap {area : Area} {cells cells' new : Cells T} {b : ℕ}
    (h : v.cellsOf area = some cells) (hlen : cells'.length = cells.length)
    (hnew : (v.withCells cells' area).heap b = some new) :
    ∃ old, v.heap b = some old ∧ new.length = old.length := by
  cases area with
  | stack => exact ⟨new, hnew, rfl⟩
  | heap block =>
    have hupdate : Function.update v.heap block (some cells') b = some new := hnew
    by_cases hbb : b = block
    · subst hbb
      rw [Function.update_self] at hupdate
      cases hupdate
      exact ⟨cells, h, hlen⟩
    · rw [Function.update_of_ne hbb] at hupdate
      exact ⟨new, hupdate, rfl⟩

theorem Bounded.withCells {area : Area} {cells cells' : Cells T} (hv : Bounded v)
    (h : v.cellsOf area = some cells) (hlen : cells'.length = cells.length) :
    Bounded (v.withCells cells' area) := by
  have hblock : ∀ b new, v.heapVec = some b → (v.withCells cells' area).heap b = some new →
      0 ≤ v.vecCapacity → new.length ≤ v.vecCapacity := by
    intro b new hb hnew hpos
    obtain ⟨old, hold, hnewlen⟩ := withCells_heap h hlen hnew
    rw [hnewlen]
    exact hv.block b old hb hold hpos
  cases area with
  | stack => exact ⟨hv.fresh, hblock, hv.small⟩
  | heap block => exact ⟨hv.fresh, hblock, hv.small⟩

theorem withCells_vecSize (area : Area) (cells : Cells T) :
    (v.withCells cells area).vecSize = v.vecSize := by
  cases area <;> rfl

theorem store_ensures (hv : Bounded v) (p : Place) (x : T) :
    Action.Ensures (store p x) v fun r t =>
      Bounded t ∧ t.vecSize = v.vecSize ∧ ∀ m, r ≠ .error (.exception m) := by
  rcases store_cases (v := v) p x with ⟨why, hexec⟩ | ⟨cells, hcells, _, hexec⟩
  · refine Action.ensures_of_exec hexec ⟨hv, rfl, ?_⟩
    intro m h
    cases h
  · refine Action.ensures_of_exec hexec
      ⟨hv.withCells hcells List.length_set, withCells_vecSize .., ?_⟩
    intro m h
    cases h

/-- What `grow` leaves after an allocation that threw. -/
def doubled (v : Vec T N) : Vec T N :=
  { v with vecCapacity := Int.bmod (2 * v.vecCapacity) (2 ^ 32) }

theorem bmod_small (c : ℤ) : Int.bmod c (2 ^ 32) < 2 ^ 31 := by
  rw [Int.bmod_def]
  omega

theorem Bounded.doubled (hv : Bounded v) (hpos : 0 ≤ v.vecCapacity) : Bounded v.doubled := by
  have hsmall := hv.small
  refine ⟨hv.fresh, ?_, bmod_small _⟩
  intro b cells hb hcells hcap
  have hlen := hv.block b cells hb hcells hpos
  have hdouble : v.doubled.vecCapacity = Int.bmod (2 * v.vecCapacity) (2 ^ 32) := rfl
  rw [hdouble, Int.bmod_def] at hcap ⊢
  omega

/-- How the loop of `grow` ends. Where it throws, it has read the element that it was about to
copy, and the cell for it is still as it was. -/
def LoopEnds (v : Vec T N) (block : ℕ) (cells : Cells T) (src : ℕ → Op T N Place) (n : ℕ)
    (r : Except Failure Unit) (t : Vec T N) : Prop :=
  ∃ filled, t = v.withBlock block filled ∧ filled.length = cells.length ∧
    (∀ j ≥ n, filled[j]? = cells[j]?) ∧
    ∀ m, r = .error (.exception m) → ∃ k < n, filled[k]? = cells[k]? ∧ ∃ p x,
      exec (src k) t = (.ok p, t) ∧ exec (load p) t = (.ok x, t)

theorem copyLoop_ends {src : ℕ → Op T N Place} {block : ℕ} {cells : Cells T}
    (hsrc : ∀ i, Action.Inert (src i)) (hb : v.heapVec = some block) (n : ℕ) :
    Action.Ensures (copyLoop faults src n) (v.withBlock block cells)
      (LoopEnds v block cells src n) := by
  induction n with
  | zero =>
    refine ⟨cells, rfl, rfl, fun _ _ => rfl, ?_⟩
    intro m h
    cases h
  | succ n ih =>
    refine Action.ensures_bind (ih.mono ?_)
    intro r t ⟨filled, ht, hlen, hrest, hthrown⟩
    have hlater : ∀ j ≥ n + 1, filled[j]? = cells[j]? := fun j hj => hrest j (by omega)
    cases r with
    | error e =>
      refine ⟨filled, ht, hlen, hlater, ?_⟩
      intro m h
      obtain ⟨k, hk, hcell⟩ := hthrown m h
      exact ⟨k, by omega, hcell⟩
    | ok u =>
      have hstop : ∀ why, LoopEnds v block cells src (n + 1) (.error (.undefined why)) t := by
        intro why
        refine ⟨filled, ht, hlen, hlater, ?_⟩
        intro m h
        cases h
      refine (hsrc n).ensures ?_ hstop
      intro p hp
      refine (inert_heapElement n).ensures ?_ hstop
      intro target htarget
      refine (inert_load p).ensures ?_ hstop
      intro x hx
      refine Action.ensures_failIf ?_ ?_
      · intro _
        refine ⟨filled, ht, hlen, hlater, ?_⟩
        intro m _
        exact ⟨n, by omega, hrest n (by omega), p, x, hp, hx⟩
      · intro _
        subst ht
        obtain ⟨b, hb', rfl⟩ := heapElement_ok htarget
        obtain rfl : block = b := Option.some_inj.mp (hb.symm.trans hb')
        rcases store_cases (v := v.withBlock block filled) ⟨.heap block, n⟩ x with
          ⟨why, hstore⟩ | ⟨old, hold, _, hstore⟩
        · exact Action.ensures_of_exec hstore (hstop why)
        · have hself : (v.withBlock block filled).cellsOf (.heap block) = some filled :=
            Function.update_self ..
          obtain rfl : filled = old := Option.some_inj.mp (hself.symm.trans hold)
          refine Action.ensures_of_exec hstore ⟨filled.set n (some x), ?_, ?_, ?_, ?_⟩
          · simp only [withCells, withBlock, Function.update_idem]
          · rw [List.length_set, hlen]
          · intro j hj
            rw [List.getElem?_set_ne (by omega), hlater j hj]
          · intro m h
            cases h

inductive Damage (v t : Vec T N) : Prop
  | construction (h : t.vecSize = v.vecSize + 1)
  | allocation (hle : N ≤ v.vecSize) (hfull : v.vecSize = v.vecCapacity) (ht : t = v.doubled)
  | copy (hle : N ≤ v.vecSize) (hfull : v.vecSize = v.vecCapacity) (k : ℕ)
      (filled : Cells T) (p : Place) (x : T) (hk : k < v.vecSize)
      (ht : t = (v.grown v.doubled.vecCapacity).withBlock v.fresh filled)
      (hlen : filled.length = v.doubled.vecCapacity) (hcell : filled[k]? = some none)
      (hp : exec (index k) v = (.ok p, v)) (hx : (exec (load p) v).1 = .ok x)

theorem newArray_cases (n : ℤ) :
    (∃ e, exec (newArray faults n) v = (.error e, v)) ∨
    0 ≤ n ∧ exec (newArray faults n) v = (.ok v.fresh, { v with
      heap := Function.update v.heap v.fresh (some (Cells.indeterminate n.toNat))
      fresh := v.fresh + 1 }) := by
  rw [newArray]
  by_cases hn : n < 0
  · exact .inl ⟨_, exec_error (exec_failIf_error hn)⟩
  · rw [exec_ok (exec_failIf hn)]
    by_cases hf : faults.allocation
    · exact .inl ⟨_, exec_error (exec_failIf_error hf)⟩
    · rw [exec_ok (exec_failIf hf)]
      exact .inr ⟨by omega, rfl⟩

theorem grow_cases : (∃ e, exec (grow faults) v = (.error e, v.doubled)) ∨
    0 ≤ v.doubled.vecCapacity ∧ exec (grow faults) v = exec (relocate faults v)
      ((v.grown v.doubled.vecCapacity).withBlock v.fresh
        (Cells.indeterminate v.doubled.vecCapacity.toNat)) := by
  rw [grow, exec_modify, exec_get]
  rcases newArray_cases v.doubled.vecCapacity with
    ⟨e, hnew⟩ | ⟨hpos, hnew⟩
  · exact .inl ⟨e, exec_error hnew⟩
  · exact .inr ⟨hpos, exec_ok hnew⟩

def oldElement (v : Vec T N) (i : ℕ) : Op T N Place :=
  if v.vecSize = N then element .stack i
  else match v.heapVec with
    | none => throw (.undefined "null pointer")
    | some old => element (.heap old) i

theorem relocate_eq : relocate faults v = (do
    copyLoop faults (oldElement v) v.vecSize.toNat
    deleteArray v.heapVec) := by
  let fill : (ℕ → Op T N Place) → Op T N Unit := fun src => do
    copyLoop faults src v.vecSize.toNat
    deleteArray v.heapVec
  by_cases hN : v.vecSize = N
  · rw [relocate, if_pos hN]
    exact congrArg fill (funext fun i => (if_pos hN).symm)
  · rw [relocate, if_neg hN]
    exact congrArg fill (funext fun i => (if_neg hN).symm)

theorem inert_oldElement (i : ℕ) : Action.Inert (oldElement v i : Op T N Place) := by
  rw [oldElement]
  split_ifs
  · exact inert_element _ _
  · cases v.heapVec with
    | none => exact Action.inert_undefined _
    | some old => exact inert_element _ _

theorem oldElement_ok {t : Vec T N} {k : ℕ} {p : Place} (hle : N ≤ v.vecSize)
    (h : exec (oldElement v k) t = (.ok p, t)) : exec (index k) v = (.ok p, v) ∧
      (p.area = .stack ∨ ∃ old, v.heapVec = some old ∧ p.area = .heap old) := by
  rw [oldElement] at h
  split_ifs at h with hN
  · rw [exec_element] at h
    cases h
    exact ⟨exec_index_stack (by omega) k, .inl rfl⟩
  · rcases hold : v.heapVec with _ | old
    · rw [hold] at h
      cases h
    · simp only [hold] at h
      rw [exec_element] at h
      cases h
      exact ⟨exec_index_heap (by omega) hold k, .inr ⟨old, rfl, rfl⟩⟩

theorem filled_bounded {filled : Cells T} (hlen : filled.length = v.doubled.vecCapacity) :
    Bounded ((v.grown v.doubled.vecCapacity).withBlock v.fresh filled) := by
  refine ⟨?_, ?_, bmod_small _⟩
  · intro b hb
    cases hb
    exact Nat.lt_succ_self _
  · intro b cells hb hcells _
    cases hb
    have hself : Function.update v.heap v.fresh (some filled) v.fresh = some cells := hcells
    rw [Function.update_self] at hself
    cases hself
    exact Int.le_of_eq hlen

theorem deleteArray_ensures (hv : Bounded v) (o : Option ℕ) :
    Action.Ensures (deleteArray o) v fun r t =>
      Bounded t ∧ t.vecSize = v.vecSize ∧ ∀ m, r ≠ .error (.exception m) := by
  have hquiet : ∀ m, (.ok () : Except Failure Unit) ≠ .error (.exception m) := by
    intro m h
    cases h
  cases o with
  | none => exact ⟨hv, rfl, hquiet⟩
  | some block =>
    refine (inert_array _).ensures ?_ ?_
    · intro cells hcells
      refine ⟨⟨hv.fresh, ?_, hv.small⟩, rfl, hquiet⟩
      intro b old hb hold hpos
      have hkept : Function.update v.heap block none b = some old := hold
      by_cases hbb : b = block
      · subst hbb
        rw [Function.update_self] at hkept
        cases hkept
      · rw [Function.update_of_ne hbb] at hkept
        exact hv.block b old hb hkept hpos
    · intro why
      refine ⟨hv, rfl, ?_⟩
      intro m h
      cases h

theorem Bounded.doubled_eq (hv : Bounded v) (hcap : 0 ≤ v.vecCapacity)
    (hpos : 0 ≤ v.doubled.vecCapacity) : v.doubled.vecCapacity = 2 * v.vecCapacity := by
  have hsmall := hv.small
  have hdouble : v.doubled.vecCapacity = Int.bmod (2 * v.vecCapacity) (2 ^ 32) := rfl
  rw [hdouble, Int.bmod_def] at hpos ⊢
  omega

theorem relocate_ensures (hv : Bounded v) (hfull : v.vecSize = v.vecCapacity)
    (hle : N ≤ v.vecSize) (hpos : 0 ≤ v.doubled.vecCapacity) :
    Action.Ensures (relocate faults v)
      ((v.grown v.doubled.vecCapacity).withBlock v.fresh
        (Cells.indeterminate v.doubled.vecCapacity.toNat)) fun r t =>
      Bounded t ∧ t.vecSize = v.vecSize ∧ ∀ m, r = .error (.exception m) → Damage v t := by
  have hdouble := hv.doubled_eq (by omega) hpos
  rw [relocate_eq]
  refine Action.ensures_bind
    ((copyLoop_ends (fun i => inert_oldElement (v := v) i) rfl v.vecSize.toNat).mono ?_)
  intro r t hends
  obtain ⟨filled, ht, hlen, _, hthrown⟩ := hends
  have hroom : (filled.length : ℤ) = v.doubled.vecCapacity := by
    rw [hlen, Cells.indeterminate, List.length_replicate]
    omega
  have hbounded := filled_bounded hroom
  subst ht
  cases r with
  | error e =>
    refine ⟨hbounded, rfl, ?_⟩
    intro m h
    obtain ⟨k, hk, hcell, p, x, hp, hx⟩ := hthrown m (by rw [Except.error.inj h])
    obtain ⟨hindex, harea⟩ := oldElement_ok hle hp
    have hcells : ((v.grown v.doubled.vecCapacity).withBlock v.fresh filled).cellsOf p.area =
        v.cellsOf p.area := by
      rcases harea with harea | ⟨old, hold, harea⟩
      · rw [harea]
        rfl
      · rw [harea]
        exact Function.update_of_ne (Nat.ne_of_lt (hv.fresh old hold)) _ _
    refine .copy hle hfull k filled p x (by omega) rfl hroom ?_ hindex ?_
    · rw [hcell, Cells.indeterminate, List.getElem?_replicate, if_pos (by omega)]
    · rw [← load_congr hcells, hx]
  | ok u =>
    refine (deleteArray_ensures hbounded _).mono ?_
    intro r t hend
    obtain ⟨ht, hsize, hquiet⟩ := hend
    exact ⟨ht, hsize, fun m h => (hquiet m h).elim⟩

theorem grow_ensures (hv : Bounded v) (hfull : v.vecSize = v.vecCapacity) (hle : N ≤ v.vecSize) :
    Action.Ensures (grow faults) v fun r t =>
      Bounded t ∧ t.vecSize = v.vecSize ∧ ∀ m, r = .error (.exception m) → Damage v t := by
  rcases grow_cases with ⟨e, hexec⟩ | ⟨hpos, hexec⟩
  · exact Action.ensures_of_exec hexec
      ⟨hv.doubled (by omega), rfl, fun _ _ => .allocation hle hfull rfl⟩
  · exact Action.ensures_congr hexec (relocate_ensures hv hfull hle hpos)

/-- The vector when `vec_size` is up and the constructor of the new element runs. -/
def counted (v : Vec T N) : Vec T N := { v with vecSize := v.vecSize + 1 }

theorem append_ensures {place : ℤ → Op T N Place} (hv : Bounded v)
    (hplace : ∀ i, Action.Inert (place i)) (harg : Action.Inert arg) :
    Action.Ensures (append faults place arg) v fun r t =>
      Bounded t ∧ ∀ m, r = .error (.exception m) → t.vecSize = v.vecSize + 1 := by
  have hstop : ∀ (w : Vec T N) why, Bounded w → Bounded w ∧ ∀ m,
      (.error (.undefined why) : Except Failure Unit) = .error (.exception m) →
        w.vecSize = v.vecSize + 1 := by
    intro w why hw
    refine ⟨hw, ?_⟩
    intro m h
    cases h
  have hw : Bounded v.counted := ⟨hv.fresh, hv.block, hv.small⟩
  by_cases hmax : v.vecSize = intMax
  · exact Action.ensures_of_exec (exec_error (exec_postIncrement_error hmax)) (hstop v _ hv)
  · refine Action.ensures_bind (Action.ensures_of_exec (exec_postIncrement hmax) ?_)
    refine (hplace _).ensures ?_ fun why => hstop _ why hw
    intro p _
    refine harg.ensures ?_ fun why => hstop _ why hw
    intro x _
    refine Action.ensures_failIf (fun _ => ⟨hw, fun _ _ => rfl⟩) fun _ => ?_
    refine (store_ensures hw p x).mono ?_
    intro r t ⟨ht, _, hquiet⟩
    exact ⟨ht, fun m h => (hquiet m h).elim⟩

theorem emplaceBack_ensures (hv : Bounded v) (harg : Action.Inert arg) :
    Action.Ensures (emplaceBack faults arg) v fun r t =>
      Bounded t ∧ ∀ m, r = .error (.exception m) → Damage v t := by
  by_cases hlt : v.vecSize < N
  · refine Action.ensures_congr (exec_emplaceBack_stack hlt)
      ((append_ensures hv (inert_element .stack) harg).mono ?_)
    intro r t ⟨ht, hsize⟩
    exact ⟨ht, fun m h => .construction (hsize m h)⟩
  · have hle : (N : ℤ) ≤ v.vecSize := by omega
    refine Action.ensures_congr (exec_emplaceBack_heap hle) ?_
    by_cases hfull : v.vecSize = v.vecCapacity
    · rw [if_pos hfull]
      refine Action.ensures_bind ((grow_ensures hv hfull hle).mono ?_)
      intro r w ⟨hw, hsize, hthrown⟩
      cases r with
      | error e => exact ⟨hw, fun m h => hthrown m (by rw [Except.error.inj h])⟩
      | ok u =>
        refine (append_ensures hw inert_heapElement harg).mono ?_
        intro r t ⟨ht, hsize'⟩
        refine ⟨ht, fun m h => .construction ?_⟩
        rw [hsize' m h, hsize]
    · rw [if_neg hfull]
      refine Action.ensures_bind (Action.ensures_of_exec (exec_pure ()) ?_)
      refine (append_ensures hv inert_heapElement harg).mono ?_
      intro r t ⟨ht, hsize⟩
      exact ⟨ht, fun m h => .construction (hsize m h)⟩

theorem body_bounded (hv : Bounded v) (c : Call T) :
    Action.Ensures c.body v fun _ t => Bounded t := by
  cases c with
  | emplaceBack faults passed =>
    cases passed with
    | value x => exact (emplaceBack_ensures hv (Action.inert_pure x)).mono fun _ _ h => h.1
    | element i =>
      refine (inert_index _).ensures ?_ fun _ => hv
      intro p _
      exact (emplaceBack_ensures hv (inert_load p)).mono fun _ _ h => h.1
  | assign i x =>
    refine (inert_index _).ensures ?_ fun _ => hv
    intro p _
    exact (store_ensures hv p x).mono fun _ _ h => h.1

theorem run_bounded {tr : List (Call T)} (hr : (calls T N).Run System.always tr v) :
    Bounded v := by
  refine System.run_invariant (P := fun _ v => Bounded v) ?_ ?_ hr
  · intro v hv
    subst hv
    exact construct_bounded
  · intro _ v c t _ hv _ ⟨_, r, hexec, _⟩
    have hensures := body_bounded hv c
    rwa [Action.Ensures, show Action.exec c.body v = _ from hexec] at hensures

theorem body_damage {passed : Argument T} {m : String} (hv : Bounded v)
    (hexec : exec (Call.emplaceBack faults passed).body v = (.error (.exception m), v')) :
    Damage v v' := by
  have hensures : Action.Ensures (Call.emplaceBack faults passed).body v fun r t =>
      r = .error (.exception m) → Damage v t := by
    cases passed with
    | value x => exact (emplaceBack_ensures hv (Action.inert_pure x)).mono fun _ _ h => h.2 m
    | element i =>
      refine (inert_index _).ensures ?_ ?_
      · intro p _
        exact (emplaceBack_ensures hv (inert_load p)).mono fun _ _ h => h.2 m
      · intro why h
        cases h
  rw [Action.Ensures, show Action.exec (Call.emplaceBack faults passed).body v = _ from hexec]
    at hensures
  exact hensures rfl

theorem append_undefined {place : ℤ → Op T N Place} (hplace : ∀ i, Action.Inert (place i))
    (harg : Action.Inert arg)
    (hstore : ∀ p x, exec (place v.vecSize) v.counted = (.ok p, v.counted) →
      exec arg v.counted = (.ok x, v.counted) →
      ∃ why, exec (store p x) v.counted = (.error (.undefined why), v.counted)) :
    ∃ why t, exec (append noFaults place arg) v = (.error (.undefined why), t) := by
  have hensures : Action.Ensures (append noFaults place arg) v fun r _ =>
      ∃ why, r = .error (.undefined why) := by
    by_cases hmax : v.vecSize = intMax
    · exact Action.ensures_of_exec (exec_error (exec_postIncrement_error hmax)) ⟨_, rfl⟩
    · refine Action.ensures_bind (Action.ensures_of_exec (exec_postIncrement hmax) ?_)
      refine (hplace _).ensures ?_ fun why => ⟨why, rfl⟩
      intro p hp
      refine harg.ensures ?_ fun why => ⟨why, rfl⟩
      intro x hx
      refine Action.ensures_failIf (fun h => by cases h) fun _ => ?_
      obtain ⟨why, hwhy⟩ := hstore p x hp hx
      exact Action.ensures_of_exec hwhy ⟨why, rfl⟩
  obtain ⟨why, hwhy⟩ := hensures
  exact ⟨why, _, Prod.ext hwhy rfl⟩

/-- The next element goes behind the end of the heap block, or there is no block. -/
structure NoRoom (v : Vec T N) : Prop where
  le : N ≤ v.vecSize
  ne : v.vecSize ≠ v.vecCapacity
  block : ∀ b cells, v.heapVec = some b → v.heap b = some cells → cells.length ≤ v.vecSize

theorem NoRoom.emplaceBack (hv : NoRoom v) (harg : Action.Inert arg) :
    ∃ why t, exec (emplaceBack noFaults arg) v = (.error (.undefined why), t) := by
  rw [exec_emplaceBack_heap hv.le, if_neg hv.ne, exec_ok (exec_pure ())]
  refine append_undefined inert_heapElement harg ?_
  intro p x hp _
  obtain ⟨b, hb, rfl⟩ := heapElement_ok hp
  rcases store_cases (v := v.counted) ⟨.heap b, v.vecSize.toNat⟩ x with
    hstore | ⟨cells, hcells, hlt, _⟩
  · exact hstore
  · have hlen := hv.block b cells hb hcells
    simp only at hlt
    omega

theorem Bounded.noRoom (hv : Bounded v) (hpos : 1 ≤ N) (hle : N ≤ v.vecSize)
    (hfull : v.vecSize = v.vecCapacity) : NoRoom v.doubled := by
  have hsmall := hv.small
  have hdouble : v.doubled.vecCapacity = Int.bmod (2 * v.vecCapacity) (2 ^ 32) := rfl
  refine ⟨hle, ?_, ?_⟩
  · rw [hdouble, Int.bmod_def, show v.doubled.vecSize = v.vecSize from rfl]
    omega
  · intro b cells hb hcells
    have hlen := hv.block b cells hb hcells (by omega)
    rwa [← hfull] at hlen

theorem value_lost {block k : ℕ} {cells : Cells T} (hN : N < v.vecSize)
    (hb : v.heapVec = some block) (hcells : v.heap block = some cells)
    (hcell : cells[k]? = some none) (x : T) : value v k ≠ .ok x := by
  rw [value_index (exec_index_heap (by omega) hb k),
    exec_load_cells (show v.cellsOf (.heap block) = some cells from hcells), Cells.read, hcell]
  intro h
  cases h

/-- At size `N` the elements are read on the stack until there is one more. -/
theorem Damage.not_unharmed [Inhabited T] (hv : Bounded v) (hpos : 1 ≤ N) (h : Damage v v') :
    ¬ Unharmed v v' := by
  intro hu
  have hsize := hu.size
  cases h with
  | construction h => omega
  | allocation hle hfull ht =>
    subst ht
    obtain ⟨why, t, hexec⟩ := (hv.noRoom hpos hle hfull).emplaceBack (Action.inert_pure default)
    exact (hu.later default _ t hexec).1 why rfl
  | copy hle hfull k filled p x hk ht hlen hcell hp hx =>
    have hvalue : value v' k = .ok x := by
      rw [hu.values k (by omega) hk, value_index hp, hx]
    have hdouble := hv.doubled_eq (by omega) (by omega)
    have hsmall : v.doubled.vecCapacity < 2 ^ 31 := bmod_small _
    have hb : v'.heapVec = some v.fresh := by rw [ht]; rfl
    have hcells : v'.heap v.fresh = some filled := by
      rw [ht]
      exact Function.update_self ..
    have hcap : v'.vecCapacity = v.doubled.vecCapacity := by rw [ht]; rfl
    by_cases hN : N < v.vecSize
    · exact value_lost (by omega) hb hcells hcell x hvalue
    · have hexec : exec (Vec.emplaceBack noFaults (pure default)) v' =
          exec (append noFaults heapElement (pure default)) v' := by
        rw [exec_emplaceBack_heap (by omega), if_neg (by omega), exec_ok (exec_pure ())]
      have hpush := exec_append_heap hb hcells (n := N) (by omega) (by omega) (by omega)
        (exec_pure default)
      have hold := ((hu.later default _ _ (hexec.trans hpush)).2 rfl).old k (by omega) (by omega)
      rw [hvalue] at hold
      have hcell' : (filled.set N (some default))[k]? = some none := by
        rwa [List.getElem?_set_ne (by omega)]
      exact value_lost (v := { v' with
        vecSize := N + 1
        heap := Function.update v'.heap v.fresh (some (filled.set N (some default))) })
        (Int.lt_succ N) hb (Function.update_self ..) hcell' x hold

theorem failures_harm [Inhabited T] {tr : List (Call T)} {passed : Argument T} {m : String}
    (hpos : 1 ≤ N) (hr : (calls T N).Run System.always tr v)
    (hexec : exec (Call.emplaceBack faults passed).body v = (.error (.exception m), v')) :
    ¬ Unharmed v v' :=
  (body_damage (run_bounded hr) hexec).not_unharmed (run_bounded hr) hpos

end calls

theorem failures_harm_sample :
    ¬ Unharmed construct ({ (construct : Vec ℕ 1) with vecSize := 1 } : Vec ℕ 1) := by
  have hexec : exec (Call.emplaceBack ⟨false, fun _ => false, true⟩ (.value 7)).body construct =
      (.error (.exception "constructor"),
        ({ (construct : Vec ℕ 1) with vecSize := 1 } : Vec ℕ 1)) := rfl
  exact failures_harm (Nat.le_refl 1) (.start rfl) hexec

/-- The first call that needs a heap block does not get one, and the next writes through a null
pointer. -/
theorem failures_harm_fails : ¬ ∀ N, 1 ≤ N → ∀ tr (v v' : Vec ℕ N) faults passed m,
    (calls ℕ N).Run System.always tr v →
    exec (Call.emplaceBack faults passed).body v = (.error (.exception m), v') →
    Unharmed v v' := by
  intro hall
  let v : Vec ℕ 1 := { (construct : Vec ℕ 1) with stackVec := [some 7], vecSize := 1 }
  have hstep : (calls ℕ 1).step construct (.emplaceBack noFaults (.value 7)) v := by
    refine ⟨trivial, .ok (), rfl, ?_⟩
    intro why h
    cases h
  have hexec : exec (Call.emplaceBack ⟨true, fun _ => false, false⟩ (.value 8)).body v =
      (.error (.exception "std::bad_alloc"), v.doubled) := rfl
  have hu := hall 1 (Nat.le_refl 1) _ _ _ _ _ _ (.step (.start rfl) trivial hstep) hexec
  exact (hu.later 9 _ _ rfl).1 "null pointer" rfl

end ModCpp.Vec
