import ModCpp.VecFaults
import Mathlib.Tactic.Ring

/-!
# How the vector grows

A block has room for twice as many elements as the storage before it, so the blocks double up to
the size of the vector, and only the last one is kept. The elements copied on the way are fewer
than two for each of those in the vector.
-/

namespace ModCpp.Vec
variable {T : Type} {N : ℕ} {v v' : Vec T N} {xs : List T} {cells : Cells T} {faults : Faults}

/-- The number of blocks made so far, the one in use and the capacity. -/
def storage (v : Vec T N) : ℕ × Option ℕ × ℤ := (v.fresh, v.heapVec, v.vecCapacity)

section keeps

theorem keeps_setArray (area : Area) :
    Action.Keeps storage (setArray area cells : Op T N Unit) := by
  cases area with
  | stack => exact Action.keeps_modify fun _ => rfl
  | heap block => exact Action.keeps_modify fun _ => rfl

theorem keeps_store (p : Place) (x : T) : Action.Keeps storage (store p x : Op T N Unit) := by
  apply Action.Keeps.bind
  · exact (inert_array p.area).keeps
  · intro cells s
    by_cases hlt : p.index < cells.length
    · rw [Cells.write_of hlt]
      exact keeps_setArray p.area s
    · rw [Cells.write, if_neg hlt]
      rfl

theorem keeps_copyLoop {src : ℕ → Op T N Place} (hsrc : ∀ i, Action.Inert (src i)) (n : ℕ) :
    Action.Keeps storage (copyLoop faults src n) := by
  induction n with
  | zero => exact fun _ => rfl
  | succ n ih =>
    apply ih.bind
    intro _
    apply (hsrc n).keeps.bind
    intro source
    apply (inert_heapElement n).keeps.bind
    intro target
    apply (inert_load source).keeps.bind
    intro x
    apply (Action.keeps_failIf _ _).bind
    intro _
    exact keeps_store target x

theorem keeps_deleteArray (o : Option ℕ) :
    Action.Keeps storage (deleteArray o : Op T N Unit) := by
  cases o with
  | none => exact fun _ => rfl
  | some block =>
    apply (inert_array _).keeps.bind
    intro _
    exact Action.keeps_modify fun _ => rfl

theorem keeps_relocate (v : Vec T N) : Action.Keeps storage (relocate faults v) := by
  rw [relocate_eq]
  apply (keeps_copyLoop inert_oldElement v.vecSize.toNat).bind
  intro _
  exact keeps_deleteArray v.heapVec

theorem keeps_postIncrement : Action.Keeps storage (postIncrement : Op T N ℤ) := by
  intro s
  by_cases hmax : s.vecSize = intMax
  · rw [show Action.exec postIncrement s = _ from exec_postIncrement_error hmax]
  · rw [show Action.exec postIncrement s = _ from exec_postIncrement hmax]
    rfl

theorem keeps_append {place : ℤ → Op T N Place} {arg : Op T N T}
    (hplace : ∀ i, Action.Inert (place i)) (harg : Action.Inert arg) :
    Action.Keeps storage (append faults place arg) := by
  apply keeps_postIncrement.bind
  intro size
  apply (hplace size).keeps.bind
  intro p
  apply harg.keeps.bind
  intro x
  apply (Action.keeps_failIf _ _).bind
  intro _
  exact keeps_store p x

theorem keeps_assign (i : ℤ) (x : T) : Action.Keeps storage (assign i x : Op T N Unit) := by
  apply (inert_index i).keeps.bind
  intro p
  exact keeps_store p x

end keeps

section copies

/-- Copy assignment number `k` of a call throws. -/
def throwingAt (k : ℕ) : Faults := ⟨false, fun i => i = k, false⟩

def callUnder (faults : Faults) : Event T → Op T N Unit
  | .emplaceBack x => emplaceBack faults (pure x)
  | .assign i x => assign i x

/-- The copy assignments that a call makes, told by the numbers at which it can be made to throw. -/
def MakesCopies (v : Vec T N) (e : Event T) (n : ℕ) : Prop :=
  ∀ k, (exec (callUnder (throwingAt k) e) v).1 = .error (.exception "copy assignment") ↔ k < n

theorem copyLoop_congr {faults' : Faults} {src : ℕ → Op T N Place} {n : ℕ}
    (h : ∀ i < n, faults.copy i = faults'.copy i) :
    copyLoop faults src n = copyLoop faults' src n := by
  induction n with
  | zero => rfl
  | succ n ih => rw [copyLoop, copyLoop, ih fun i hi => h i (by omega), h n (by omega)]

theorem copyLoop_throwingAt {src : ℕ → Op T N Place} {n k : ℕ} (h : n ≤ k) :
    copyLoop (throwingAt k) src n = copyLoop noFaults src n := by
  apply copyLoop_congr
  intro i hi
  simp only [throwingAt, noFaults, decide_eq_false_iff_not]
  omega

theorem exec_copyLoop_throws {src : ℕ → Op T N Place} {block n k : ℕ} (hb : v.heapVec = some block)
    (hsrc : ∀ i (h : i < xs.length) cells, ∃ p,
      exec (src i) (v.withBlock block cells) = (.ok p, v.withBlock block cells) ∧
      exec (load p) (v.withBlock block cells) = (.ok xs[i], v.withBlock block cells))
    (hk : k < n) (hn : n ≤ xs.length) (hc : n ≤ cells.length) :
    ∃ t, exec (copyLoop (throwingAt k) src n) (v.withBlock block cells) =
      (.error (.exception "copy assignment"), t) := by
  induction n with
  | zero => omega
  | succ n ih =>
    by_cases hlt : k < n
    · obtain ⟨t, hexec⟩ := ih hlt (by omega) (by omega)
      exact ⟨t, by rw [copyLoop, exec_error hexec]⟩
    · obtain rfl : k = n := by omega
      have hready : k ≤ cells.length := by omega
      obtain ⟨filled, hexec, -, -⟩ := exec_copyLoop hb hsrc (n := k) (by omega) hready
      obtain ⟨p, hp, hload⟩ := hsrc k hn filled
      have hblock : (v.withBlock block filled).heapVec = some block := hb
      refine ⟨v.withBlock block filled, ?_⟩
      rw [copyLoop, copyLoop_throwingAt le_rfl, exec_ok hexec, exec_ok hp,
        exec_ok (exec_heapElement hblock k), exec_ok hload]
      exact exec_error (exec_failIf_error (by simp [throwingAt]))

theorem Represents.exec_oldElement (h : Represents v xs) (hle : N ≤ xs.length) (cap : ℤ) (i : ℕ)
    (hi : i < xs.length) (filled : Cells T) : ∃ p,
    exec (oldElement v i) ((v.grown cap).withBlock v.fresh filled) =
      (.ok p, (v.grown cap).withBlock v.fresh filled) ∧
    exec (load p) ((v.grown cap).withBlock v.fresh filled) =
      (.ok xs[i], (v.grown cap).withBlock v.fresh filled) := by
  have hsize := h.size
  cases h.stored with
  | stack hle' hs hnone hcap =>
    rw [oldElement, if_pos (by omega)]
    exact ⟨⟨.stack, i⟩, exec_element i, exec_load rfl hs hi⟩
  | heap hlt hheap =>
    obtain ⟨old, cells, hold, hcells, hs, -⟩ := hheap.block
    have hne : old ≠ v.fresh := Nat.ne_of_lt (h.shaped.fresh old hold)
    have hkept : ((v.grown cap).withBlock v.fresh filled).cellsOf (.heap old) = some cells :=
      (Function.update_of_ne hne _ _).trans hcells
    rw [oldElement, if_neg (by omega), hold]
    exact ⟨⟨.heap old, i⟩, exec_element i, exec_load hkept hs hi⟩

theorem newArray_throwingAt (k : ℕ) (n : ℤ) :
    (newArray (throwingAt k) n : Op T N ℕ) = newArray noFaults n := rfl

theorem exec_grow_throwing {cap : ℕ} (hcap : v.vecCapacity = cap) (hfit : 2 * cap < 2 ^ 31)
    (k : ℕ) : exec (grow (throwingAt k)) v = exec (relocate (throwingAt k) v)
      ((v.grown (2 * cap : ℕ)).withBlock v.fresh (Cells.indeterminate (2 * cap))) := by
  rw [grow, exec_modify, exec_get]
  simp only [hcap, bmod_double hfit]
  rw [newArray_throwingAt, exec_ok (exec_newArray (2 * cap)), exec_modify]
  rfl

theorem Represents.grow_throws (h : Represents v xs) (hle : N ≤ xs.length)
    (hcap : v.vecCapacity = xs.length) (hfit : 2 * xs.length < 2 ^ 31) (k : ℕ) :
    (k < xs.length → ∃ t, exec (grow (throwingAt k)) v =
      (.error (.exception "copy assignment"), t)) ∧
    (xs.length ≤ k → exec (grow (throwingAt k)) v = exec (grow noFaults) v) := by
  have hsize : v.vecSize.toNat = xs.length := by rw [h.size, Int.toNat_natCast]
  have hroom : xs.length ≤ (Cells.indeterminate (2 * xs.length) : Cells T).length := by
    rw [Cells.indeterminate, List.length_replicate]
    omega
  constructor
  · intro hk
    obtain ⟨t, hloop⟩ := exec_copyLoop_throws (n := xs.length)
      (show (v.grown (2 * xs.length : ℕ)).heapVec = some v.fresh from rfl)
      (h.exec_oldElement hle _) hk le_rfl hroom
    refine ⟨t, ?_⟩
    rw [exec_grow_throwing hcap hfit, relocate_eq, hsize, exec_error hloop]
  · intro hk
    rw [exec_grow_throwing hcap hfit, exec_grow hcap hfit, relocate_eq, relocate_eq, hsize,
      copyLoop_throwingAt hk]

end copies

section growth
variable {size g : ℕ}

structure Grown (v : Vec T N) (size g : ℕ) : Prop where
  storage : v.storage = (g, if g = 0 then none else some (g - 1), ((N * 2 ^ g : ℕ) : ℤ))
  small : N * 2 ^ g < 2 ^ 31
  room : size ≤ N * 2 ^ g
  used : g ≠ 0 → N * 2 ^ (g - 1) < size

theorem Grown.capacity (h : Grown v size g) : v.vecCapacity = ((N * 2 ^ g : ℕ) : ℤ) :=
  congrArg (fun s => s.2.2) h.storage

theorem Grown.fresh (h : Grown v size g) : v.fresh = g := congrArg Prod.fst h.storage

theorem construct_grown (hN : N < 2 ^ 31) : Grown (construct : Vec T N) 0 0 := by
  refine ⟨?_, by omega, Nat.zero_le _, fun h => absurd rfl h⟩
  rw [Vec.storage, construct, toInt_of_lt hN, pow_zero, Nat.mul_one]
  rfl

theorem exec_emplaceBack_room (hlt : v.vecSize < v.vecCapacity) :
    ∃ place : ℤ → Op T N Place, (∀ i, Action.Inert (place i)) ∧ ∀ faults arg,
      exec (emplaceBack faults arg) v = exec (append faults place arg) v := by
  by_cases hstack : v.vecSize < N
  · exact ⟨element .stack, inert_element .stack, fun _ _ => exec_emplaceBack_stack hstack⟩
  · refine ⟨heapElement, inert_heapElement, fun faults arg => ?_⟩
    rw [exec_emplaceBack_heap (by omega), if_neg (by omega), exec_ok (exec_pure ())]

theorem copies_zero {e : Event T}
    (h : ∀ k, exec (callUnder (throwingAt k) e) v = (.ok (), v')) : MakesCopies v e 0 := by
  intro k
  rw [h k]
  constructor
  · intro hok
    cases hok
  · intro hlt
    omega

theorem Grown.push_room {x : T} (hg : Grown v size g) (hsize : v.vecSize = size)
    (hlt : size < N * 2 ^ g) (hexec : exec (emplaceBack noFaults (pure x)) v = (.ok (), v')) :
    MakesCopies v (.emplaceBack x) 0 ∧ Grown v' (size + 1) g := by
  have hcap := hg.capacity
  obtain ⟨place, hplace, hcall⟩ := exec_emplaceBack_room (v := v) (by omega)
  have hkept : (exec (append noFaults place (pure x)) v).2.storage = v.storage :=
    keeps_append hplace (Action.inert_pure x) v
  rw [hcall] at hexec
  rw [hexec] at hkept
  constructor
  · have hall : ∀ k, exec (callUnder (throwingAt k) (.emplaceBack x)) v = (.ok (), v') := by
      intro k
      rw [callUnder, hcall]
      exact hexec
    exact copies_zero hall
  · exact ⟨hkept.trans hg.storage, hg.small, hlt, fun hne => (hg.used hne).trans_le (by omega)⟩

theorem Represents.fits_of_push {x : T} (h : Represents v xs) (hle : N ≤ xs.length)
    (hsmall : xs.length < 2 ^ 31) (hfull : v.vecSize = v.vecCapacity)
    (hexec : exec (emplaceBack noFaults (pure x)) v = (.ok (), v')) : 2 * xs.length < 2 ^ 31 := by
  by_contra hlarge
  have herror : exec (emplaceBack noFaults (pure x)) v = _ :=
    h.push_error hle hsmall (by omega) hfull
  rw [hexec] at herror
  cases herror

theorem Grown.push_full {x : T} (h : Represents v xs) (hg : Grown v xs.length g)
    (hfull : xs.length = N * 2 ^ g) (hpos : 1 ≤ N)
    (hexec : exec (emplaceBack noFaults (pure x)) v = (.ok (), v')) :
    MakesCopies v (.emplaceBack x) xs.length ∧ Grown v' (xs.length + 1) (g + 1) := by
  have hsize := h.size
  have hcap : v.vecCapacity = xs.length := by rw [hg.capacity, hfull]
  have hle : N ≤ xs.length := by
    rw [hfull]
    exact Nat.le_mul_of_pos_right N (Nat.two_pow_pos g)
  have hsmall : xs.length < 2 ^ 31 := by
    rw [hfull]
    exact hg.small
  have hheap : ∀ faults, exec (emplaceBack faults (pure x)) v =
      exec (grow faults >>= fun _ => append faults heapElement (pure x)) v := by
    intro faults
    rw [exec_emplaceBack_heap (by omega), if_pos (by omega)]
  have hfit := h.fits_of_push hle hsmall (by omega) hexec
  rw [hheap] at hexec
  obtain ⟨_, w, hgrow, hpush⟩ := Action.exists_of_exec_bind hexec
  constructor
  · intro k
    obtain ⟨hthrows, hpasses⟩ := h.grow_throws hle hcap hfit k
    rw [callUnder, hheap]
    by_cases hk : k < xs.length
    · obtain ⟨t, ht⟩ := hthrows hk
      rw [exec_error ht]
      exact iff_of_true rfl hk
    · have hsame : exec (grow (throwingAt k)) v = (.ok (), w) := (hpasses (by omega)).trans hgrow
      have hend : exec (append (throwingAt k) heapElement (pure x)) w = (.ok (), v') := hpush
      rw [exec_ok hsame, hend]
      refine iff_of_false ?_ hk
      intro hthrown
      cases hthrown
  · have hmoved : (exec (grow noFaults) v).2.storage = (v.grown (2 * xs.length : ℕ)).storage := by
      rw [exec_grow hcap hfit]
      exact keeps_relocate v _
    have hkept : (exec (append noFaults heapElement (pure x)) w).2.storage = w.storage :=
      keeps_append inert_heapElement (Action.inert_pure x) w
    rw [show exec (grow noFaults) v = _ from hgrow] at hmoved
    rw [show exec (append noFaults heapElement (pure x)) w = _ from hpush] at hkept
    have hdouble : 2 * xs.length = N * 2 ^ (g + 1) := by
      rw [hfull, pow_succ]
      ring
    refine ⟨(hkept.trans hmoved).trans ?_, by omega, by omega, fun _ => ?_⟩
    · rw [← hdouble, ← hg.fresh]
      rfl
    · rw [Nat.add_sub_cancel, ← hfull]
      exact Nat.lt_succ_self _

theorem Represents.block_length {b : ℕ} (h : Represents v xs) (hb : v.heap b = some cells) :
    cells.length = v.vecCapacity := by
  have hown := (h.shaped.heap b).mp (Option.isSome_iff_exists.mpr ⟨cells, hb⟩)
  cases h.stored with
  | stack hle hs hnone hcap =>
    rw [hnone] at hown
    cases hown
  | heap hlt hheap =>
    obtain ⟨c, cells', hc, hcells, -, hlen⟩ := hheap.block
    obtain rfl : c = b := Option.some_inj.mp (hc.symm.trans hown)
    rwa [← Option.some_inj.mp (hcells.symm.trans hb)]

theorem Grown.push_iff {x : T} (h : Represents v xs) (hg : Grown v xs.length g) (hpos : 1 ≤ N) :
    (∃ v', exec (emplaceBack noFaults (pure x)) v = (.ok (), v')) ↔
      xs.length < N * 2 ^ g ∨ N * 2 ^ (g + 1) < 2 ^ 31 := by
  have hsize := h.size
  have hcap := hg.capacity
  have hroom := hg.room
  have hsmall := hg.small
  have hle : N ≤ N * 2 ^ g := Nat.le_mul_of_pos_right N (Nat.two_pow_pos g)
  have hdouble : N * 2 ^ (g + 1) = 2 * (N * 2 ^ g) := by ring
  constructor
  · intro ⟨v', hexec⟩
    by_contra hno
    have hfit := h.fits_of_push (by omega) (by omega) (by omega) hexec
    omega
  · intro hcan
    cases h.phase (by omega) with
    | stack hlt hcount =>
      obtain ⟨v', hexec, -⟩ := h.push_stack hlt hcount (exec_pure x)
      exact ⟨v', hexec⟩
    | overflow hlt hmax =>
      rw [intMax] at hmax
      omega
    | moved hlen hfit =>
      obtain ⟨v', hexec, -⟩ := h.push_moved hlen hpos hfit fun _ _ => exec_pure x
      exact ⟨v', hexec⟩
    | room hlt hfree =>
      obtain ⟨v', hexec, -⟩ := h.push_room hlt hfree (exec_pure x)
      exact ⟨v', hexec⟩
    | grown hlt hfull hfit =>
      obtain ⟨_, _, _, hpush⟩ := h.push_grown hlt hfull hfit
      obtain ⟨v', hexec, -⟩ := (hpush (pure x)).2 x (exec_pure x)
      exact ⟨v', hexec⟩
    | large hle' hlarge hfull => omega

end growth

section runs
variable {g : ℕ} {tr : List (Event T)}

/-- Vectors with the number of copy assignments that `grow` has made. -/
def tallied (T : Type) (N : ℕ) : System (Vec T N × ℕ) (Event T) where
  init s := s = (construct, 0)
  step s e s' := (vecs T N).step s.1 e s'.1 ∧ ∃ n, MakesCopies s.1 e n ∧ s'.2 = s.2 + n

theorem next_eq_ok {e : Event T} : next v e = .ok v' ↔ exec (call e) v = (.ok (), v') := by
  rw [next]
  rcases exec (call e) v with ⟨f | u, w⟩
  · simp
  · simp

theorem run_grown (hN : N < 2 ^ 31) (hpos : 1 ≤ N) (hr : (vecs T N).Run System.always tr v) :
    ∃ g, Grown v (elements tr).length g ∧
      (tallied T N).Run System.always tr (v, N * (2 ^ g - 1)) := by
  induction hr with
  | start hi =>
    cases hi
    exact ⟨0, construct_grown hN, .start rfl⟩
  | @step tr v v' e hr _ hstep ih =>
    obtain ⟨g, hg, hcost⟩ := ih
    have hv := run_represents hN hpos hr
    have hexec := next_eq_ok.mp hstep.2
    rw [elements, history_concat]
    cases e with
    | emplaceBack x =>
      have hlen : (putLast (elements tr) (.emplaceBack x)).length = (elements tr).length + 1 :=
        List.length_append
      rcases hg.room.lt_or_eq with hlt | hfull
      · obtain ⟨hcopies, hgrown⟩ := hg.push_room hv.size hlt hexec
        exact ⟨g, hlen ▸ hgrown, hcost.step trivial ⟨hstep, 0, hcopies, rfl⟩⟩
      · obtain ⟨hcopies, hgrown⟩ := hg.push_full hv hfull hpos hexec
        refine ⟨g + 1, hlen ▸ hgrown, hcost.step trivial ⟨hstep, _, hcopies, ?_⟩⟩
        rw [hfull, ← Nat.mul_add, pow_succ]
        have hone := Nat.two_pow_pos g
        exact congrArg (N * ·) (by omega)
    | assign i x =>
      have hlen : (putLast (elements tr) (.assign i x)).length = (elements tr).length :=
        List.length_set
      have hkept := keeps_assign i x v
      rw [show Action.exec (assign (i : ℤ) x) v = _ from hexec] at hkept
      refine ⟨g, hlen ▸ ⟨hkept.trans hg.storage, hg.small, hg.room, hg.used⟩,
        hcost.step trivial ⟨hstep, 0, copies_zero fun _ => hexec, rfl⟩⟩

/-- The capacity is the least `N * 2 ^ g` that is enough, there is one block for it from the first
growth on, and the copies on the way were at most two for each element. The next element finds
no place exactly if the capacity is used up and twice as much is no `int`. -/
theorem growth_amortised (hN : N < 2 ^ 31) (hpos : 1 ≤ N)
    (hr : (vecs T N).Run System.always tr v) : ∃ g, v.vecCapacity = ((N * 2 ^ g : ℕ) : ℤ) ∧
      (elements tr).length ≤ N * 2 ^ g ∧ (g ≠ 0 → N * 2 ^ (g - 1) < (elements tr).length) ∧
      v.fresh = g ∧ (∀ b, (v.heap b).isSome ↔ b + 1 = g) ∧
      (∀ b cells, v.heap b = some cells → cells.length = N * 2 ^ g) ∧
      (tallied T N).Run System.always tr (v, N * (2 ^ g - 1)) ∧
      N * (2 ^ g - 1) ≤ 2 * (elements tr).length ∧
      ∀ x, (∃ v', next v (.emplaceBack x) = .ok v') ↔
        (elements tr).length < N * 2 ^ g ∨ N * 2 ^ (g + 1) < 2 ^ 31 := by
  obtain ⟨g, hg, hcost⟩ := run_grown hN hpos hr
  have hv := run_represents hN hpos hr
  refine ⟨g, hg.capacity, hg.room, hg.used, hg.fresh, fun b => ?_, fun b cells hb => ?_, hcost, ?_,
    fun x => ?_⟩
  · have hblock : v.heapVec = if g = 0 then none else some (g - 1) :=
      congrArg (fun s => s.2.1) hg.storage
    rw [hv.shaped.heap b, hblock]
    split_ifs with hzero
    · simp [hzero]
    · rw [Option.some_inj]
      omega
  · have hcap := hg.capacity
    have hlen := hv.block_length hb
    omega
  · cases g with
    | zero => simp
    | succ g =>
      have hused := hg.used (Nat.succ_ne_zero g)
      rw [Nat.add_sub_cancel] at hused
      calc N * (2 ^ (g + 1) - 1) ≤ N * 2 ^ (g + 1) := Nat.mul_le_mul_left N (Nat.sub_le ..)
        _ = 2 * (N * 2 ^ g) := by ring
        _ ≤ 2 * (elements tr).length := by omega
  · rw [← hg.push_iff hv hpos (x := x)]
    exact exists_congr fun v' => next_eq_ok

instance (v : Vec T N) : DecidablePred v.Admissible
  | .emplaceBack _ => inferInstanceAs (Decidable True)
  | .assign _ _ => inferInstanceAs (Decidable (_ < _))

/-- Three elements in a vector with room for two: one growth, which copies two. -/
theorem growth_amortised_sample : ∃ tr, ∃ v : Vec ℕ 2, (vecs ℕ 2).Run System.always tr v ∧
    v.fresh = 1 ∧ ∃ g, v.vecCapacity = ((2 * 2 ^ g : ℕ) : ℤ) ∧ v.fresh = g ∧
      (tallied ℕ 2).Run System.always tr (v, 2 * (2 ^ g - 1)) := by
  have hr : ∃ v : Vec ℕ 2, (vecs ℕ 2).Run System.always
      [.emplaceBack 5, .emplaceBack 6, .emplaceBack 7] v ∧ v.fresh = 1 :=
    ⟨_, System.run_of_exec System.guardedExec_step rfl rfl, rfl⟩
  obtain ⟨v, hr, hfresh⟩ := hr
  obtain ⟨g, hcap, -, -, hg, -, -, hcost, -⟩ := growth_amortised (by decide) (by decide) hr
  exact ⟨_, v, hr, hfresh, g, hcap, hg, hcost⟩

end runs

end ModCpp.Vec
