import ModCpp.CharStringSubstr

/-!
# Memory and equality of character strings

The length that a move assignment loses makes a string look empty but leaves its buffer where it
is, so no operation but `substr` ever goes wrong on memory. Over strings that come about in any
way `operator==` compares what `operator<<` prints.
-/

namespace ModCpp.CharString
variable {σ ι : Type} {s s' r : Program σ ι} {texts : Texts σ} {x y : σ}
  {v u w : CharString ι} {m : Buffers ι} {t : List UInt8} {block : ι}

/-- `data[i]`. -/
def element (s : CharString ι) (m : Buffers ι) (i : ℕ) : Except Failure UInt8 :=
  match s.data with
  | none => throw (.undefined "null pointer")
  | some block => do
    let cells ← m.array block
    Cells.read cells i

/-- The loop of `operator==` from `i` on, with `rest` rounds to go. -/
def equalFrom (s rhs : CharString ι) (m : Buffers ι) (i : ℕ) : ℕ → Except Failure Bool
  | 0 => pure true
  | rest + 1 => do
    let c ← s.element m i
    let d ← rhs.get m i
    if c ≠ d then pure false else equalFrom s rhs m (i + 1) rest

/-- `string::operator==`. -/
def equal (s rhs : CharString ι) (m : Buffers ι) : Except Failure Bool :=
  if s.size ≠ rhs.size then pure false else equalFrom s rhs m 0 (toInt s.size).toNat

/-- The characters that `operator<<` writes from `i` on, with `rest` rounds to go. -/
def printFrom (rhs : CharString ι) (m : Buffers ι) (i : ℕ) : ℕ → Except Failure (List UInt8)
  | 0 => pure []
  | rest + 1 => do
    let c ← rhs.element m i
    let written ← printFrom rhs m (i + 1) rest
    pure (c :: written)

/-- `operator<<`. -/
def print (rhs : CharString ι) (m : Buffers ι) : Except Failure (List UInt8) :=
  printFrom rhs m 0 (toInt rhs.size).toNat

structure Reads (m : Buffers ι) (v : CharString ι) (t : List UInt8) : Prop where
  size : v.size = t.length
  small : t.length < 2 ^ 31
  element : ∀ i (h : i < t.length), v.element m i = .ok t[i]
  get : ∀ i (h : i < t.length), v.get m i = .ok t[i]

theorem Holds.reads (hv : Holds m v t) : Reads m v t := by
  refine ⟨hv.len, hv.small, fun i hi => ?_, fun i hi => hv.get hi⟩
  obtain ⟨b, hd, -⟩ := hv.index hi
  rw [CharString.element, hd]
  exact (ok_bind (array_of (hv.chars b hd))).trans (Cells.read_map hi)

theorem Shortened.reads (h : Shortened v w) (hold : Holds m w t) : ∃ t', Reads m v t' := by
  by_cases hlen : v.strLen = 0
  · exact ⟨[], hlen, by decide, fun i hi => absurd hi (Nat.not_lt_zero i),
      fun i hi => absurd hi (Nat.not_lt_zero i)⟩
  · obtain rfl := h.eq hlen
    exact ⟨t, hold.reads⟩

theorem Reads.equalFrom {t' : List UInt8} (hv : Reads m v t) (hu : Reads m u t')
    (hlen : t.length = t'.length) {rest i : ℕ} (hi : i + rest = t.length) :
    CharString.equalFrom v u m i rest = .ok (decide (t.drop i = t'.drop i)) := by
  induction rest generalizing i with
  | zero =>
    rw [CharString.equalFrom, List.drop_eq_nil_of_le (by omega), List.drop_eq_nil_of_le (by omega)]
    rfl
  | succ rest ih =>
    have hlt : i < t.length := by omega
    have hlt' : i < t'.length := by omega
    rw [CharString.equalFrom, ok_bind (hv.element i hlt), ok_bind (hu.get i hlt'),
      List.drop_eq_getElem_cons hlt, List.drop_eq_getElem_cons hlt']
    split_ifs with hne
    · simp only [List.cons.injEq, hne, false_and, decide_false]
      rfl
    · rw [ih (by omega)]
      simp only [List.cons.injEq, not_not.mp hne, true_and]

theorem Reads.equal {t' : List UInt8} (hv : Reads m v t) (hu : Reads m u t') :
    v.equal u m = .ok (decide (t = t')) := by
  have hsmall := hv.small
  rw [CharString.equal, hv.size, hu.size]
  split_ifs with hne
  · have hneq : t ≠ t' := fun he => hne (congrArg List.length he)
    rw [decide_eq_false hneq]
    rfl
  · rw [toInt_of_lt hsmall, Int.toNat_natCast]
    exact hv.equalFrom hu (not_not.mp hne) (Nat.zero_add _)

theorem Reads.printFrom (hv : Reads m v t) {rest i : ℕ} (hi : i + rest = t.length) :
    CharString.printFrom v m i rest = .ok (t.drop i) := by
  induction rest generalizing i with
  | zero =>
    rw [CharString.printFrom, List.drop_eq_nil_of_le (by omega)]
    rfl
  | succ rest ih =>
    have hlt : i < t.length := by omega
    rw [CharString.printFrom, ok_bind (hv.element i hlt), ok_bind (ih (by omega)),
      List.drop_eq_getElem_cons hlt]
    rfl

theorem Reads.print (hv : Reads m v t) : v.print m = .ok t := by
  have hsmall := hv.small
  rw [CharString.print, hv.size, toInt_of_lt hsmall, Int.toNat_natCast]
  exact hv.printFrom (Nat.zero_add _)

theorem Shortens.owned_eq (h : Shortens s r) (x : σ) : s.owned x = r.owned x := by
  have hrel := h.var x
  rw [Program.owned, Program.owned]
  generalize s.var x = o at hrel
  generalize r.var x = o' at hrel
  cases hrel with
  | none => rfl
  | some hvw => exact hvw.data

variable [DecidableEq σ] [DecidableEq ι] {tr : List (SliceEvent σ ι)}

theorem exists_bind {α β : Type} {a : α} {op : Except Failure α} {f : α → Except Failure β}
    (h : op = .ok a) (hf : ∃ b, f a = .ok b) : ∃ b, op >>= f = .ok b := by
  rw [ok_bind h]
  exact hf

theorem construct_cases {rest : Cells UInt8} (h0 : 0 ∉ t) :
    (∃ made, construct m (cString t rest) block = .ok made) ∨
      ∃ what, construct m (cString t rest) block = .error (.exception what) := by
  have hlt := toInt_lt t.length
  have hle := toInt_le t.length
  rw [construct, ok_bind (strlen_cString h0)]
  generalize toInt t.length = n at hlt hle
  by_cases hneg : n < 0
  · refine .inr ⟨"std::bad_array_new_length", ?_⟩
    simp only [Buffers.newArray, if_pos hneg]
    rfl
  · obtain ⟨n, rfl⟩ := Int.eq_ofNat_of_zero_le (Int.not_lt.mp hneg)
    simp only [Int.toNat_natCast]
    exact .inl (exists_bind (newArray_of n)
      (exists_bind (fill_first (by omega) read_cString) ⟨_, rfl⟩))

theorem Shortens.copyAssign_ok (h : Shortens s r) (hr : Represents r texts)
    (ha : s.Admissible (.copyAssign x y block)) :
    ∃ s', s.exec (.copyAssign x y block) = .ok s' := by
  obtain ⟨hx, hy, hb⟩ := ha
  by_cases hxy : x = y
  · exact ⟨s, if_pos hxy⟩
  · obtain ⟨v, hv⟩ := Option.isSome_iff_exists.mp hx
    obtain ⟨u, hu⟩ := Option.isSome_iff_exists.mp hy
    obtain ⟨w, t, hw, hvw, _, hold⟩ := h.object hr hv
    obtain ⟨w', m, hrel, _, hmade, _, hr'⟩ := hr.release hw
    rw [← h.buffers, ← hvw.release hold] at hrel
    have h' : Shortens ({ s with buffers := m }.put x w') ({ r with buffers := m }.put x w') :=
      h.put (.refl w')
    have hyx : y ≠ x := fun he => hxy he.symm
    have hu' : ({ s with buffers := m }.put x w').var y = some u := by simp [Program.put, hyx, hu]
    have hb' : block ∉ m.made := by
      rw [hmade, ← h.buffers]
      exact hb
    obtain ⟨w₂, t₂, hw₂, huw₂, _, hold₂⟩ := h'.object hr' hu'
    have hfresh : ∀ c, u.data = some c → c ≠ block := fun c hc =>
      hr'.fresh ((owned_of hw₂).trans (huw₂.data ▸ hc)) hb'
    obtain ⟨t', _, hcopy⟩ := huw₂.createAndCopy hold₂ hfresh
    rw [Program.exec, if_neg hxy]
    exact exists_bind (object_of hv)
      (exists_bind hrel (exists_bind (object_of hu') (exists_bind hcopy ⟨_, rfl⟩)))

theorem Shortens.write_ok {idx : ℤ} {c : UInt8} (h : Shortens s r) (hr : Represents r texts)
    (ha : s.Admissible (.write x idx c)) : ∃ s', s.exec (.write x idx c) = .ok s' := by
  obtain ⟨hx, hlo, hhi⟩ := ha
  obtain ⟨v, hv⟩ := Option.isSome_iff_exists.mp hx
  obtain ⟨w, t, hw, hvw, _, hold⟩ := h.object hr hv
  rw [Program.exec, ok_bind (object_of hv)]
  by_cases hidx : idx < 0 ∨ v.size ≤ toUint64 idx
  · refine ⟨s, ?_⟩
    rw [CharString.index, if_pos hidx]
    rfl
  · have hlen : v.strLen ≠ 0 := by
      intro hzero
      rw [size, hzero] at hidx
      omega
    obtain rfl := hvw.eq hlen
    cases hd : v.data with
    | none =>
      rw [hold.len, hold.null hd] at hlen
      exact absurd rfl hlen
    | some b =>
      have hin : idx.toNat < (t.map some).length := by
        rw [List.length_map, ← hold.len]
        rw [size, toUint64, hold.len] at hidx
        have hsmall := hold.small
        rw [hold.len]
        omega
      rw [CharString.index, if_neg hidx, hd]
      exact exists_bind (array_of (hold.chars b hd)) (exists_bind (Cells.write_of hin) ⟨_, rfl⟩)

/-- No operation but `substr` goes wrong on memory, whatever has been moved before. -/
theorem Shortens.runs_on {e : Event σ ι} (h : Shortens s r) (hr : Represents r texts)
    (ha : s.Admissible e) :
    (∃ s', s.exec e = .ok s') ∨ ∃ what, s.exec e = .error (.exception what) := by
  cases e with
  | construct x text rest block =>
    obtain ⟨_, h0, _⟩ := ha
    have hmake : (∃ made, construct s.buffers (cString text rest) block = .ok made) ∨ ∃ what,
        construct s.buffers (cString text rest) block = .error (.exception what) :=
      construct_cases h0
    rcases hmake with ⟨made, hok⟩ | ⟨what, hthrow⟩
    · exact .inl (exists_bind hok ⟨_, rfl⟩)
    · refine .inr ⟨what, ?_⟩
      rw [Program.exec, hthrow]
      rfl
  | copy x y block =>
    obtain ⟨_, hy, hb⟩ := ha
    obtain ⟨v, hv⟩ := Option.isSome_iff_exists.mp hy
    obtain ⟨w, t, hw, hvw, _, hold⟩ := h.object hr hv
    have hfresh : ∀ c, v.data = some c → c ≠ block := fun c hc =>
      hr.fresh ((owned_of hw).trans (hvw.data ▸ hc)) (h.buffers ▸ hb)
    obtain ⟨t', _, hcopy⟩ := hvw.createAndCopy hold hfresh
    exact .inl (exists_bind (object_of hv) (exists_bind hcopy ⟨_, rfl⟩))
  | copyAssign x y block => exact .inl (h.copyAssign_ok hr ha)
  | move x y =>
    obtain ⟨v, hv⟩ := Option.isSome_iff_exists.mp ha.2
    exact .inl (exists_bind (object_of hv) ⟨_, rfl⟩)
  | moveAssign x y =>
    obtain ⟨hx, hy, hxy⟩ := ha
    obtain ⟨v, hv⟩ := Option.isSome_iff_exists.mp hx
    obtain ⟨u, hu⟩ := Option.isSome_iff_exists.mp hy
    obtain ⟨w, t, hw, hvw, _, hold⟩ := h.object hr hv
    obtain ⟨w', m, hrel, _, _, _, _⟩ := hr.release hw
    rw [← h.buffers, ← hvw.release hold] at hrel
    exact .inl (exists_bind (assert_of hxy)
      (exists_bind (object_of hv) (exists_bind hrel (exists_bind (object_of hu) ⟨_, rfl⟩))))
  | write x idx c => exact .inl (h.write_ok hr ha)
  | destroy x =>
    obtain ⟨v, hv⟩ := Option.isSome_iff_exists.mp ha
    obtain ⟨w, t, hw, hvw, _, hold⟩ := h.object hr hv
    obtain ⟨w', m, hrel, _, _, _, _⟩ := hr.release hw
    rw [← h.buffers, ← hvw.release hold] at hrel
    exact .inl (exists_bind (object_of hv) (exists_bind (release_deleteArray hrel) ⟨_, rfl⟩))

/-- Strings own their buffers whatever they have been moved to: each buffer has one owner until it
is freed, which happens once, and no operation but `substr` does anything undefined. -/
theorem buffers_safe (hr : (slicingPrograms σ ι).Run System.always tr s) :
    (∀ x y b, s.owned x = some b → s.owned y = some b → x = y) ∧ s.buffers.freed.Nodup ∧
      (∀ b, b ∈ s.buffers.made ↔ (∃ x, s.owned x = some b) ∨ b ∈ s.buffers.freed) ∧
      (∀ b ∈ s.buffers.freed, ∀ x, s.owned x ≠ some b) ∧
      ∀ e, s.Admissible e →
        (∃ s', s.exec e = .ok s') ∨ ∃ what, s.exec e = .error (.exception what) := by
  obtain ⟨r, texts, h, hrep⟩ := run_readable hr
  have howned := hrep.owned
  rw [← h.buffers, ← funext h.owned_eq] at howned
  refine ⟨howned.unshared, howned.freed_nodup, fun b => ?_, fun b hb x hx => ?_, fun e ha => ?_⟩
  · rw [howned.made, howned.alive]
  · have halive := (howned.alive b).mpr ⟨x, hx⟩
    rw [howned.dead b hb] at halive
    cases halive
  · exact h.runs_on hrep ha

theorem buffers_safe_sample : ∃ s : Program ℕ ℕ, s.buffers.freed = [0] ∧ s.owned 0 = some 1 ∧
    (∀ x y b, s.owned x = some b → s.owned y = some b → x = y) ∧
    ((∃ s', s.exec (.copyAssign 0 0 2) = .ok s') ∨
      ∃ what, s.exec (.copyAssign 0 0 2) = .error (.exception what)) := by
  have hr : ∃ s, (slicingPrograms ℕ ℕ).Run System.always
      [.step (.construct 0 [97, 98] [] 0), .step (.construct 1 [99] [] 1),
        .step (.moveAssign 0 1)] s ∧
      s.buffers.freed = [0] ∧ s.owned 0 = some 1 ∧ s.Admissible (.copyAssign 0 0 2) :=
    ⟨_, System.run_of_exec System.guardedExec_step rfl rfl, rfl, rfl, by decide⟩
  obtain ⟨s, hr, hfreed, howned, ha⟩ := hr
  obtain ⟨hunshared, _, _, _, hruns⟩ := buffers_safe hr
  exact ⟨s, hfreed, howned, hunshared, hruns _ ha⟩

/-- Any two strings of a program print some texts, also after a move assignment has lost a length,
and they are equal if and only if the texts are. -/
theorem equal_iff_print (hr : (slicingPrograms σ ι).Run System.always tr s) (hx : s.var x = some v)
    (hy : s.var y = some u) : ∃ t t', v.print s.buffers = .ok t ∧ u.print s.buffers = .ok t' ∧
      v.size = t.length ∧ (∀ i (h : i < t.length), v.get s.buffers i = .ok t[i]) ∧
      v.equal u s.buffers = .ok (decide (t = t')) := by
  obtain ⟨r, texts, h, hrep⟩ := run_readable hr
  obtain ⟨w, t, _, hvw, _, hold⟩ := h.object hrep hx
  obtain ⟨w', t', _, huw, _, hold'⟩ := h.object hrep hy
  obtain ⟨t₁, hv⟩ := hvw.reads hold
  obtain ⟨t₂, hu⟩ := huw.reads hold'
  exact ⟨t₁, t₂, hv.print, hu.print, hv.size, hv.get, hv.equal hu⟩

/-- The string that was assigned to by a move and the one it was moved from. -/
theorem equal_iff_print_sample : ∃ (s : Program ℕ ℕ) (v u : CharString ℕ),
    s.var 0 = some v ∧ s.var 1 = some u ∧ v.data ≠ u.data ∧ ∃ t t',
      v.print s.buffers = .ok t ∧ u.print s.buffers = .ok t' ∧
      v.equal u s.buffers = .ok (decide (t = t')) := by
  have hr : ∃ s v u, (slicingPrograms ℕ ℕ).Run System.always
      [.step (.construct 0 [97, 98] [] 0), .step (.construct 1 [99] [] 1),
        .step (.moveAssign 0 1)] s ∧
      s.var 0 = some v ∧ s.var 1 = some u ∧ v.data ≠ u.data :=
    ⟨_, _, _, System.run_of_exec System.guardedExec_step rfl rfl, rfl, rfl, by decide⟩
  obtain ⟨s, v, u, hr, hv, hu, hne⟩ := hr
  obtain ⟨t, t', hprint, hprint', _, _, hequal⟩ := equal_iff_print hr hv hu
  exact ⟨s, v, u, hv, hu, hne, t, t', hprint, hprint', hequal⟩

end ModCpp.CharString
