import ModCpp.CharStringRuns

/-!
# `string::substr`

The slice goes through a private constructor that measures it with `strlen`, from its start in
the buffer of the string on. A buffer ends with the last character, so what `strlen` finds, if
it stays inside, is a NUL among the characters themselves.
-/

namespace ModCpp.CharString

def intAdd (a b : ℤ) : Except Failure ℤ :=
  if -2 ^ 31 ≤ a + b ∧ a + b < 2 ^ 31 then pure (a + b) else throw (.undefined "int overflow")

section code
variable {ι : Type} [DecidableEq ι]

/-- `string(const char *str, int n)`. -/
def constructPrefix (m : Buffers ι) (str : Cells UInt8) (n : ℤ) (block : ι) :
    Except Failure (CharString ι × Buffers ι) := do
  let strLen ← strlen str
  let len := toInt strLen
  assert (len ≥ n) "len >= n"
  let m ← m.newArray n block
  let m ← m.fill block (Cells.read str) n.toNat
  pure (⟨some block, toUint64 n⟩, m)

def substr (s : CharString ι) (m : Buffers ι) (idx len : ℤ) (block : ι) :
    Except Failure (CharString ι × Buffers ι) :=
  let n := toInt s.size
  if idx < 0 ∨ idx ≥ n then throw (.exception "substr outof bound")
  else if len < 0 then throw (.exception "substr negative len")
  else if len = 0 then construct m (cString [] []) block
  else do
    let sum ← intAdd idx len
    let right := min (n - 1) (sum - 1)
    match s.data with
    | none => throw (.undefined "null pointer")
    | some b => do
      let cells ← m.array b
      constructPrefix m (cells.drop idx.toNat) (right - idx + 1) block

end code

section text
variable {t : List UInt8} {k : ℕ}

theorem strlen_map : strlen (t.map some) = if 0 ∈ t then .ok (t.idxOf 0)
    else .error (.undefined "read past the end of an array") := by
  induction t with
  | nil => rfl
  | cons c t ih =>
    rw [List.map_cons, strlen]
    by_cases hc : c = 0
    · rw [if_pos hc, if_pos (by simp [hc]), hc, List.idxOf_cons_self]
      rfl
    · rw [if_neg hc, ih, List.idxOf_cons_ne _ hc]
      by_cases ht : 0 ∈ t
      · rw [if_pos ht, if_pos (List.mem_cons_of_mem _ ht)]
        rfl
      · rw [if_neg ht, if_neg (by simp [ht, Ne.symm hc])]
        rfl

theorem zero_behind_iff : (0 ∉ t.take k ∧ 0 ∈ t.drop k) ↔ 0 ∈ t ∧ k ≤ t.idxOf 0 := by
  induction t generalizing k with
  | nil => simp
  | cons c t ih =>
    cases k with
    | zero => simp
    | succ k =>
      rw [List.take_succ_cons, List.drop_succ_cons]
      by_cases hc : c = 0
      · simp [hc]
      · rw [List.idxOf_cons_ne _ hc]
        simp only [List.mem_cons, Ne.symm hc, false_or, Nat.succ_eq_add_one,
          Nat.add_le_add_iff_right]
        exact ih

/-- What `substr` needs: nothing to cut, or a first NUL behind what is cut and in the string. -/
def Terminated (t : List UInt8) (idx len : ℤ) : Prop :=
  idx < 0 ∨ t.length ≤ idx ∨ len ≤ 0 ∨
    (0 ∉ (t.drop idx.toNat).take len.toNat ∧ 0 ∈ (t.drop idx.toNat).drop len.toNat)

/-- A slice up to the end of a string has no character behind it. -/
theorem not_terminated_to_end {idx len : ℤ} (h0 : 0 ≤ idx) (hlt : idx < t.length) (hlen : 0 < len)
    (hend : t.length ≤ idx + len) : ¬ Terminated t idx len := by
  intro h
  obtain ⟨_, hmem⟩ :=
    ((h.resolve_left (by omega)).resolve_left (by omega)).resolve_left (by omega)
  have hpos := List.length_pos_of_mem hmem
  rw [List.length_drop, List.length_drop] at hpos
  omega

end text

section cut
variable {ι : Type} {m : Buffers ι} {v : CharString ι} {t : List UInt8} {idx len : ℤ} {b block : ι}

structure Shows (m : Buffers ι) (v : CharString ι) (t : List UInt8) : Prop where
  size : v.size = t.length
  get : ∀ i (h : i < t.length), v.get m i = .ok t[i]

theorem Holds.shows (hv : Holds m v t) : Shows m v t := ⟨hv.len, fun _ hi => hv.get hi⟩

variable [DecidableEq ι]

/-- What `substr` is for. -/
structure Cuts (m : Buffers ι) (v : CharString ι) (t : List UInt8) (idx len : ℤ) (block : ι) :
    Prop where
  inside : 0 ≤ idx → idx < t.length → 0 ≤ len → ∃ v' m', v.substr m idx len block = .ok (v', m') ∧
    Shows m' v' ((t.drop idx.toNat).take len.toNat)
  outside : idx < 0 ∨ t.length ≤ idx ∨ len < 0 →
    ∃ what, v.substr m idx len block = .error (.exception what)

theorem fill_first {str : Cells UInt8} {n : ℕ} (hn : n ≤ t.length)
    (hread : ∀ i (h : i < t.length), Cells.read str i = .ok t[i]) :
    Buffers.fill { m with
      cells := Function.update m.cells block (some (Cells.indeterminate n))
      made := m.made ++ [block] } block (Cells.read str) n =
        .ok (withText m block (t.take n)) := by
  have hlen : (t.take n).length = n := by
    rw [List.length_take]
    omega
  conv_lhs => rw [← hlen]
  refine fill_of ?_
  intro i hi
  rw [List.getElem_take]
  exact hread i (by omega)

theorem constructPrefix_of {n : ℕ} (hsmall : t.length < 2 ^ 31) (h0 : 0 ∈ t)
    (hn : n ≤ t.idxOf 0) : constructPrefix m (t.map some) n block =
      .ok (⟨some block, n⟩, withText m block (t.take n)) := by
  have hlt : t.idxOf 0 < t.length := List.idxOf_lt_length_of_mem h0
  rw [constructPrefix, strlen_map, if_pos h0, ok_bind rfl]
  simp only [toInt_of_lt (show t.idxOf 0 < 2 ^ 31 by omega)]
  rw [ok_bind (assert_of (by omega)), ok_bind (newArray_of n), Int.toNat_natCast,
    ok_bind (fill_first (by omega) fun i hi => Cells.read_map hi), toUint64_natCast (by omega)]
  rfl

theorem substr_throws (hn : toInt v.size = t.length)
    (h : idx < 0 ∨ t.length ≤ idx ∨ len < 0) :
    ∃ what, v.substr m idx len block = .error (.exception what) := by
  rw [substr, hn]
  by_cases hout : idx < 0 ∨ idx ≥ t.length
  · exact ⟨_, if_pos hout⟩
  · rw [if_neg hout]
    exact ⟨_, if_pos (by omega)⟩

theorem substr_zero (hn : toInt v.size = t.length) (h0 : 0 ≤ idx) (hlt : idx < t.length) :
    v.substr m idx 0 block = .ok (⟨some block, 0⟩, withText m block []) := by
  rw [substr, hn, if_neg (by omega), if_neg (Int.lt_irrefl 0), if_pos rfl]
  exact construct_of (by decide) (by simp)

theorem Holds.substr_eq (hv : Holds m v t) (h0 : 0 ≤ idx) (hlt : idx < t.length) (hlen : 0 < len) :
    v.substr m idx len block = if idx + len < 2 ^ 31 then
      constructPrefix m ((t.drop idx.toNat).map some)
        ((min (t.length - idx.toNat) len.toNat : ℕ) : ℤ) block
    else .error (.undefined "int overflow") := by
  have hsmall := hv.small
  have hn : toInt v.size = t.length := by rw [size, hv.len, toInt_of_lt hsmall]
  rw [substr, hn, if_neg (by omega), if_neg (by omega), if_neg (by omega), intAdd]
  by_cases hsum : idx + len < 2 ^ 31
  · rw [if_pos ⟨by omega, hsum⟩, if_pos hsum]
    cases hd : v.data with
    | none =>
      rw [hv.null hd] at hlt
      simp at hlt
      omega
    | some b =>
      have hcount : min ((t.length : ℤ) - 1) (idx + len - 1) - idx + 1 =
          ((min (t.length - idx.toNat) len.toNat : ℕ) : ℤ) := by omega
      show (m.array b >>= fun cells => constructPrefix m (cells.drop idx.toNat)
        (min ((t.length : ℤ) - 1) (idx + len - 1) - idx + 1) block) = _
      rw [ok_bind (array_of (hv.chars b hd)), hcount, List.map_drop]
  · rw [if_neg (by omega), if_neg hsum]
    rfl

theorem Holds.constructPrefix_cases (hv : Holds m v t) {k : ℕ} {u : List UInt8}
    (hu : u.length ≤ t.length) :
    ((0 ∉ u.take k ∧ 0 ∈ u.drop k) ∧
      constructPrefix m (u.map some) ((min u.length k : ℕ) : ℤ) block =
        .ok (⟨some block, (u.take k).length⟩, withText m block (u.take k))) ∨
    (¬ (0 ∉ u.take k ∧ 0 ∈ u.drop k) ∧ ∃ f, (∀ what, f ≠ .exception what) ∧
      constructPrefix m (u.map some) ((min u.length k : ℕ) : ℤ) block = .error f) := by
  have hsmall := hv.small
  rw [zero_behind_iff]
  by_cases hmem : 0 ∈ u
  · have hidx := List.idxOf_lt_length_of_mem hmem
    by_cases hle : k ≤ u.idxOf 0
    · left
      have hlen : (u.take k).length = k := by
        rw [List.length_take]
        omega
      rw [show min u.length k = k by omega, hlen]
      exact ⟨⟨hmem, hle⟩, constructPrefix_of (by omega) hmem hle⟩
    · refine .inr ⟨fun h => hle h.2, .assertion "len >= n", by simp, ?_⟩
      rw [constructPrefix, strlen_map, if_pos hmem, ok_bind rfl]
      simp only [toInt_of_lt (show u.idxOf 0 < 2 ^ 31 by omega)]
      rw [assert_not (by omega)]
      rfl
  · refine .inr ⟨fun h => hmem h.1, .undefined "read past the end of an array", by simp, ?_⟩
    rw [constructPrefix, strlen_map, if_neg hmem]
    rfl

theorem Holds.substr_cases (hv : Holds m v t) (idx len : ℤ) (block : ι) :
    ((idx < 0 ∨ t.length ≤ idx ∨ len < 0) ∧
      ∃ what, v.substr m idx len block = .error (.exception what)) ∨
    ((0 ≤ idx ∧ idx < t.length ∧ 0 ≤ len) ∧
      ((Terminated t idx len ∧ v.substr m idx len block =
        .ok (⟨some block, ((t.drop idx.toNat).take len.toNat).length⟩,
          withText m block ((t.drop idx.toNat).take len.toNat))) ∨
      (¬ Terminated t idx len ∧ ∃ f, (∀ what, f ≠ .exception what) ∧
        v.substr m idx len block = .error f))) := by
  have hsmall := hv.small
  have hn : toInt v.size = t.length := by rw [size, hv.len, toInt_of_lt hsmall]
  by_cases hout : idx < 0 ∨ t.length ≤ idx ∨ len < 0
  · exact .inl ⟨hout, substr_throws hn hout⟩
  have hin : 0 ≤ idx ∧ idx < t.length ∧ 0 ≤ len := by omega
  refine .inr ⟨hin, ?_⟩
  by_cases hzero : len = 0
  · subst hzero
    exact .inl ⟨.inr (.inr (.inl (Int.le_refl 0))), substr_zero hn hin.1 hin.2.1⟩
  have hlength : (t.drop idx.toNat).length = t.length - idx.toNat := List.length_drop
  have hterm : Terminated t idx len ↔ 0 ∉ (t.drop idx.toNat).take len.toNat ∧
      0 ∈ (t.drop idx.toNat).drop len.toNat := by
    rw [Terminated]
    constructor
    · intro h
      exact ((h.resolve_left (by omega)).resolve_left (by omega)).resolve_left (by omega)
    · exact fun h => .inr (.inr (.inr h))
  rw [hterm, hv.substr_eq (m := m) hin.1 hin.2.1 (by omega), ← hlength]
  by_cases hsum : idx + len < 2 ^ 31
  · rw [if_pos hsum]
    exact hv.constructPrefix_cases (by omega)
  · rw [if_neg hsum]
    refine .inr ⟨fun h => ?_, .undefined "int overflow", by simp, rfl⟩
    have hpos := List.length_pos_of_mem h.2
    rw [List.length_drop] at hpos
    omega

theorem Holds.cuts_iff (hv : Holds m v t) : Cuts m v t idx len block ↔ Terminated t idx len := by
  have hsmall := hv.small
  rcases hv.substr_cases idx len block with
    ⟨hout, hthrow⟩ | ⟨hin, ⟨hterm, hok⟩ | ⟨hterm, f, hf, herror⟩⟩
  · refine iff_of_true ⟨fun h0 hlt hlen => by omega, fun _ => hthrow⟩ ?_
    rw [Terminated]
    omega
  · refine iff_of_true ⟨fun _ _ _ => ⟨_, _, hok, ?_⟩, fun hout => by omega⟩ hterm
    refine (holds_withText ?_).shows
    rw [List.length_take, List.length_drop]
    omega
  · refine iff_of_false ?_ hterm
    intro hcuts
    obtain ⟨v', m', hok, _⟩ := hcuts.inside hin.1 hin.2.1 hin.2.2
    rw [herror] at hok
    cases hok

end cut
/-! A move assignment leaves a string with the size 0 beside its buffer, so the strings of a
program are those of one in which no `str_len` was lost. -/

/-- Only `str_len` differs, and it is 0. -/
structure Shortened {ι : Type} (v w : CharString ι) : Prop where
  data : v.data = w.data
  len : v.strLen = w.strLen ∨ v.strLen = 0

structure Shortens {σ ι : Type} (s r : Program σ ι) : Prop where
  var : ∀ x, Option.Rel Shortened (s.var x) (r.var x)
  buffers : s.buffers = r.buffers

def Readable {σ ι : Type} (s : Program σ ι) : Prop :=
  ∃ (r : Program σ ι) (texts : Texts σ), Shortens s r ∧ Represents r texts

section shortened
variable {σ ι : Type} {s r : Program σ ι} {texts : Texts σ} {x y : σ} {v w : CharString ι}
  {m : Buffers ι} {t : List UInt8} {block : ι}

theorem Shortened.refl (v : CharString ι) : Shortened v v := ⟨rfl, .inl rfl⟩

theorem Shortened.eq (h : Shortened v w) (hlen : v.strLen ≠ 0) : v = w := by
  obtain ⟨hdata, hlen'⟩ := h
  cases v
  cases w
  simp only at hdata hlen hlen' ⊢
  rw [hdata, hlen'.resolve_right hlen]

theorem Shortens.object (h : Shortens s r) (hr : Represents r texts) (hx : s.var x = some v) :
    ∃ w t, r.var x = some w ∧ Shortened v w ∧ texts x = some t ∧ Holds s.buffers w t := by
  have hrel := h.var x
  rw [hx] at hrel
  generalize hw : r.var x = o at hrel
  cases hrel with
  | some hvw =>
    obtain ⟨w', t, hw', _, ht, hold⟩ := hr.object (x := x) (by rw [hw]; rfl)
    obtain rfl := Option.some_inj.mp (hw.symm.trans hw')
    exact ⟨_, t, rfl, hvw, ht, h.buffers ▸ hold⟩

theorem object_of (hx : s.var x = some v) : s.object x = .ok v := by
  rw [Program.object, hx]
  rfl

theorem Shortens.dead (h : Shortens s r) (hx : s.var x = none) : r.owned x = none := by
  have hrel := h.var x
  rw [hx] at hrel
  rw [Program.owned]
  generalize r.var x = o at hrel
  cases hrel
  rfl

variable [DecidableEq σ]

theorem rel_transfer {f g : σ → Option (CharString ι)} (hvw : Shortened v w)
    (h : ∀ z ≠ x, Option.Rel Shortened (f z) (g z)) (z : σ) :
    Option.Rel Shortened (Function.update (Function.update f y (some ⟨none, 0⟩)) x (some v) z)
      (Function.update (Function.update g y (some ⟨none, 0⟩)) x (some w) z) := by
  by_cases hzx : z = x
  · subst hzx
    simpa using hvw
  · by_cases hzy : z = y
    · subst hzy
      simpa [hzx] using Shortened.refl (ι := ι) ⟨none, 0⟩
    · simpa [hzx, hzy] using h z hzx

theorem Shortens.put (h : Shortens s r) (hvw : Shortened v w) :
    Shortens ({ s with buffers := m }.put x v) ({ r with buffers := m }.put x w) := by
  refine ⟨fun z => ?_, rfl⟩
  by_cases hz : z = x
  · subst hz
    simpa [Program.put] using hvw
  · simpa [Program.put, hz] using h.var z

variable [DecidableEq ι]

theorem Shortens.make (h : Shortens s r) (hr : Represents r texts) (hx : r.owned x = none)
    (ht : t.length < 2 ^ 31) (hb : block ∉ s.buffers.made) :
    Readable ({ s with buffers := withText s.buffers block t }.put x ⟨some block, t.length⟩) := by
  rw [h.buffers] at hb ⊢
  exact ⟨_, _, h.put (.refl _), hr.make hx ht hb⟩

theorem Shortened.createAndCopy (h : Shortened v w) (hold : Holds m w t)
    (hb : ∀ c, v.data = some c → c ≠ block) : ∃ t', t'.length < 2 ^ 31 ∧
      CharString.createAndCopy m v block = .ok (⟨some block, t'.length⟩, withText m block t') := by
  by_cases hlen : v.strLen = 0
  · refine ⟨[], by decide, ?_⟩
    rw [CharString.createAndCopy, size, hlen, toInt_of_lt (by decide)]
    exact (ok_bind (newArray_of 0)).trans (ok_bind (fill_of (t := []) fun i hi => by simp at hi))
  · obtain rfl := h.eq hlen
    exact ⟨t, hold.small, createAndCopy_of hold hb⟩

theorem Shortened.release (h : Shortened v w) (hold : Holds m w t) :
    CharString.release m v = CharString.release m w := by
  cases hd : w.data with
  | none =>
    have hlen : w.strLen = 0 := by rw [hold.len, hold.null hd, List.length_nil]
    have heq : v = w := by
      obtain ⟨hdata, hlen'⟩ := h
      cases v
      cases w
      simp only at hdata hlen hlen' ⊢
      rw [hdata, hlen]
      simpa [hlen] using hlen'
    rw [heq]
  | some b => rw [CharString.release, CharString.release, h.data, hd]

theorem Shortens.copyAssign {s' : Program σ ι} (h : Shortens s r) (hr : Represents r texts)
    (ha : s.Admissible (.copyAssign x y block)) (he : s.exec (.copyAssign x y block) = .ok s') :
    Readable s' := by
  obtain ⟨hx, hy, hb⟩ := ha
  by_cases hxy : x = y
  · rw [Program.exec, if_pos hxy] at he
    cases he
    exact ⟨r, texts, h, hr⟩
  · obtain ⟨v, hv⟩ := Option.isSome_iff_exists.mp hx
    obtain ⟨u, hu⟩ := Option.isSome_iff_exists.mp hy
    obtain ⟨w, t, hw, hvw, _, hold⟩ := h.object hr hv
    obtain ⟨w', m, hrel, _, hmade, hnull, hr'⟩ := hr.release hw
    rw [← h.buffers, ← hvw.release hold] at hrel
    have h' : Shortens ({ s with buffers := m }.put x w') ({ r with buffers := m }.put x w') :=
      h.put (.refl w')
    have hyx : y ≠ x := fun he => hxy he.symm
    have hu' : ({ s with buffers := m }.put x w').var y = some u := by simp [Program.put, hyx, hu]
    have hb' : block ∉ m.made := by
      rw [hmade, ← h.buffers]
      exact hb
    obtain ⟨w₂, t₂, hw₂, huw₂, _, hold₂⟩ := h'.object hr' hu'
    have hfresh : ∀ c, u.data = some c → c ≠ block := fun c hc =>
      hr'.fresh ((owned_of hw₂).trans (huw₂.data ▸ hc)) hb'
    obtain ⟨t', ht', hcopy⟩ := huw₂.createAndCopy hold₂ hfresh
    rw [Program.exec, if_neg hxy, ok_bind (object_of hv), ok_bind hrel] at he
    have hexec := he.symm.trans ((ok_bind (object_of hu')).trans (ok_bind hcopy))
    cases hexec
    exact h'.make hr' hnull ht' hb'

theorem Shortens.moveAssign {s' : Program σ ι} (h : Shortens s r) (hr : Represents r texts)
    (ha : s.Admissible (.moveAssign x y)) (he : s.exec (.moveAssign x y) = .ok s') :
    Readable s' := by
  obtain ⟨hx, hy, hxy⟩ := ha
  obtain ⟨v, hv⟩ := Option.isSome_iff_exists.mp hx
  obtain ⟨u, hu⟩ := Option.isSome_iff_exists.mp hy
  obtain ⟨w, t, hw, hvw, _, hold⟩ := h.object hr hv
  obtain ⟨w₂, t₂, hw₂, huw₂, _, _⟩ := h.object hr hu
  obtain ⟨w', m, hrel, hlen, _, hnull, hr'⟩ := hr.release hw
  rw [← h.buffers, ← hvw.release hold] at hrel
  rw [Program.exec, ok_bind (assert_of hxy), ok_bind (object_of hv), ok_bind hrel] at he
  have hexec := he.symm.trans (ok_bind (object_of hu))
  cases hexec
  have hyx : y ≠ x := fun he => hxy he.symm
  have hw₂' : ({ r with buffers := m }.put x w').var y = some w₂ := by simp [Program.put, hyx, hw₂]
  refine ⟨_, _, ?_, hr'.transfer hnull hw₂'⟩
  have huw' : Shortened ⟨u.data, w'.strLen⟩ w₂ := ⟨huw₂.data, .inr hlen⟩
  refine ⟨rel_transfer huw' fun z hz => ?_, rfl⟩
  simpa [Program.put, hz] using h.var z

theorem Shortens.write {s' : Program σ ι} {idx : ℤ} {c : UInt8} (h : Shortens s r)
    (hr : Represents r texts) (ha : s.Admissible (.write x idx c))
    (he : s.exec (.write x idx c) = .ok s') : Readable s' := by
  obtain ⟨v, hv⟩ := Option.isSome_iff_exists.mp ha.1
  obtain ⟨w, t, hw, hvw, _, hold⟩ := h.object hr hv
  rw [Program.exec, ok_bind (object_of hv)] at he
  by_cases hidx : idx < 0 ∨ v.size ≤ toUint64 idx
  · rw [CharString.index, if_pos hidx] at he
    cases he
    exact ⟨r, texts, h, hr⟩
  · have hlen : v.strLen ≠ 0 := by
      intro hzero
      rw [size, hzero] at hidx
      omega
    obtain rfl := hvw.eq hlen
    cases hd : v.data with
    | none =>
      rw [hold.len, hold.null hd] at hlen
      exact absurd rfl hlen
    | some b =>
      rw [CharString.index, if_neg hidx, hd] at he
      obtain ⟨cells, harray, he⟩ := bind_ok he
      obtain rfl := Except.ok.inj ((array_of (hold.chars b hd)).symm.trans harray)
      obtain ⟨cells, hwrite, he⟩ := bind_ok he
      rw [Cells.write] at hwrite
      split_ifs at hwrite
      cases hwrite
      cases he
      rw [← List.map_set, h.buffers]
      have hold' : Holds r.buffers v t := h.buffers ▸ hold
      refine ⟨_, _, ?_, hr.store (i := idx.toNat) (c := c) hw hold' hd⟩
      exact ⟨h.var, rfl⟩

theorem Shortens.destroy {s' : Program σ ι} (h : Shortens s r) (hr : Represents r texts)
    (ha : s.Admissible (.destroy x)) (he : s.exec (.destroy x) = .ok s') : Readable s' := by
  obtain ⟨v, hv⟩ := Option.isSome_iff_exists.mp ha
  obtain ⟨w, t, hw, hvw, _, hold⟩ := h.object hr hv
  obtain ⟨w', m, hrel, hlen, _, hnull, hr'⟩ := hr.release hw
  rw [← h.buffers, ← hvw.release hold] at hrel
  rw [Program.exec, ok_bind (object_of hv), ok_bind (release_deleteArray hrel)] at he
  cases he
  refine ⟨_, _, ?_, hr'.drop hnull⟩
  refine ⟨fun z => ?_, rfl⟩
  by_cases hz : z = x
  · subst hz
    simp
  · simpa [Program.put, hz] using h.var z

/-- The length of a C string may wrap. -/
theorem construct_ok {m' : Buffers ι} {rest : Cells UInt8} (h0 : 0 ∉ t)
    (h : construct m (cString t rest) block = .ok (v, m')) : ∃ t', t'.length < 2 ^ 31 ∧
      v = ⟨some block, t'.length⟩ ∧ m' = withText m block t' := by
  rw [construct, ok_bind (strlen_cString h0)] at h
  have hlt := toInt_lt t.length
  have hle := toInt_le t.length
  generalize toInt t.length = n at h hlt hle
  obtain ⟨m₁, hnew, h⟩ := bind_ok h
  rw [Buffers.newArray] at hnew
  split_ifs at hnew with hneg
  cases hnew
  obtain ⟨n, rfl⟩ := Int.eq_ofNat_of_zero_le (Int.not_lt.mp hneg)
  rw [Int.toNat_natCast, ok_bind (fill_first (by omega) read_cString)] at h
  cases h
  have hlen : (t.take n).length = n := by
    rw [List.length_take]
    omega
  refine ⟨t.take n, by omega, ?_, rfl⟩
  rw [hlen, toUint64_natCast (by omega)]

theorem Shortens.step {s' : Program σ ι} {e : Event σ ι} (h : Shortens s r)
    (hr : Represents r texts) (ha : s.Admissible e) (he : s.exec e = .ok s') : Readable s' := by
  cases e with
  | construct x text rest block =>
    obtain ⟨hx, h0, hb⟩ := ha
    obtain ⟨⟨this, m⟩, hmake, he⟩ := bind_ok he
    obtain ⟨t, ht, rfl, rfl⟩ := construct_ok h0 hmake
    cases he
    exact h.make hr (h.dead hx) ht hb
  | copy x y block =>
    obtain ⟨hx, hy, hb⟩ := ha
    obtain ⟨v, hv⟩ := Option.isSome_iff_exists.mp hy
    obtain ⟨w, t, hw, hvw, _, hold⟩ := h.object hr hv
    have hfresh : ∀ c, v.data = some c → c ≠ block := fun c hc =>
      hr.fresh ((owned_of hw).trans (hvw.data ▸ hc)) (h.buffers ▸ hb)
    obtain ⟨t', ht', hcopy⟩ := hvw.createAndCopy hold hfresh
    have hexec := he.symm.trans ((ok_bind (object_of hv)).trans (ok_bind hcopy))
    cases hexec
    exact h.make hr (h.dead hx) ht' hb
  | copyAssign x y block => exact h.copyAssign hr ha he
  | move x y =>
    obtain ⟨hx, hy⟩ := ha
    obtain ⟨v, hv⟩ := Option.isSome_iff_exists.mp hy
    obtain ⟨w, t, hw, hvw, _, _⟩ := h.object hr hv
    have hexec := he.symm.trans (ok_bind (object_of hv))
    cases hexec
    refine ⟨_, _, ?_, hr.transfer (h.dead hx) hw⟩
    have hvw' : Shortened ⟨v.data, v.size⟩ w := hvw
    exact ⟨rel_transfer hvw' fun z _ => h.var z, h.buffers⟩
  | moveAssign x y => exact h.moveAssign hr ha he
  | write x idx c => exact h.write hr ha he
  | destroy x => exact h.destroy hr ha he

end shortened

/-- A step of a program that also takes slices, `string x = y.substr(idx, len)`. -/
inductive SliceEvent (σ ι : Type)
  | step (e : Event σ ι)
  | substr (x y : σ) (idx len : ℤ) (block : ι)

namespace Program
variable {σ ι : Type} [DecidableEq σ] [DecidableEq ι]

def execSlice (s : Program σ ι) : SliceEvent σ ι → Except Failure (Program σ ι)
  | .step e => s.exec e
  | .substr x y idx len block => do
    let this ← s.object y
    match this.substr s.buffers idx len block with
    -- the caller goes on after the exception
    | .error (.exception _) => pure s
    | .error e => throw e
    | .ok (v, m) => pure ({ s with buffers := m }.put x v)

def AdmissibleSlice (s : Program σ ι) : SliceEvent σ ι → Prop
  | .step e => s.Admissible e
  | .substr x y idx len block => s.var x = none ∧ (s.var y).isSome ∧ block ∉ s.buffers.made ∧
      (-2 ^ 31 ≤ idx ∧ idx < 2 ^ 31) ∧ -2 ^ 31 ≤ len ∧ len < 2 ^ 31

instance (s : Program σ ι) : DecidablePred s.AdmissibleSlice
  | .step e => inferInstanceAs (Decidable (s.Admissible e))
  | .substr .. => inferInstanceAs (Decidable (_ ∧ _ ∧ _ ∧ (_ ∧ _) ∧ _ ∧ _))

end Program

section runs
variable {σ ι : Type} {s s' r : Program σ ι} {texts : Texts σ} {x y : σ} {v w : CharString ι}
  {m : Buffers ι} {t : List UInt8} {idx len : ℤ} {block : ι}

theorem toInt_size_zero (h : v.strLen = 0) : toInt v.size = ([] : List UInt8).length := by
  rw [size, h]
  exact toInt_of_lt (by decide)

variable [DecidableEq ι]

theorem Shortened.cuts (h : Shortened v w) (hold : Holds m w t) : ∃ t', Shows m v t' ∧
    ∀ idx len block, Cuts m v t' idx len block ↔ Terminated t' idx len := by
  by_cases hlen : v.strLen = 0
  · refine ⟨[], ⟨hlen, fun i hi => by simp at hi⟩, fun idx len block => ?_⟩
    have hout : idx < 0 ∨ (([] : List UInt8).length : ℤ) ≤ idx := by
      simp only [List.length_nil]
      omega
    refine iff_of_true ⟨fun h0 hlt _ => by omega, fun _ => ?_⟩ ?_
    · exact substr_throws (toInt_size_zero hlen) (by omega)
    · rw [Terminated]
      omega
  · obtain rfl := h.eq hlen
    exact ⟨t, hold.shows, fun idx len block => hold.cuts_iff⟩

theorem Shortened.substr_ok {v' : CharString ι} {m' : Buffers ι} (h : Shortened v w)
    (hold : Holds m w t) (hok : v.substr m idx len block = .ok (v', m')) :
    ∃ t', t'.length < 2 ^ 31 ∧ v' = ⟨some block, t'.length⟩ ∧ m' = withText m block t' := by
  by_cases hlen : v.strLen = 0
  · have hout : idx < 0 ∨ (([] : List UInt8).length : ℤ) ≤ idx ∨ len < 0 := by
      simp only [List.length_nil]
      omega
    obtain ⟨what, hthrow⟩ := substr_throws (toInt_size_zero hlen) hout
    rw [hthrow] at hok
    cases hok
  · obtain rfl := h.eq hlen
    have hsmall := hold.small
    rcases hold.substr_cases idx len block with
      ⟨_, what, hthrow⟩ | ⟨_, ⟨_, heq⟩ | ⟨_, f, _, herror⟩⟩
    · rw [hthrow] at hok
      cases hok
    · rw [heq] at hok
      cases hok
      refine ⟨_, ?_, rfl, rfl⟩
      rw [List.length_take, List.length_drop]
      omega
    · rw [herror] at hok
      cases hok

variable [DecidableEq σ]

theorem Shortens.stepSlice {e : SliceEvent σ ι} (h : Shortens s r) (hr : Represents r texts)
    (ha : s.AdmissibleSlice e) (he : s.execSlice e = .ok s') : Readable s' := by
  cases e with
  | step e => exact h.step hr ha he
  | substr x y idx len block =>
    obtain ⟨hx, hy, hb, _⟩ := ha
    obtain ⟨v, hv⟩ := Option.isSome_iff_exists.mp hy
    obtain ⟨w, t, hw, hvw, _, hold⟩ := h.object hr hv
    rw [Program.execSlice, ok_bind (object_of hv)] at he
    split at he
    · cases he
      exact ⟨r, texts, h, hr⟩
    · cases he
    · rename_i v' m hok
      obtain ⟨t', ht', rfl, rfl⟩ := hvw.substr_ok hold hok
      cases he
      exact h.make hr (h.dead hx) ht' hb

def slicingPrograms (σ ι : Type) [DecidableEq σ] [DecidableEq ι] :
    System (Program σ ι) (SliceEvent σ ι) :=
  System.guarded (fun s => s = .empty) Program.AdmissibleSlice Program.execSlice

theorem run_readable {tr : List (SliceEvent σ ι)}
    (hr : (slicingPrograms σ ι).Run System.always tr s) : Readable s := by
  refine System.run_invariant (P := fun _ s => Readable s) ?_ ?_ hr
  · intro s hs
    subst hs
    exact ⟨_, _, ⟨fun _ => .none, rfl⟩, empty_represents⟩
  · intro tr s e s' _ hread _ hstep
    obtain ⟨r, texts, h, hr⟩ := hread
    exact h.stepSlice hr hstep.1 hstep.2

/-- Each string that a program can have shows a text, and a slice is cut out of it if and only
if there is nothing to cut or the text goes on to a first NUL behind the slice. -/
theorem substr_exact {tr : List (SliceEvent σ ι)}
    (hr : (slicingPrograms σ ι).Run System.always tr s) (hx : s.var x = some v) :
    ∃ t, Shows s.buffers v t ∧ ∀ idx len block,
      Cuts s.buffers v t idx len block ↔ Terminated t idx len := by
  obtain ⟨r, texts, h, hrep⟩ := run_readable hr
  obtain ⟨w, t, _, hvw, _, hold⟩ := h.object hrep hx
  exact hvw.cuts hold

theorem substr_exact_sample : ∃ (s : Program ℕ ℕ) (v : CharString ℕ) (t : List UInt8),
    s.var 0 = some v ∧ v.size = 4 ∧ Shows s.buffers v t ∧
      ∀ idx len block, Cuts s.buffers v t idx len block ↔ Terminated t idx len := by
  have hr : ∃ s v, (slicingPrograms ℕ ℕ).Run System.always
      [.step (.construct 0 [97, 98, 99, 100] [] 0), .step (.write 0 3 0), .substr 1 0 1 2 1] s ∧
      s.var 0 = some v ∧ v.size = 4 :=
    ⟨_, _, System.run_of_exec System.guardedExec_step rfl rfl, rfl, rfl⟩
  obtain ⟨s, v, hr, hv, hsize⟩ := hr
  obtain ⟨t, hshows, hiff⟩ := substr_exact hr hv
  exact ⟨s, v, t, hv, hsize, hshows, hiff⟩

/-- `string("abc").substr(1, 1000)`. -/
theorem substr_exact_fails : ¬ ∀ (tr : List (SliceEvent ℕ ℕ)) (s : Program ℕ ℕ) (x : ℕ)
    (v : CharString ℕ), (slicingPrograms ℕ ℕ).Run System.always tr s → s.var x = some v →
      ∀ t, Shows s.buffers v t → ∀ idx len block, -2 ^ 31 ≤ idx → idx < 2 ^ 31 →
        -2 ^ 31 ≤ len → len < 2 ^ 31 → block ∉ s.buffers.made →
          Cuts s.buffers v t idx len block := by
  intro hall
  have hr : ∃ s v, (slicingPrograms ℕ ℕ).Run System.always
      [.step (.construct 0 [97, 98, 99] [] 0)] s ∧ s.var 0 = some v ∧ v.size = 3 ∧
      s.buffers.made = [0] :=
    ⟨_, _, System.run_of_exec System.guardedExec_step rfl rfl, rfl, rfl, rfl⟩
  obtain ⟨s, v, hr, hv, hsize, hmade⟩ := hr
  obtain ⟨r, texts, h, hrep⟩ := run_readable hr
  obtain ⟨w, t, _, hvw, _, hold⟩ := h.object hrep hv
  obtain ⟨t', hshows, hiff⟩ := hvw.cuts hold
  have hlen : t'.length = 3 := hshows.size.symm.trans hsize
  have hcuts := hall _ s 0 v hr hv t' hshows 1 1000 1 (by decide) (by decide) (by decide)
    (by decide) (by simp [hmade])
  exact not_terminated_to_end (by decide) (by omega) (by decide) (by omega)
    ((hiff 1 1000 1).mp hcuts)

end runs
end ModCpp.CharString
