import Mathlib.Data.Option.Basic
import ModCpp.CharString
import ModCpp.Runs

/-!
# Value semantics of the character string

Each variable should behave as an independent character sequence. That each buffer has one
owner is a matter of the `data` pointers and the buffers alone, so it is kept apart from
what the buffers contain.
-/

namespace ModCpp.CharString

abbrev Texts (σ : Type) := σ → Option (List UInt8)

/-- Buffers with one owner each: what was made is owned or was freed once. -/
structure Owned {σ ι : Type} (owned : σ → Option ι) (m : Buffers ι) : Prop where
  unshared : ∀ x y b, owned x = some b → owned y = some b → x = y
  alive : ∀ b, (m.cells b).isSome ↔ ∃ x, owned x = some b
  made : ∀ b, b ∈ m.made ↔ (m.cells b).isSome ∨ b ∈ m.freed
  dead : ∀ b ∈ m.freed, m.cells b = none
  made_nodup : m.made.Nodup
  freed_nodup : m.freed.Nodup

section owned
variable {σ ι : Type} {owned : σ → Option ι} {m : Buffers ι} {x y : σ} {b : ι}

theorem Owned.transfer [DecidableEq σ] (h : Owned owned m) (hx : owned x = none) :
    Owned (Function.update (Function.update owned y none) x (owned y)) m := by
  refine ⟨?_, ?_, h.made, h.dead, h.made_nodup, h.freed_nodup⟩
  · intro z w c hz hw
    grind [Function.update_apply, h.unshared z w c, h.unshared z y c, h.unshared w y c]
  · intro c
    rw [h.alive]
    constructor
    · intro ⟨z, hz⟩
      by_cases he : z = y
      · exact ⟨x, by grind [Function.update_apply]⟩
      · exact ⟨z, by grind [Function.update_apply]⟩
    · intro ⟨z, hz⟩
      by_cases he : z = x
      · exact ⟨y, by grind [Function.update_apply]⟩
      · exact ⟨z, by grind [Function.update_apply]⟩

variable [DecidableEq ι]

theorem isSome_update {β : Type} {f : ι → Option β} {o : Option β} {c : ι} :
    (Function.update f b o c).isSome ↔ if c = b then o.isSome else (f c).isSome := by
  by_cases h : c = b
  · subst h
    simp
  · simp [h]

theorem Owned.store {cells : Cells UInt8} (h : Owned owned m) (hx : owned x = some b) :
    Owned owned (m.setArray b cells) := by
  have hsome := (h.alive b).mpr ⟨x, hx⟩
  have hcells : ∀ c, ((m.setArray b cells).cells c).isSome = (m.cells c).isSome := by
    intro c
    rw [Bool.eq_iff_iff, Buffers.setArray, isSome_update]
    split_ifs with hc
    · simp [hc, hsome]
    · rfl
  refine ⟨h.unshared, ?_, ?_, ?_, h.made_nodup, h.freed_nodup⟩
  · intro c
    rw [hcells, h.alive]
  · intro c
    rw [hcells]
    exact h.made c
  · intro c hc
    have hnone := hcells c
    rw [h.dead c hc] at hnone
    simpa using hnone

def withText (m : Buffers ι) (b : ι) (t : List UInt8) : Buffers ι :=
  { m with cells := Function.update m.cells b (some (t.map some)), made := m.made ++ [b] }

def without (m : Buffers ι) (b : ι) : Buffers ι :=
  { m with cells := Function.update m.cells b none, freed := m.freed ++ [b] }

variable [DecidableEq σ]

theorem Owned.make {t : List UInt8} (h : Owned owned m) (hx : owned x = none)
    (hb : b ∉ m.made) : Owned (Function.update owned x (some b)) (withText m b t) := by
  have hfresh : ∀ y, owned y ≠ some b :=
    fun y hy => hb ((h.made b).mpr (.inl ((h.alive b).mpr ⟨y, hy⟩)))
  have hfreed : b ∉ m.freed := fun hf => hb ((h.made b).mpr (.inr hf))
  refine ⟨?_, ?_, ?_, ?_, ?_, h.freed_nodup⟩
  · intro y z c hy hz
    grind [Function.update_apply, h.unshared y z c]
  · intro c
    rw [withText, isSome_update]
    split_ifs with hc
    · exact ⟨fun _ => ⟨x, by simp [hc]⟩, fun _ => rfl⟩
    · rw [h.alive]
      constructor
      · intro ⟨y, hy⟩
        exact ⟨y, by grind [Function.update_apply]⟩
      · intro ⟨y, hy⟩
        exact ⟨y, by grind [Function.update_apply]⟩
  · intro c
    have hmade := h.made c
    simp only [withText, isSome_update, List.mem_append, List.mem_singleton]
    split_ifs with hc
    · simp [hc]
    · simp [hc, hmade]
  · intro c hc
    have hne : c ≠ b := fun he => hfreed (he ▸ hc)
    simpa [withText, hne] using h.dead c hc
  · exact (List.perm_append_singleton b _).nodup_iff.mpr (List.nodup_cons.mpr ⟨hb, h.made_nodup⟩)

theorem Owned.free (h : Owned owned m) (hx : owned x = some b) :
    Owned (Function.update owned x none) (without m b) := by
  have hsome := (h.alive b).mpr ⟨x, hx⟩
  have hfreed : b ∉ m.freed := by
    intro hf
    rw [h.dead b hf] at hsome
    cases hsome
  refine ⟨?_, ?_, ?_, ?_, h.made_nodup, ?_⟩
  · intro y z c hy hz
    grind [Function.update_apply, h.unshared y z c]
  · intro c
    rw [without, isSome_update]
    split_ifs with hc
    · simp only [Option.isSome_none, Bool.false_eq_true, false_iff, not_exists]
      intro y hy
      grind [Function.update_apply, h.unshared x y b]
    · rw [h.alive]
      constructor
      · intro ⟨y, hy⟩
        exact ⟨y, by grind [Function.update_apply]⟩
      · intro ⟨y, hy⟩
        exact ⟨y, by grind [Function.update_apply]⟩
  · intro c
    have hmade := h.made c
    simp only [without, isSome_update, List.mem_append, List.mem_singleton]
    split_ifs with hc
    · simp [hc, (h.made b).mpr (.inl hsome)]
    · simp [hc, hmade]
  · intro c hc
    by_cases he : c = b
    · simp [without, he]
    · have hmem : c ∈ m.freed := by simpa [without, he] using hc
      simpa [without, he] using h.dead c hmem
  · refine (List.perm_append_singleton b _).nodup_iff.mpr ?_
    exact List.nodup_cons.mpr ⟨hfreed, h.freed_nodup⟩

end owned

theorem strlen_cString {text : List UInt8} {rest : Cells UInt8} (h : 0 ∉ text) :
    strlen (cString text rest) = .ok text.length := by
  induction text with
  | nil => rfl
  | cons c text ih =>
    rw [List.mem_cons, not_or] at h
    rw [cString, List.map_cons, List.cons_append, strlen, if_neg (Ne.symm h.1)]
    exact ok_bind (ih h.2)

theorem read_cString {text : List UInt8} {rest : Cells UInt8} (i : ℕ) (h : i < text.length) :
    Cells.read (cString text rest) i = .ok text[i] := by
  refine Cells.read_of ?_
  rw [cString, List.getElem?_append_left (by simpa using h), List.getElem?_map,
    List.getElem?_eq_getElem h]
  rfl

section buffers
variable {ι : Type} {m : Buffers ι} {v : CharString ι} {t : List UInt8} {b : ι}

structure Holds (m : Buffers ι) (v : CharString ι) (t : List UInt8) : Prop where
  len : v.strLen = t.length
  small : t.length < 2 ^ 31
  null : v.data = none → t = []
  chars : ∀ b, v.data = some b → m.cells b = some (t.map some)

theorem array_of {cells : Cells UInt8} (h : m.cells b = some cells) : m.array b = .ok cells := by
  rw [Buffers.array, h]
  rfl

theorem Holds.index (hv : Holds m v t) {i : ℕ} (h : i < t.length) :
    ∃ b, v.data = some b ∧ v.index i = .ok (b, i) := by
  cases hd : v.data with
  | none => simp [hv.null hd] at h
  | some b =>
    refine ⟨b, rfl, ?_⟩
    have hlen := hv.len
    have hsmall := hv.small
    rw [CharString.index, if_neg, hd]
    · rfl
    · rw [size, toUint64_natCast (by omega)]
      omega

theorem Holds.get (hv : Holds m v t) {i : ℕ} (h : i < t.length) : v.get m i = .ok t[i] := by
  obtain ⟨b, hd, hindex⟩ := hv.index h
  rw [CharString.get, ok_bind hindex, ok_bind (array_of (hv.chars b hd))]
  exact Cells.read_map h

theorem Holds.index_error (hv : Holds m v t) {idx : ℤ} (hlt : idx < 2 ^ 31)
    (h : ¬ (0 ≤ idx ∧ idx < t.length)) :
    v.index idx = .error (.exception "index outof bound") := by
  refine if_pos ?_
  by_cases h0 : idx < 0
  · exact .inl h0
  · refine .inr ?_
    rw [size, hv.len, toUint64]
    omega

theorem Holds.frame {m' : Buffers ι} (hv : Holds m v t)
    (h : ∀ b, v.data = some b → m'.cells b = m.cells b) : Holds m' v t :=
  ⟨hv.len, hv.small, hv.null, fun b hd => (h b hd).trans (hv.chars b hd)⟩

variable [DecidableEq ι]

theorem newArray_of (n : ℕ) : m.newArray n b = .ok { m with
    cells := Function.update m.cells b (some (Cells.indeterminate n))
    made := m.made ++ [b] } := if_neg (by omega)

theorem fill_of {src : ℕ → Except Failure UInt8} {made : List ι}
    (hsrc : ∀ i (h : i < t.length), src i = .ok t[i]) :
    Buffers.fill { m with
      cells := Function.update m.cells b (some (Cells.indeterminate t.length))
      made := made } b src t.length = .ok { m with
        cells := Function.update m.cells b (some (t.map some)), made := made } := by
  rw [Buffers.fill, ok_bind (array_of (Function.update_self ..)),
    ok_bind (Cells.fill_indeterminate hsrc)]
  simp only [Buffers.setArray, Function.update_idem]
  rfl

theorem construct_of {rest : Cells UInt8} (ht : t.length < 2 ^ 31) (h : 0 ∉ t) :
    construct m (cString t rest) b = .ok (⟨some b, t.length⟩, withText m b t) := by
  rw [construct, ok_bind (strlen_cString h)]
  simp only [toInt_of_lt ht, Int.toNat_natCast, toUint64_natCast (show t.length < 2 ^ 64 by omega)]
  rw [ok_bind (newArray_of _), ok_bind (fill_of read_cString)]
  rfl

theorem createAndCopy_of (hv : Holds m v t) (hb : ∀ c, v.data = some c → c ≠ b) :
    createAndCopy m v b = .ok (⟨some b, t.length⟩, withText m b t) := by
  have hsmall := hv.small
  have hread : ∀ i (h : i < t.length), v.get { m with
      cells := Function.update m.cells b (some (Cells.indeterminate t.length))
      made := m.made ++ [b] } i = .ok t[i] := by
    intro i h
    refine Holds.get (hv.frame ?_) h
    intro c hc
    exact Function.update_of_ne (hb c hc) _ _
  rw [createAndCopy, size, hv.len]
  simp only [toInt_of_lt hsmall, Int.toNat_natCast,
    toUint64_natCast (show t.length < 2 ^ 64 by omega)]
  rw [ok_bind (newArray_of _), ok_bind (fill_of hread)]
  rfl

theorem construct_lt {m' : Buffers ι} {rest : Cells UInt8}
    (h : construct m (cString t rest) b = .ok (v, m')) (ht : 0 ∉ t) (hlen : v.strLen = t.length) :
    t.length < 2 ^ 31 := by
  have hlt := toInt_lt t.length
  rw [construct, ok_bind (strlen_cString ht)] at h
  generalize toInt t.length = n at h hlt
  obtain ⟨m₁, hnew, h⟩ := bind_ok h
  obtain ⟨m₂, _, h⟩ := bind_ok h
  cases h
  have hn : ¬ n < 0 := by
    intro hneg
    simp [Buffers.newArray, hneg] at hnew
  simp only [toUint64] at hlen
  omega

theorem release_deleteArray {m' : Buffers ι} {v' : CharString ι}
    (h : release m v = .ok (v', m')) : m.deleteArray v.data = .ok m' := by
  cases hd : v.data with
  | none =>
    rw [release, hd] at h
    cases h
    rfl
  | some b =>
    rw [release, hd] at h
    obtain ⟨m₁, hm, he⟩ := bind_ok h
    cases he
    exact hm

theorem holds_withText (ht : t.length < 2 ^ 31) : Holds (withText m b t) ⟨some b, t.length⟩ t := by
  refine ⟨rfl, ht, nofun, ?_⟩
  intro c hc
  cases hc
  exact Function.update_self ..

end buffers

section programs
variable {σ ι : Type} {s : Program σ ι} {texts : Texts σ} {x y : σ} {v : CharString ι}
  {t : List UInt8} {b : ι}

def Program.owned (s : Program σ ι) (x : σ) : Option ι := (s.var x).bind CharString.data

theorem owned_of (hx : s.var x = some v) : s.owned x = v.data := by
  rw [Program.owned, hx, Option.bind_some]

structure Represents (s : Program σ ι) (texts : Texts σ) : Prop where
  holds : ∀ x, Option.Rel (Holds s.buffers) (s.var x) (texts x)
  owned : Owned s.owned s.buffers

theorem Represents.fresh (h : Represents s texts) (hx : s.owned x = some b) {c : ι}
    (hc : c ∉ s.buffers.made) : b ≠ c := by
  intro he
  exact hc ((h.owned.made c).mpr (.inl ((h.owned.alive c).mpr ⟨x, he ▸ hx⟩)))

theorem empty_represents : Represents (.empty : Program σ ι) (fun _ => none) := by
  refine ⟨fun _ => .none, ⟨nofun, ?_, ?_, nofun, List.nodup_nil, List.nodup_nil⟩⟩
  · intro b
    simp [Program.empty, Program.owned]
  · intro b
    simp [Program.empty]

theorem Represents.object (h : Represents s texts) (hx : (s.var x).isSome) :
    ∃ v t, s.var x = some v ∧ s.object x = .ok v ∧ texts x = some t ∧ Holds s.buffers v t := by
  have hrel := h.holds x
  obtain ⟨v, hv⟩ := Option.isSome_iff_exists.mp hx
  rw [hv] at hrel
  generalize ht : texts x = o at hrel
  cases hrel with
  | some hvt =>
    refine ⟨v, _, hv, ?_, rfl, hvt⟩
    rw [Program.object, hv]
    rfl

structure ValueSemantics (s : Program σ ι) (texts : Texts σ) : Prop where
  living : ∀ x, (s.var x).isSome ↔ (texts x).isSome
  size : ∀ x v t, s.var x = some v → texts x = some t → v.size = t.length
  get : ∀ x v t, s.var x = some v → texts x = some t →
    ∀ i (h : i < t.length), v.get s.buffers i = .ok t[i]
  unshared : ∀ x y b, s.owned x = some b → s.owned y = some b → x = y
  freed_nodup : s.buffers.freed.Nodup
  freed_made : ∀ b ∈ s.buffers.freed, b ∈ s.buffers.made ∧ ∀ x, s.owned x ≠ some b
  kept : ∀ b ∈ s.buffers.made, b ∉ s.buffers.freed → ∃ x, s.owned x = some b

theorem Represents.valueSemantics (h : Represents s texts) : ValueSemantics s texts := by
  have hobj : ∀ x v t, s.var x = some v → texts x = some t → Holds s.buffers v t := by
    intro x v t hv ht
    have hrel := h.holds x
    rw [hv, ht] at hrel
    cases hrel with
    | some hold => exact hold
  refine ⟨?_, ?_, ?_, h.owned.unshared, h.owned.freed_nodup, ?_, ?_⟩
  · intro x
    have hrel := h.holds x
    generalize s.var x = o at hrel ⊢
    generalize texts x = ot at hrel ⊢
    cases hrel <;> simp
  · intro x v t hv ht
    exact (hobj x v t hv ht).len
  · intro x v t hv ht i hi
    exact (hobj x v t hv ht).get hi
  · intro b hb
    refine ⟨(h.owned.made b).mpr (.inr hb), ?_⟩
    intro x hx
    have halive := (h.owned.alive b).mpr ⟨x, hx⟩
    rw [h.owned.dead b hb] at halive
    cases halive
  · intro b hb hf
    rcases (h.owned.made b).mp hb with halive | hfreed
    · exact (h.owned.alive b).mp halive
    · exact absurd hfreed hf

variable [DecidableEq σ]

theorem owned_update {var : σ → Option (CharString ι)} {o : Option (CharString ι)}
    {m : Buffers ι} : Program.owned ⟨Function.update var x o, m⟩ =
      Function.update (Program.owned ⟨var, m⟩) x (o.bind CharString.data) := by
  funext z
  by_cases hz : z = x
  · subst hz
    simp [Program.owned]
  · simp [Program.owned, hz]

def Texts.apply (m : Texts σ) : Event σ ι → Texts σ
  | .construct x text _ _ => Function.update m x (some text)
  | .copy x y _ => Function.update m x (m y)
  | .copyAssign x y _ => Function.update m x (m y)
  | .move x y => Function.update (Function.update m y (some [])) x (m y)
  | .moveAssign x y => Function.update (Function.update m y (some [])) x (m y)
  | .write x idx c =>
    if 0 ≤ idx then Function.update m x ((m x).map fun t => t.set idx.toNat c) else m
  | .destroy x => Function.update m x none

theorem holds_update {m m' : Buffers ι} {var : σ → Option (CharString ι)}
    {o : Option (CharString ι)} {ot : Option (List UInt8)}
    (h : ∀ z, Option.Rel (Holds m) (var z) (texts z)) (hx : Option.Rel (Holds m') o ot)
    (hframe : ∀ z ≠ x, ∀ b, (var z).bind CharString.data = some b → m'.cells b = m.cells b) :
    ∀ z, Option.Rel (Holds m') (Function.update var x o z) (Function.update texts x ot z) := by
  intro z
  by_cases hz : z = x
  · subst hz
    simpa using hx
  · have hrel := h z
    have hframe := hframe z hz
    rw [Function.update_of_ne hz, Function.update_of_ne hz]
    generalize var z = oz at hrel hframe
    generalize texts z = otz at hrel
    cases hrel with
    | none => exact .none
    | some hv => exact .some (hv.frame hframe)

theorem Represents.transfer (h : Represents s texts) (hx : s.owned x = none)
    (hy : s.var y = some v) :
    Represents ((s.put y ⟨none, 0⟩).put x v)
      (Function.update (Function.update texts y (some [])) x (texts y)) := by
  obtain ⟨_, t, hv, _, ht, hold⟩ := h.object (by rw [hy]; rfl)
  obtain rfl := Option.some_inj.mp (hy.symm.trans hv)
  rw [ht]
  have hmoved := holds_update h.holds (o := some ⟨none, 0⟩) (x := y)
    (.some ⟨rfl, by decide, fun _ => rfl, nofun⟩) fun _ _ _ _ => rfl
  refine ⟨holds_update hmoved (.some hold) fun _ _ _ _ => rfl, ?_⟩
  simp only [Program.put, owned_update, Option.bind_some]
  exact owned_of hy ▸ h.owned.transfer hx

theorem Represents.drop (h : Represents s texts) (hx : s.owned x = none) :
    Represents { s with var := Function.update s.var x none } (Function.update texts x none) := by
  refine ⟨holds_update h.holds .none fun _ _ _ _ => rfl, ?_⟩
  rw [owned_update, Option.bind_none, ← hx, Function.update_eq_self]
  exact h.owned

variable [DecidableEq ι]

theorem Represents.make (h : Represents s texts) (hx : s.owned x = none)
    (ht : t.length < 2 ^ 31) (hb : b ∉ s.buffers.made) :
    Represents ({ s with buffers := withText s.buffers b t }.put x ⟨some b, t.length⟩)
      (Function.update texts x (some t)) := by
  refine ⟨holds_update h.holds (.some (holds_withText ht)) ?_, ?_⟩
  · intro z _ c hc
    exact Function.update_of_ne (h.fresh hc hb) _ _
  · rw [Program.put, owned_update]
    exact h.owned.make hx hb

theorem Represents.release (h : Represents s texts) (hx : s.var x = some v) :
    ∃ v' m, CharString.release s.buffers v = .ok (v', m) ∧ v'.strLen = 0 ∧
      m.made = s.buffers.made ∧ ({ s with buffers := m }.put x v').owned x = none ∧
      Represents ({ s with buffers := m }.put x v') (Function.update texts x (some [])) := by
  obtain ⟨_, t, hv, _, ht, hold⟩ := h.object (by rw [hx]; rfl)
  obtain rfl := Option.some_inj.mp (hx.symm.trans hv)
  have hempty : ∀ m : Buffers ι, Holds m (⟨none, 0⟩ : CharString ι) [] :=
    fun _ => ⟨rfl, by decide, fun _ => rfl, nofun⟩
  have hnull : ∀ m w, w.data = none → ({ s with buffers := m }.put x w).owned x = none := by
    intro m w hw
    rw [Program.put, owned_update, Function.update_self, Option.bind_some, hw]
  cases hd : v.data with
  | none =>
    obtain rfl := hold.null hd
    refine ⟨v, s.buffers, ?_, hold.len, rfl, hnull _ _ hd, ?_, ?_⟩
    · rw [CharString.release, hd]
      rfl
    · exact holds_update h.holds (.some hold) fun _ _ _ _ => rfl
    · have howned : s.owned x = none := (owned_of hx).trans hd
      rw [Program.put, owned_update, Option.bind_some, hd, ← howned, Function.update_eq_self]
      exact h.owned
  | some b =>
    have howned : s.owned x = some b := (owned_of hx).trans hd
    refine ⟨⟨none, 0⟩, without s.buffers b, ?_, rfl, rfl, hnull _ _ rfl, ?_, ?_⟩
    · rw [CharString.release, hd]
      simp only [Buffers.deleteArray, hold.chars b hd]
      rfl
    · refine holds_update h.holds (.some (hempty _)) ?_
      intro z hz c hc
      have hne : c ≠ b := fun he => hz (h.owned.unshared z x b (he ▸ hc) howned)
      exact Function.update_of_ne hne _ _
    · rw [Program.put, owned_update]
      exact h.owned.free howned

theorem Represents.store {i : ℕ} {c : UInt8} (h : Represents s texts) (hx : s.var x = some v)
    (hv : Holds s.buffers v t) (hd : v.data = some b) :
    Represents { s with buffers := s.buffers.setArray b ((t.set i c).map some) }
      (Function.update texts x (some (t.set i c))) := by
  have howned : s.owned x = some b := (owned_of hx).trans hd
  refine ⟨?_, h.owned.store howned⟩
  have hnew : Holds (s.buffers.setArray b ((t.set i c).map some)) v (t.set i c) := by
    refine ⟨?_, ?_, ?_, ?_⟩
    · rw [List.length_set]
      exact hv.len
    · rw [List.length_set]
      exact hv.small
    · intro hnone
      rw [hd] at hnone
      cases hnone
    · intro b' hb'
      rw [hd] at hb'
      cases hb'
      exact Function.update_self ..
  have hall := holds_update (x := x) h.holds (.some hnew) (by
    intro z hz b' hb'
    have hne : b' ≠ b := fun he => hz (h.owned.unshared z x b (he ▸ hb') howned)
    exact Function.update_of_ne hne _ _)
  intro z
  have hz := hall z
  rwa [← hx, Function.update_eq_self] at hz

/-- Lengths fit in an `int` and a move assignment has nothing to move. -/
def Program.Fits (s : Program σ ι) : Event σ ι → Prop
  | .construct _ text _ _ => text.length < 2 ^ 31
  | .moveAssign _ y => ∀ rhs ∈ s.var y, rhs.size = 0
  | _ => True

instance (s : Program σ ι) : DecidablePred s.Fits := by
  intro e
  cases e <;> (unfold Program.Fits; infer_instance)

theorem Represents.copyAssign (h : Represents s texts)
    (ha : s.Admissible (.copyAssign x y b)) : ∃ s', s.exec (.copyAssign x y b) = .ok s' ∧
      Represents s' (texts.apply (.copyAssign x y b)) := by
  obtain ⟨hx, hy, hb⟩ := ha
  by_cases hxy : x = y
  · subst hxy
    refine ⟨s, if_pos rfl, ?_⟩
    rw [Texts.apply, Function.update_eq_self]
    exact h
  · obtain ⟨v, _, hv, hobj, _⟩ := h.object hx
    obtain ⟨v', m, hrel, _, hmade, hnull, h'⟩ := h.release hv
    have hyx : y ≠ x := fun he => hxy he.symm
    obtain ⟨w, t, hw, hobjw, ht, hold⟩ := h'.object (x := y) (by simpa [Program.put, hyx] using hy)
    have hfresh : b ∉ m.made := by rwa [hmade]
    have hne : ∀ c, w.data = some c → c ≠ b := fun c hc => h'.fresh ((owned_of hw).trans hc) hfresh
    refine ⟨{ ({ s with buffers := m }.put x v') with buffers := withText m b t }.put x
      ⟨some b, t.length⟩, ?_, ?_⟩
    · rw [Program.exec, if_neg hxy, ok_bind hobj, ok_bind hrel]
      exact (ok_bind hobjw).trans (ok_bind (createAndCopy_of hold hne))
    · have hmake := h'.make hnull hold.small hfresh
      rw [Function.update_of_ne hyx] at ht
      rw [Texts.apply, ht]
      simpa only [Program.put, Function.update_idem] using hmake

theorem Represents.moveAssign (h : Represents s texts) (ha : s.Admissible (.moveAssign x y))
    (hf : s.Fits (.moveAssign x y)) : ∃ s', s.exec (.moveAssign x y) = .ok s' ∧
      Represents s' (texts.apply (.moveAssign x y : Event σ ι)) := by
  obtain ⟨hx, hy, hxy⟩ := ha
  obtain ⟨v, _, hv, hobj, _⟩ := h.object hx
  obtain ⟨v', m, hrel, hlen, _, hnull, h'⟩ := h.release hv
  have hyx : y ≠ x := fun he => hxy he.symm
  obtain ⟨w, t, hw, hobjw, ht, hold⟩ := h.object hy
  have hw' : ({ s with buffers := m }.put x v').var y = some w := by
    simpa [Program.put, hyx] using hw
  have hsize : w.strLen = 0 := hf w hw
  refine ⟨({ s with buffers := m }.put y ⟨none, 0⟩).put x ⟨w.data, v'.strLen⟩, ?_, ?_⟩
  · rw [Program.exec, ok_bind (assert_of hxy), ok_bind hobj, ok_bind hrel]
    exact ok_bind hobjw
  · have htransfer := h'.transfer hnull hw'
    have hfields : (⟨w.data, v'.strLen⟩ : CharString ι) = w := by rw [hlen, ← hsize]
    rw [hfields, Texts.apply]
    simpa only [Program.put, Function.update_idem, Function.update_of_ne hyx,
      Function.update_comm hxy] using htransfer

theorem Represents.write {idx : ℤ} {c : UInt8} (h : Represents s texts)
    (ha : s.Admissible (.write x idx c)) : ∃ s', s.exec (.write x idx c) = .ok s' ∧
      Represents s' (texts.apply (.write x idx c : Event σ ι)) := by
  obtain ⟨hx, hlo, hhi⟩ := ha
  obtain ⟨v, t, hv, hobj, ht, hold⟩ := h.object hx
  rw [Program.exec, ok_bind hobj, Texts.apply, ht, Option.map_some]
  by_cases hidx : 0 ≤ idx ∧ idx < t.length
  · obtain ⟨i, rfl⟩ := Int.eq_ofNat_of_zero_le hidx.1
    have hi : i < t.length := by omega
    obtain ⟨b, hd, hindex⟩ := hold.index hi
    have hwrite : Cells.write (t.map some) i c = .ok ((t.set i c).map some) := by
      rw [Cells.write_of (by simpa using hi), List.map_set]
    refine ⟨{ s with buffers := s.buffers.setArray b ((t.set i c).map some) }, ?_, ?_⟩
    · simp only [hindex]
      rw [ok_bind (array_of (hold.chars b hd))]
      exact ok_bind hwrite
    · rw [if_pos hidx.1]
      exact h.store hv hold hd
  · refine ⟨s, ?_, ?_⟩
    · simp only [hold.index_error hhi hidx]
      rfl
    · split_ifs with h0
      · have hlong : t.set idx.toNat c = t := List.set_eq_of_length_le (by omega)
        rw [hlong, ← ht, Function.update_eq_self]
        exact h
      · exact h

theorem Represents.destroy (h : Represents s texts) (ha : s.Admissible (.destroy x)) :
    ∃ s', s.exec (.destroy x) = .ok s' ∧
      Represents s' (texts.apply (.destroy x : Event σ ι)) := by
  obtain ⟨v, t, hv, hobj, ht, hold⟩ := h.object ha
  obtain ⟨v', m, hrel, hlen, _, hnull, h'⟩ := h.release hv
  refine ⟨{ var := Function.update s.var x none, buffers := m }, ?_, ?_⟩
  · rw [Program.exec, ok_bind hobj, ok_bind (release_deleteArray hrel)]
    rfl
  · simpa only [Program.put, Function.update_idem, Texts.apply] using h'.drop hnull

theorem Represents.step {e : Event σ ι} (h : Represents s texts) (ha : s.Admissible e)
    (hf : s.Fits e) : ∃ s', s.exec e = .ok s' ∧ Represents s' (texts.apply e) := by
  have hdead : ∀ x, s.var x = none → s.owned x = none := by
    intro x hx
    rw [Program.owned, hx]
    rfl
  cases e with
  | construct x text rest block =>
    obtain ⟨hx, htext, hblock⟩ := ha
    exact ⟨_, ok_bind (construct_of hf htext), h.make (hdead x hx) hf hblock⟩
  | copy x y block =>
    obtain ⟨hx, hy, hblock⟩ := ha
    obtain ⟨v, t, hv, hobj, ht, hold⟩ := h.object hy
    have hne : ∀ c, v.data = some c → c ≠ block :=
      fun c hc => h.fresh ((owned_of hv).trans hc) hblock
    refine ⟨_, (ok_bind hobj).trans (ok_bind (createAndCopy_of hold hne)), ?_⟩
    rw [Texts.apply, ht]
    exact h.make (hdead x hx) hold.small hblock
  | copyAssign x y block => exact h.copyAssign ha
  | move x y =>
    obtain ⟨hx, hy⟩ := ha
    obtain ⟨v, t, hv, hobj, ht, hold⟩ := h.object hy
    exact ⟨_, ok_bind hobj, h.transfer (hdead x hx) hv⟩
  | moveAssign x y => exact h.moveAssign ha hf
  | write x idx c => exact h.write ha
  | destroy x => exact h.destroy ha

theorem Represents.unfit {e : Event σ ι} {s' : Program σ ι} (h : Represents s texts)
    (ha : s.Admissible e) (hf : ¬ s.Fits e) (he : s.exec e = .ok s') :
    ¬ ValueSemantics s' (texts.apply e) := by
  intro hval
  cases e with
  | construct x text rest block =>
    obtain ⟨⟨this, m⟩, hthis, he⟩ := bind_ok he
    cases he
    have hsize := hval.size x this text (by simp [Program.put]) (by simp [Texts.apply])
    exact hf (construct_lt hthis ha.2.1 hsize)
  | moveAssign x y =>
    obtain ⟨hx, hy, hxy⟩ := ha
    obtain ⟨v, _, hv, hobj, _⟩ := h.object hx
    obtain ⟨v', m, hrel, hlen, _, _, _⟩ := h.release hv
    obtain ⟨w, t, hw, hobjw, ht, hold⟩ := h.object hy
    rw [Program.exec, ok_bind (assert_of hxy), ok_bind hobj, ok_bind hrel] at he
    obtain ⟨w', hw', he⟩ := bind_ok he
    cases he
    have hx' : (({ s with buffers := m }.put y ⟨none, 0⟩).put x ⟨w'.data, v'.strLen⟩).var x =
        some ⟨w'.data, v'.strLen⟩ := Function.update_self ..
    have ht' : texts.apply (.moveAssign x y : Event σ ι) x = some t := by simp [Texts.apply, ht]
    have hsize := hval.size x _ t hx' ht'
    refine hf fun rhs hrhs => ?_
    obtain rfl := Option.some_inj.mp (hw.symm.trans hrhs)
    rw [size, hold.len, ← hsize]
    exact hlen
  | copy x y block => exact hf trivial
  | copyAssign x y block => exact hf trivial
  | move x y => exact hf trivial
  | write x idx c => exact hf trivial
  | destroy x => exact hf trivial

end programs

section runs
variable {σ ι : Type} [DecidableEq σ] [DecidableEq ι] {s : Program σ ι} {tr : List (Event σ ι)}

def programs (σ ι : Type) [DecidableEq σ] [DecidableEq ι] : System (Program σ ι) (Event σ ι) :=
  System.guarded (fun s => s = .empty) Program.Admissible Program.exec

def fittingPrograms (σ ι : Type) [DecidableEq σ] [DecidableEq ι] :
    System (Program σ ι) (Event σ ι) :=
  System.guarded (fun s => s = .empty) (fun s e => s.Admissible e ∧ s.Fits e) Program.exec

def textsAfter (tr : List (Event σ ι)) : Texts σ := history Texts.apply (fun _ => none) tr

theorem run_represents (hr : (fittingPrograms σ ι).Run System.always tr s) :
    Represents s (textsAfter tr) := by
  refine System.run_invariant (P := fun tr s => Represents s (textsAfter tr)) ?_ ?_ hr
  · intro s hs
    subst hs
    exact empty_represents
  · intro tr s e t _ hrep _ ⟨⟨ha, hf⟩, he⟩
    obtain ⟨s', hs', hrep'⟩ := hrep.step ha hf
    obtain rfl := Except.ok.inj (he.symm.trans hs')
    rw [textsAfter, history_concat]
    exact hrep'

theorem values_independent (hr : (fittingPrograms σ ι).Run System.always tr s) :
    ValueSemantics s (textsAfter tr) ∧ ∀ e, s.Admissible e →
      (s.Fits e → ∃ s', s.exec e = .ok s') ∧
      (¬ s.Fits e → ∀ s', s.exec e = .ok s' →
        ¬ ValueSemantics s' (textsAfter (tr ++ [e]))) := by
  have hrep := run_represents hr
  refine ⟨hrep.valueSemantics, ?_⟩
  intro e ha
  constructor
  · intro hf
    obtain ⟨s', hs', _⟩ := hrep.step ha hf
    exact ⟨s', hs'⟩
  · intro hf s' hs'
    rw [textsAfter, history_concat]
    exact hrep.unfit ha hf hs'

end runs

theorem values_independent_sample : ∃ (tr : List (Event ℕ ℕ)) (s : Program ℕ ℕ),
    tr.length = 6 ∧ ValueSemantics s (textsAfter tr) ∧ ∀ e, s.Admissible e →
      (s.Fits e → ∃ s', s.exec e = .ok s') ∧
      (¬ s.Fits e → ∀ s', s.exec e = .ok s' →
        ¬ ValueSemantics s' (textsAfter (tr ++ [e]))) := by
  have hr : ∃ s, (fittingPrograms ℕ ℕ).Run System.always [.construct 0 [97, 98] [] 0, .copy 1 0 1,
      .write 0 1 99, .move 2 0, .copyAssign 0 1 2, .destroy 2] s :=
    ⟨_, System.run_of_exec System.guardedExec_step rfl rfl⟩
  obtain ⟨s, hr⟩ := hr
  exact ⟨_, s, rfl, values_independent hr⟩

/-- The target of a move assignment shows the size 0. -/
theorem values_independent_fails : ¬ ∀ (tr : List (Event ℕ ℕ)) (s : Program ℕ ℕ),
    (programs ℕ ℕ).Run System.always tr s → ValueSemantics s (textsAfter tr) := by
  intro hall
  have hr : ∃ s, (programs ℕ ℕ).Run System.always
      [.construct 0 [97] [] 0, .construct 1 [98] [] 1, .moveAssign 1 0] s ∧
      s.var 1 = some ⟨some 0, 0⟩ :=
    ⟨_, System.run_of_exec System.guardedExec_step rfl rfl, rfl⟩
  obtain ⟨s, hr, hvar⟩ := hr
  have hsize := (hall _ s hr).size 1 _ [97] hvar rfl
  cases hsize

end ModCpp.CharString
