import ModCpp.FiberCount
import ModCpp.SharedPtr
import Mathlib.Data.Set.Insert

/-!
# The counts of the control blocks

The count of a block is the number of variables of a set `A` that hold it, and its object
lives as long. `A` is the set of living variables between two steps; inside a step it leaves
out the variable that is being changed.
-/

namespace ModCpp.SharedPtr
variable {σ ω ι κ : Type*} {s s' : State σ ω ι κ} {A A' : Finset σ} {t u : σ} {b : κ} {x : ι}

/-- The pairs of object and block that the variables of `A` hold, and the null pair. -/
def pairs (A : Finset σ) (s : State σ ω ι κ) : Set (Option ι × Option κ) :=
  {p | p = (none, none) ∨ ∃ t ∈ A, p = ((s.ptr t).data, (s.ptr t).metadata)}

theorem pair_mem_pairs (ht : t ∈ A) : ((s.ptr t).data, (s.ptr t).metadata) ∈ pairs A s :=
  .inr ⟨t, ht, rfl⟩

theorem null_mem_pairs : (none, none) ∈ pairs A s := .inl rfl

theorem matched_mono (hm : ∀ p ∈ pairs A s, ∀ q ∈ pairs A s, p.1 = q.1 ↔ p.2 = q.2)
    (hp : pairs A' s' ⊆ pairs A s) : ∀ p ∈ pairs A' s', ∀ q ∈ pairs A' s', p.1 = q.1 ↔ p.2 = q.2 :=
  fun p hp' q hq' => hm p (hp hp') q (hp hq')

theorem pairs_subset (hf : ∀ v ∈ A, s'.ptr v = s.ptr v) : pairs A s' ⊆ pairs A s := by
  intro p hp
  rcases hp with rfl | ⟨v, hv, rfl⟩
  · exact null_mem_pairs
  · rw [hf v hv]
    exact pair_mem_pairs hv

theorem pairs_erase_subset [DecidableEq σ] (hf : ∀ u ∈ A.erase t, s'.ptr u = s.ptr u) :
    pairs (A.erase t) s' ⊆ pairs A s := by
  intro p hp
  rcases hp with rfl | ⟨u, hu, rfl⟩
  · exact .inl rfl
  · rw [hf u hu]
    exact pair_mem_pairs (Finset.mem_of_mem_erase hu)

theorem pairs_insert_subset [DecidableEq σ] (hf : ∀ v ∈ A, s'.ptr v = s.ptr v)
    (hp : ((s'.ptr t).data, (s'.ptr t).metadata) ∈ pairs A s) :
    pairs (insert t A) s' ⊆ pairs A s := by
  intro p hp'
  rcases hp' with rfl | ⟨v, hv, rfl⟩
  · exact null_mem_pairs
  · rcases Finset.mem_insert.mp hv with rfl | hv
    · exact hp
    · rw [hf v hv]
      exact pair_mem_pairs hv

def holders [DecidableEq κ] (A : Finset σ) (s : State σ ω ι κ) (b : κ) : ℕ :=
  holderCount A (fun t => (s.ptr t).metadata) b

theorem holders_congr [DecidableEq κ] (hf : ∀ u ∈ A, s'.ptr u = s.ptr u) :
    holders A s' b = holders A s b :=
  holderCount_congr fun u hu => by rw [hf u hu]

theorem holders_erase [DecidableEq σ] [DecidableEq κ] (ht : t ∈ A)
    (hf : ∀ u ∈ A.erase t, s'.ptr u = s.ptr u) :
    holders (A.erase t) s' b + (if (s.ptr t).metadata = some b then 1 else 0) = holders A s b := by
  rw [holders_congr hf]
  exact holderCount_erase ht

theorem holders_insert [DecidableEq σ] [DecidableEq κ] (ht : t ∉ A) : holders (insert t A) s b =
    holders A s b + if (s.ptr t).metadata = some b then 1 else 0 := holderCount_insert ht

theorem holders_erase_some [DecidableEq σ] [DecidableEq κ] (ht : t ∈ A)
    (hm : (s.ptr t).metadata = some b) (hf : ∀ u ∈ A.erase t, s'.ptr u = s.ptr u) (b' : κ) :
    holders (A.erase t) s' b' + (if b = b' then 1 else 0) = holders A s b' := by
  rw [← holders_erase ht hf, hm]
  simp

theorem holders_insert_some [DecidableEq σ] [DecidableEq κ] (ht : t ∉ A)
    (hm : (s'.ptr t).metadata = some b) (hf : ∀ u ∈ A, s'.ptr u = s.ptr u) (b' : κ) :
    holders (insert t A) s' b' = holders A s b' + if b = b' then 1 else 0 := by
  rw [holders_insert ht, hm, holders_congr hf]
  simp

def owners [DecidableEq ι] (A : Finset σ) (s : State σ ω ι κ) (x : ι) : ℕ :=
  holderCount A (fun t => (s.ptr t).data) x

theorem owners_congr [DecidableEq ι] (hf : ∀ u ∈ A, s'.ptr u = s.ptr u) :
    owners A s' x = owners A s x :=
  holderCount_congr fun u hu => by rw [hf u hu]

theorem owners_erase [DecidableEq σ] [DecidableEq ι] (ht : t ∈ A)
    (hf : ∀ u ∈ A.erase t, s'.ptr u = s.ptr u) :
    owners (A.erase t) s' x + (if (s.ptr t).data = some x then 1 else 0) = owners A s x := by
  rw [owners_congr hf]
  exact holderCount_erase ht

theorem owners_insert [DecidableEq σ] [DecidableEq ι] (ht : t ∉ A) : owners (insert t A) s x =
    owners A s x + if (s.ptr t).data = some x then 1 else 0 := holderCount_insert ht

theorem owners_insert_null [DecidableEq σ] [DecidableEq ι] (ht : t ∉ A)
    (hd : (s'.ptr t).data = none) (hf : ∀ u ∈ A, s'.ptr u = s.ptr u) :
    owners (insert t A) s' x = owners A s x := by
  rw [owners_insert ht, hd, owners_congr hf]
  simp

theorem owners_erase_null [DecidableEq σ] [DecidableEq ι] (ht : t ∈ A)
    (hd : (s.ptr t).data = none) : owners (A.erase t) s x = owners A s x := by
  rw [← owners_erase ht fun _ _ => rfl, hd]
  simp

theorem owners_erase_some [DecidableEq σ] [DecidableEq ι] (ht : t ∈ A)
    (hd : (s.ptr t).data = some x) (hf : ∀ u ∈ A.erase t, s'.ptr u = s.ptr u) (x' : ι) :
    owners (A.erase t) s' x' + (if x = x' then 1 else 0) = owners A s x' := by
  rw [← owners_erase ht hf, hd]
  simp

theorem owners_insert_some [DecidableEq σ] [DecidableEq ι] (ht : t ∉ A)
    (hd : (s'.ptr t).data = some x) (hf : ∀ u ∈ A, s'.ptr u = s.ptr u) (x' : ι) :
    owners (insert t A) s' x' = owners A s x' + if x = x' then 1 else 0 := by
  rw [owners_insert ht, hd, owners_congr hf]
  simp

theorem addRefcnt_ok [DecidableEq κ] {n d : ℤ} (hb : s.refcnt b = some n)
    (hlo : -intMax - 1 ≤ n + d) (hhi : n + d ≤ intMax) :
    s.addRefcnt b d =
      .ok ({ s with refcnt := Function.update s.refcnt b (some (n + d)) }, n + d) := by
  rw [State.addRefcnt, hb]
  exact if_neg (by omega)

theorem setPtr_self [DecidableEq σ] (p : SharedPointer ω ι κ) : (s.setPtr t p).ptr t = p :=
  Function.update_self ..

theorem setPtr_ne [DecidableEq σ] {p : SharedPointer ω ι κ} (hu : u ≠ t) :
    (s.setPtr t p).ptr u = s.ptr u :=
  Function.update_of_ne hu ..

theorem create_ptr [DecidableEq σ] (ht : t ∉ A) : ∀ v ∈ A, (s.create t).ptr v = s.ptr v :=
  fun _ hv => setPtr_ne (ne_of_mem_of_not_mem hv ht)

theorem share_eq [DecidableEq σ] [DecidableEq κ] (hm : (s.ptr u).metadata = some b) : s.share t u =
    (s.setPtr t { s.ptr t with data := (s.ptr u).data, metadata := some b }).addRefcnt b 1 >>=
      fun r => pure r.1 := by
  rw [State.share]
  simp only [setPtr_self, hm]

theorem take_ptr [DecidableEq σ] (htu : t ≠ u) (v : σ) : (s.take t u).ptr v =
    if v = u then { s.ptr u with data := none, metadata := none }
    else if v = t then { s.ptr t with data := (s.ptr u).data, metadata := (s.ptr u).metadata }
    else s.ptr v := by
  rw [State.take]
  split_ifs with hvu hvt
  · subst hvu
    rw [setPtr_self, setPtr_ne htu.symm]
  · subst hvt
    rw [setPtr_ne hvu, setPtr_self]
  · rw [setPtr_ne hvu, setPtr_ne hvt]

theorem pairs_take_subset [DecidableEq σ] (ht : t ∉ A) (hu : u ∈ A) :
    pairs (insert t A) (s.take t u) ⊆ pairs A s := by
  have htu : t ≠ u := fun he => ht (he ▸ hu)
  intro p hp
  rcases hp with rfl | ⟨v, hv, rfl⟩
  · exact null_mem_pairs
  · rw [take_ptr htu]
    split_ifs with hvu hvt
    · exact null_mem_pairs
    · exact pair_mem_pairs hu
    · exact pair_mem_pairs (Finset.mem_of_mem_insert_of_ne hv hvt)

theorem owners_take [DecidableEq σ] [DecidableEq ι] (ht : t ∉ A) (hu : u ∈ A) :
    owners (insert t A) (s.take t u) x = owners A s x := by
  have htu : t ≠ u := fun he => ht (he ▸ hu)
  rw [owners, owners, ← holderCount_move ht hu]
  congr 1
  funext v
  simp only [take_ptr htu, Function.update_apply]
  split_ifs <;> rfl

theorem take_self_ptr [DecidableEq σ] (v : σ) : (s.take t t).ptr v =
    if v = t then { s.ptr t with data := none, metadata := none } else s.ptr v := by
  rw [State.take]
  split_ifs with hvt
  · subst hvt
    rw [setPtr_self, setPtr_self]
  · rw [setPtr_ne hvt, setPtr_ne hvt]

structure Frame (s s' : State σ ω ι κ) : Prop where
  living : s'.living = s.living
  livingWeak : s'.livingWeak = s.livingWeak
  sharedPtr : s'.sharedPtr = s.sharedPtr
  weakPtrSet : ∀ v, (s'.ptr v).weakPtrSet = (s.ptr v).weakPtrSet

theorem take_frame [DecidableEq σ] : Frame s (s.take t u) := by
  refine ⟨rfl, rfl, rfl, fun v => ?_⟩
  rw [State.take]
  by_cases hvu : v = u
  · subst hvu
    rw [setPtr_self]
    by_cases hvt : v = t
    · subst hvt
      rw [setPtr_self]
    · rw [setPtr_ne hvt]
  · rw [setPtr_ne hvu]
    by_cases hvt : v = t
    · subst hvt
      rw [setPtr_self]
    · rw [setPtr_ne hvt]

variable [DecidableEq ι] [DecidableEq κ]

structure Counted (A : Finset σ) (s : State σ ω ι κ) : Prop where
  matched : ∀ p ∈ pairs A s, ∀ q ∈ pairs A s, p.1 = q.1 ↔ p.2 = q.2
  refcnt : ∀ b, s.refcnt b = if holders A s b = 0 then none else some (holders A s b : ℤ)
  bound : ∀ b, (holders A s b : ℤ) ≤ intMax
  objects : ∀ x, x ∈ s.objects ↔ 0 < owners A s x

/-- From `s` to `s'` exactly the blocks and objects that lost their last holder were deleted,
each once. -/
structure Exact (A : Finset σ) (s : State σ ω ι κ) (A' : Finset σ) (s' : State σ ω ι κ) :
    Prop where
  metadata : ∃ bs, s'.deletedMetadata = s.deletedMetadata ++ bs ∧
    ∀ b, bs.count b = if 0 < holders A s b ∧ holders A' s' b = 0 then 1 else 0
  data : ∃ xs, s'.deletedData = s.deletedData ++ xs ∧
    ∀ x, xs.count x = if 0 < owners A s x ∧ owners A' s' x = 0 then 1 else 0

structure Quiet (A : Finset σ) (s : State σ ω ι κ) (A' : Finset σ) (s' : State σ ω ι κ) :
    Prop where
  deletedMetadata : s'.deletedMetadata = s.deletedMetadata
  deletedData : s'.deletedData = s.deletedData
  holders : ∀ b, 0 < holders A' s' b ↔ 0 < holders A s b
  owners : ∀ x, 0 < owners A' s' x ↔ 0 < owners A s x

theorem Counted.owners_eq (hc : Counted A s) (ht : t ∈ A) (hd : (s.ptr t).data = some x)
    (hm : (s.ptr t).metadata = some b) : owners A s x = holders A s b := by
  rw [owners, holders, holderCount, holderCount]
  congr 1
  apply Finset.filter_congr
  intro u hu
  have hmatch := hc.matched _ (pair_mem_pairs hu) _ (pair_mem_pairs ht)
  rwa [hd, hm] at hmatch

theorem Counted.data_eq_none (hc : Counted A s) (ht : t ∈ A) :
    (s.ptr t).data = none ↔ (s.ptr t).metadata = none :=
  hc.matched _ (pair_mem_pairs ht) _ null_mem_pairs

theorem Counted.of_metadata (hc : Counted A s) (ht : t ∈ A) (hm : (s.ptr t).metadata = some b) :
    0 < holders A s b ∧ s.refcnt b = some (holders A s b : ℤ) := by
  have hpos : 0 < holders A s b := holderCount_pos.mpr ⟨t, ht, hm⟩
  exact ⟨hpos, by rw [hc.refcnt, if_neg hpos.ne']⟩

theorem exact_of_same (hm : s'.deletedMetadata = s.deletedMetadata)
    (hd : s'.deletedData = s.deletedData)
    (hb : ∀ b, 0 < holders A s b → 0 < holders A' s' b)
    (hx : ∀ x, 0 < owners A s x → 0 < owners A' s' x) : Exact A s A' s' := by
  constructor
  · refine ⟨[], by simp [hm], fun b => ?_⟩
    have hb := hb b
    rw [if_neg (by omega), List.count_nil]
  · refine ⟨[], by simp [hd], fun x => ?_⟩
    have hx := hx x
    rw [if_neg (by omega), List.count_nil]

theorem Quiet.exact (hq : Quiet A s A' s') : Exact A s A' s' :=
  exact_of_same hq.deletedMetadata hq.deletedData (fun b => (hq.holders b).mpr)
    fun x => (hq.owners x).mpr

theorem Exact.trans_quiet {A₁ : Finset σ} {s₁ : State σ ω ι κ} (he : Exact A s A₁ s₁)
    (hq : Quiet A₁ s₁ A' s') : Exact A s A' s' := by
  obtain ⟨⟨bs, hbs, hcountb⟩, ⟨xs, hxs, hcountx⟩⟩ := he
  constructor
  · refine ⟨bs, by rw [hq.deletedMetadata, hbs], fun b => ?_⟩
    have hiff := hq.holders b
    have hzero : holders A' s' b = 0 ↔ holders A₁ s₁ b = 0 := by omega
    simp only [hcountb, hzero]
  · refine ⟨xs, by rw [hq.deletedData, hxs], fun x => ?_⟩
    have hiff := hq.owners x
    have hzero : owners A' s' x = 0 ↔ owners A₁ s₁ x = 0 := by omega
    simp only [hcountx, hzero]

theorem Counted.of_same (hc : Counted A s) (hp : pairs A' s' ⊆ pairs A s)
    (hholders : ∀ b, holders A' s' b = holders A s b)
    (howners : ∀ x, owners A' s' x = owners A s x) (href : s'.refcnt = s.refcnt)
    (hobj : s'.objects = s.objects) : Counted A' s' := by
  refine ⟨matched_mono hc.matched hp, ?_, ?_, ?_⟩
  · exact fun b => by rw [hholders, href, hc.refcnt]
  · exact fun b => by rw [hholders]; exact hc.bound b
  · exact fun x => by rw [howners, hobj, hc.objects]

theorem Counted.congr (hc : Counted A s) (hf : ∀ v ∈ A, s'.ptr v = s.ptr v)
    (href : s'.refcnt = s.refcnt) (hobj : s'.objects = s.objects)
    (hlogm : s'.deletedMetadata = s.deletedMetadata) (hlogd : s'.deletedData = s.deletedData) :
    Counted A s' ∧ Quiet A s A s' := by
  refine ⟨hc.of_same (pairs_subset hf) (fun _ => holders_congr hf) (fun _ => owners_congr hf) href
    hobj, ⟨hlogm, hlogd, ?_, ?_⟩⟩
  · exact fun b => by rw [holders_congr hf]
  · exact fun x => by rw [owners_congr hf]

variable [DecidableEq σ]

structure Decreased (A : Finset σ) (s : State σ ω ι κ) (t : σ) (s' : State σ ω ι κ) : Prop where
  counted : Counted (A.erase t) s'
  exact : Exact A s (A.erase t) s'
  frame : Frame s s'
  ptr : ∀ v, v ≠ t → s'.ptr v = s.ptr v

theorem Counted.decrease_last (hc : Counted A s) (ht : t ∈ A) (hd : (s.ptr t).data = some x)
    (hm : (s.ptr t).metadata = some b) (hone : holders A s b = 1) :
    ∃ s', s.decreaseCurrentRefcnt t = .ok s' ∧ Decreased A s t s' := by
  have hown := hc.owners_eq ht hd hm
  have href := (hc.of_metadata ht hm).2
  rw [hone] at hown href
  have hin : x ∈ s.objects := by
    rw [hc.objects]
    omega
  have hmax : (0 : ℤ) ≤ intMax := by decide
  let s₁ : State σ ω ι κ := { s with
    ptr := Function.update s.ptr t ⟨(s.ptr t).weakPtrSet, none, none⟩
    refcnt := Function.update s.refcnt b none
    objects := s.objects.erase x
    deletedData := s.deletedData ++ [x]
    deletedMetadata := s.deletedMetadata ++ [b] }
  have hcall : s.decreaseCurrentRefcnt t = .ok s₁ := by
    let s₂ : State σ ω ι κ := { s with refcnt := Function.update s.refcnt b (some (1 + -1)) }
    have hadd : s.addRefcnt b (-1) = .ok (s₂, 1 + -1) := addRefcnt_ok href (by omega) (by omega)
    have hdata : s₂.deleteData x = .ok { s₂ with
        objects := s.objects.erase x, deletedData := s.deletedData ++ [x] } := if_pos hin
    rw [State.decreaseCurrentRefcnt, hd, hm]
    simp only
    rw [ok_bind hadd]
    simp only
    rw [if_pos (by omega), ok_bind hdata]
    simp only [State.setPtr, State.deleteMetadata, s₂, s₁, Function.update_self,
      Function.update_idem, pure_bind]
    rfl
  have hptr : ∀ u, u ≠ t → s₁.ptr u = s.ptr u := fun u hu => Function.update_of_ne hu ..
  have hrest : ∀ u ∈ A.erase t, s₁.ptr u = s.ptr u := fun u hu => hptr u (Finset.ne_of_mem_erase hu)
  have hholders := holders_erase_some ht hm hrest
  have howners := owners_erase_some ht hd hrest
  refine ⟨s₁, hcall, ?_, ?_, ⟨rfl, rfl, rfl, ?_⟩, hptr⟩
  · constructor
    · exact matched_mono hc.matched (pairs_erase_subset hrest)
    · intro b'
      rw [← counter_down hc.refcnt hholders b', if_pos hone]
    · intro b'
      have hb' := hholders b'
      have hbound := hc.bound b'
      omega
    · intro x'
      have hx' := howners x'
      by_cases hxx : x = x'
      · subst hxx
        rw [if_pos rfl, hown] at hx'
        rw [show owners (A.erase t) s₁ x = 0 by omega]
        simp [s₁]
      · rw [if_neg hxx, Nat.add_zero] at hx'
        rw [hx', ← hc.objects]
        simp [s₁, Ne.symm hxx]
  · constructor
    · exact ⟨[b], rfl, count_last hholders hone⟩
    · exact ⟨[x], rfl, count_last howners hown⟩
  · intro v
    by_cases hv : v = t
    · subst hv
      simp [s₁]
    · rw [hptr v hv]

theorem Counted.decrease_more (hc : Counted A s) (ht : t ∈ A) (hd : (s.ptr t).data = some x)
    (hm : (s.ptr t).metadata = some b) (hmore : holders A s b ≠ 1) :
    ∃ s', s.decreaseCurrentRefcnt t = .ok s' ∧ Decreased A s t s' := by
  obtain ⟨hpos, href⟩ := hc.of_metadata ht hm
  have hown := hc.owners_eq ht hd hm
  have hbound := hc.bound b
  let s₁ : State σ ω ι κ := { s with
    refcnt := Function.update s.refcnt b (some (holders A s b + -1)) }
  have hcall : s.decreaseCurrentRefcnt t = .ok s₁ := by
    have hadd : s.addRefcnt b (-1) = .ok (s₁, holders A s b + -1) :=
      addRefcnt_ok href (by omega) (by omega)
    rw [State.decreaseCurrentRefcnt, hd, hm]
    simp only
    rw [ok_bind hadd]
    exact if_neg (by omega)
  have hrest : ∀ u ∈ A.erase t, s₁.ptr u = s.ptr u := fun _ _ => rfl
  have hholders := holders_erase_some ht hm hrest
  have howners := owners_erase_some ht hd hrest
  have hkeepb : ∀ b', 0 < holders A s b' → 0 < holders (A.erase t) s₁ b' := by
    intro b' hb'
    have hh := hholders b'
    split_ifs at hh with hbb
    · subst hbb
      omega
    · omega
  have hkeepx : ∀ x', 0 < owners A s x' → 0 < owners (A.erase t) s₁ x' := by
    intro x' hx'
    have hh := howners x'
    split_ifs at hh with hxx
    · subst hxx
      omega
    · omega
  refine ⟨s₁, hcall, ?_, exact_of_same rfl rfl hkeepb hkeepx, ⟨rfl, rfl, rfl, fun _ => rfl⟩,
    fun _ _ => rfl⟩
  constructor
  · exact matched_mono hc.matched (pairs_erase_subset hrest)
  · intro b'
    rw [← counter_down hc.refcnt hholders b', if_neg hmore]
    rfl
  · intro b'
    have hb' := hholders b'
    have hbound := hc.bound b'
    omega
  · intro x'
    have hx' := howners x'
    have hkeep := hkeepx x'
    change x' ∈ s.objects ↔ _
    rw [hc.objects]
    omega

theorem Counted.decrease_null (hc : Counted A s) (ht : t ∈ A) (hd : (s.ptr t).data = none) :
    ∃ s', s.decreaseCurrentRefcnt t = .ok s' ∧ Decreased A s t s' := by
  have hm := (hc.data_eq_none ht).mp hd
  have hcall : s.decreaseCurrentRefcnt t = .ok s := by
    rw [State.decreaseCurrentRefcnt, hd]
    rfl
  have hholders : ∀ b', holders (A.erase t) s b' = holders A s b' := by
    intro b'
    rw [← holders_erase ht fun _ _ => rfl, hm]
    simp
  have howners : ∀ x', owners (A.erase t) s x' = owners A s x' := fun _ => owners_erase_null ht hd
  refine ⟨s, hcall, ?_, ?_, ⟨rfl, rfl, rfl, fun _ => rfl⟩, fun _ _ => rfl⟩
  · exact hc.of_same (pairs_erase_subset fun _ _ => rfl) hholders howners rfl rfl
  · exact exact_of_same rfl rfl (fun b' => by rw [hholders]; exact id)
      fun x' => by rw [howners]; exact id

theorem Counted.decrease (hc : Counted A s) (ht : t ∈ A) :
    ∃ s', s.decreaseCurrentRefcnt t = .ok s' ∧ Decreased A s t s' := by
  cases hd : (s.ptr t).data with
  | none => exact hc.decrease_null ht hd
  | some x =>
    cases hm : (s.ptr t).metadata with
    | none => simp [(hc.data_eq_none ht).mpr hm] at hd
    | some b =>
      by_cases hone : holders A s b = 1
      · exact hc.decrease_last ht hd hm hone
      · exact hc.decrease_more ht hd hm hone

theorem Counted.insert_null (hc : Counted A s) (ht : t ∉ A)
    (hf : ∀ v ∈ A, s'.ptr v = s.ptr v) (hd : (s'.ptr t).data = none)
    (hm : (s'.ptr t).metadata = none) (href : s'.refcnt = s.refcnt)
    (hobj : s'.objects = s.objects) (hlogm : s'.deletedMetadata = s.deletedMetadata)
    (hlogd : s'.deletedData = s.deletedData) :
    Counted (insert t A) s' ∧ Quiet A s (insert t A) s' := by
  have hholders : ∀ b, holders (insert t A) s' b = holders A s b := by
    intro b
    rw [holders_insert ht, hm, holders_congr hf]
    simp
  have howners : ∀ x, owners (insert t A) s' x = owners A s x :=
    fun _ => owners_insert_null ht hd hf
  refine ⟨hc.of_same (pairs_insert_subset hf ?_) hholders howners href hobj,
    ⟨hlogm, hlogd, ?_, ?_⟩⟩
  · rw [hd, hm]
    exact null_mem_pairs
  · exact fun b => by rw [hholders]
  · exact fun x => by rw [howners]

theorem Counted.create (hc : Counted A s) (ht : t ∉ A) :
    Counted (insert t A) (s.create t) ∧ Quiet A s (insert t A) (s.create t) := by
  have hself : (s.create t).ptr t = ⟨∅, none, none⟩ := setPtr_self ..
  exact hc.insert_null ht (create_ptr ht) (by rw [hself]) (by rw [hself]) rfl rfl rfl rfl

theorem Counted.share (hc : Counted A s) (ht : t ∉ A) (hu : u ∈ A)
    (hm : (s.ptr u).metadata = some b) :
    ((holders A s b : ℤ) = intMax ∧ s.share t u = .error (.undefined "refcnt overflows")) ∨
    (holders A s b : ℤ) ≠ intMax ∧ ∃ s', s.share t u = .ok s' ∧ Counted (insert t A) s' ∧
      Quiet A s (insert t A) s' ∧ Frame s s' := by
  obtain ⟨hpos, href⟩ := hc.of_metadata hu hm
  have hbound := hc.bound b
  let s₁ := s.setPtr t { s.ptr t with data := (s.ptr u).data, metadata := some b }
  rw [share_eq hm]
  by_cases hmax : (holders A s b : ℤ) = intMax
  · refine .inl ⟨hmax, ?_⟩
    have hadd : s₁.addRefcnt b 1 = .error (.undefined "refcnt overflows") := by
      rw [State.addRefcnt, show s₁.refcnt b = _ from href]
      exact if_pos (by omega)
    rw [hadd]
    rfl
  · refine .inr ⟨hmax, ?_⟩
    let s₂ : State σ ω ι κ := { s₁ with
      refcnt := Function.update s.refcnt b (some (holders A s b + 1)) }
    have hadd : s₁.addRefcnt b 1 = .ok (s₂, holders A s b + 1) :=
      addRefcnt_ok href (by omega) (by omega)
    have hrest : ∀ v ∈ A, s₂.ptr v = s.ptr v := fun v hv => setPtr_ne (ne_of_mem_of_not_mem hv ht)
    have hself : s₂.ptr t = { s.ptr t with data := (s.ptr u).data, metadata := some b } :=
      setPtr_self ..
    have hholders := holders_insert_some ht (by rw [hself] : (s₂.ptr t).metadata = some b) hrest
    have howners : ∀ x, 0 < owners (insert t A) s₂ x ↔ 0 < owners A s x := by
      intro x
      rw [owners_insert ht, hself, owners_congr hrest]
      split_ifs with hx
      · have hpos : 0 < owners A s x := holderCount_pos.mpr ⟨u, hu, hx⟩
        omega
      · rfl
    refine ⟨s₂, ok_bind hadd, ⟨matched_mono hc.matched (pairs_insert_subset hrest ?_), ?_, ?_, ?_⟩,
      ⟨rfl, rfl, ?_, howners⟩, ⟨rfl, rfl, rfl, ?_⟩⟩
    · rw [hself, ← hm]
      exact pair_mem_pairs hu
    · intro b'
      exact counter_up hc.refcnt hholders b'
    · intro b'
      rw [hholders]
      have hbound' := hc.bound b'
      split_ifs with hbb
      · subst hbb
        omega
      · exact hbound'
    · exact fun x => by rw [howners, ← hc.objects]; rfl
    · intro b'
      rw [hholders]
      split_ifs with hbb
      · subst hbb
        omega
      · rfl
    · intro v
      by_cases hv : v = t
      · subst hv
        rw [hself]
      · rw [show s₂.ptr v = s.ptr v from setPtr_ne hv]

theorem Counted.take (hc : Counted A s) (ht : t ∉ A) (hu : u ∈ A) :
    Counted (insert t A) (s.take t u) ∧ Quiet A s (insert t A) (s.take t u) := by
  have htu : t ≠ u := fun he => ht (he ▸ hu)
  have hholders : ∀ b, holders (insert t A) (s.take t u) b = holders A s b := by
    intro b
    rw [holders, holders, ← holderCount_move ht hu]
    congr 1
    funext v
    simp only [take_ptr htu, Function.update_apply]
    split_ifs <;> rfl
  have howners : ∀ x, owners (insert t A) (s.take t u) x = owners A s x :=
    fun _ => owners_take ht hu
  refine ⟨hc.of_same (pairs_take_subset ht hu) hholders howners rfl rfl, ⟨rfl, rfl, ?_, ?_⟩⟩
  · exact fun b => by rw [hholders]
  · exact fun x => by rw [howners]

theorem Counted.take_self (hc : Counted A s) (ht : t ∉ A) :
    Counted (insert t A) (s.take t t) ∧ Quiet A s (insert t A) (s.take t t) := by
  have hrest : ∀ v ∈ A, (s.take t t).ptr v = s.ptr v := by
    intro v hv
    rw [take_self_ptr, if_neg (ne_of_mem_of_not_mem hv ht)]
  have hself : (s.take t t).ptr t = { s.ptr t with data := none, metadata := none } := by
    rw [take_self_ptr, if_pos rfl]
  exact hc.insert_null ht hrest (by rw [hself]) (by rw [hself]) rfl rfl rfl rfl

theorem Counted.fromRaw (hc : Counted A s) (ht : t ∉ A) (hx : x ∉ s.objects)
    (hb : s.refcnt b = none) : Counted (insert t A) (s.fromRaw t (some x) b) ∧
      Exact A s (insert t A) (s.fromRaw t (some x) b) := by
  have hrest : ∀ v ∈ A, (s.fromRaw t (some x) b).ptr v = s.ptr v := by
    intro v hv
    have hvt : v ≠ t := ne_of_mem_of_not_mem hv ht
    exact (setPtr_ne hvt).trans (setPtr_ne hvt)
  have hself : (s.fromRaw t (some x) b).ptr t = ⟨∅, some b, some x⟩ := by
    apply (setPtr_self _).trans
    rw [State.create, setPtr_self]
  have hnob : holders A s b = 0 := by
    have href := hc.refcnt b
    rw [hb] at href
    split_ifs at href with hzero
    · exact hzero
  have hnox : owners A s x = 0 := by
    have hobj := hc.objects x
    simp only [hx, false_iff] at hobj
    omega
  have hholders := holders_insert_some (b := b) ht (by rw [hself]) hrest
  have howners := owners_insert_some (x := x) ht (by rw [hself]) hrest
  have hfreshb : ∀ p ∈ pairs A s, p.2 ≠ some b := by
    intro p hp
    rcases hp with rfl | ⟨v, hv, rfl⟩
    · simp
    · exact holderCount_eq_zero.mp hnob v hv
  have hfreshx : ∀ p ∈ pairs A s, p.1 ≠ some x := by
    intro p hp
    rcases hp with rfl | ⟨v, hv, rfl⟩
    · simp
    · exact holderCount_eq_zero.mp hnox v hv
  have hpairs : ∀ p ∈ pairs (insert t A) (s.fromRaw t (some x) b),
      p = (some x, some b) ∨ p ∈ pairs A s := by
    intro p hp
    rcases hp with rfl | ⟨v, hv, rfl⟩
    · exact .inr null_mem_pairs
    · rcases Finset.mem_insert.mp hv with rfl | hv
      · exact .inl (by rw [hself])
      · rw [hrest v hv]
        exact .inr (pair_mem_pairs hv)
  have hmax : (1 : ℤ) ≤ intMax := by decide
  constructor
  · refine ⟨?_, ?_, ?_, ?_⟩
    · intro p hp q hq
      rcases hpairs p hp with rfl | hp <;> rcases hpairs q hq with rfl | hq
      · simp
      · simp [Ne.symm (hfreshb q hq), Ne.symm (hfreshx q hq)]
      · simp [hfreshb p hp, hfreshx p hp]
      · exact hc.matched p hp q hq
    · intro b'
      rw [← counter_up hc.refcnt hholders b', hnob]
      rfl
    · intro b'
      rw [hholders]
      have hbound := hc.bound b'
      split_ifs with hbb
      · subst hbb
        rw [hnob]
        omega
      · exact hbound
    · intro x'
      rw [howners]
      have hobj := hc.objects x'
      change x' ∈ insert x s.objects ↔ _
      rw [Finset.mem_insert, hobj]
      by_cases hxx : x = x'
      · simp [hxx]
      · rw [if_neg hxx]
        simp [Ne.symm hxx]
  · refine exact_of_same rfl rfl ?_ ?_
    · intro b' hpos
      rw [hholders]
      omega
    · intro x' hpos
      rw [howners]
      omega

end ModCpp.SharedPtr
