import ModCpp.SharedPtrView

/-!
# Owners in any program

A raw pointer may be null, and then its control block belongs to no object and its count is
never taken down. A block that does belong to an object counts the owners of the object, as
long as it exists, in every program with shared and weak pointers.
-/

namespace ModCpp.SharedPtr
variable {σ ω ι κ : Type*} {s s' : State σ ω ι κ} {A A' : Finset σ} {t u : σ} {b : κ} {x : ι}
  {d : Option ι} {m : Option κ}

theorem mem_pairs (h : (some x, m) ∈ pairs A s) :
    ∃ v ∈ A, (s.ptr v).data = some x ∧ (s.ptr v).metadata = m := by
  rcases h with h | ⟨v, hv, h⟩
  · cases h
  · obtain ⟨hd, hm⟩ := Prod.mk.inj h
    exact ⟨v, hv, hd.symm, hm.symm⟩

variable [DecidableEq ι]

theorem owners_pos (h : (some x, m) ∈ pairs A s) : 0 < owners A s x := by
  obtain ⟨v, hv, hd, _⟩ := mem_pairs h
  exact holderCount_pos.mpr ⟨v, hv, hd⟩

/-- The count of an object's block is that of its owners, and nobody owns what is gone. -/
structure Owned (A : Finset σ) (s : State σ ω ι κ) : Prop where
  matched : ∀ p ∈ pairs A s, ∀ q ∈ pairs A s, p.1 ≠ none → (p.1 = q.1 ↔ p.2 = q.2)
  refcnt : ∀ x b, (some x, some b) ∈ pairs A s → s.refcnt b = some (owners A s x : ℤ)
  block : ∀ d b, (d, some b) ∈ pairs A s → ∃ n, s.refcnt b = some n ∧ 0 < n ∧ n ≤ intMax
  objects : ∀ x, x ∈ s.objects ↔ 0 < owners A s x
  gone : ∀ x ∈ s.deletedData, x ∉ s.objects

structure Fits (A : Finset σ) (s : State σ ω ι κ) (d : Option ι) (b : κ) : Prop where
  matched : ∀ q ∈ pairs A s, q.1 ≠ none → (q.1 = d ↔ q.2 = some b)
  held : d ≠ none → (d, some b) ∈ pairs A s
  counted : ∃ n, s.refcnt b = some n ∧ 0 < n

namespace Owned

theorem of_same (ho : Owned A s) (hp : pairs A' s' ⊆ pairs A s)
    (howners : ∀ x, owners A' s' x = owners A s x) (href : s'.refcnt = s.refcnt)
    (hobj : s'.objects = s.objects) (hdel : s'.deletedData = s.deletedData) : Owned A' s' := by
  refine ⟨?_, ?_, ?_, ?_, ?_⟩
  · exact fun p hp' q hq' => ho.matched p (hp hp') q (hp hq')
  · intro x b hx
    rw [href, howners]
    exact ho.refcnt x b (hp hx)
  · intro d b hb
    rw [href]
    exact ho.block d b (hp hb)
  · intro x
    rw [hobj, howners]
    exact ho.objects x
  · intro x hx
    rw [hobj]
    exact ho.gone x (hdel ▸ hx)

theorem mem_objects (ho : Owned A s) (h : (some x, m) ∈ pairs A s) : x ∈ s.objects :=
  (ho.objects x).mpr (owners_pos h)

theorem metadata (ho : Owned A s) (h : (some x, m) ∈ pairs A s) : ∃ b, m = some b := by
  have hnull := ho.matched _ h _ null_mem_pairs (by simp)
  simp only [reduceCtorEq, false_iff] at hnull
  exact Option.ne_none_iff_exists'.mp hnull

theorem unique (ho : Owned A s) (h : (some x, some b) ∈ pairs A s)
    (h' : (d, some b) ∈ pairs A s) : d = some x :=
  ((ho.matched _ h _ h' (by simp)).mpr rfl).symm

theorem fits (ho : Owned A s) (h : (d, some b) ∈ pairs A s) : Fits A s d b where
  matched q hq hne := ho.matched q hq _ h hne
  held _ := h
  counted := by
    obtain ⟨n, hn, hpos, _⟩ := ho.block d b h
    exact ⟨n, hn, hpos⟩

theorem of_ptr (ho : Owned A s) (hd : ∀ v ∈ A, (s'.ptr v).data = (s.ptr v).data)
    (hm : ∀ v ∈ A, (s'.ptr v).metadata = (s.ptr v).metadata) (href : s'.refcnt = s.refcnt)
    (hobj : s'.objects = s.objects) (hdel : s'.deletedData = s.deletedData) : Owned A s' := by
  refine ho.of_same ?_ (fun _ => holderCount_congr hd) href hobj hdel
  intro p hp
  rcases hp with rfl | ⟨v, hv, rfl⟩
  · exact null_mem_pairs
  · rw [hd v hv, hm v hv]
    exact pair_mem_pairs hv

variable [DecidableEq σ]

theorem setSubscribers {W : Finset ω} (ho : Owned A s) :
    Owned A (s.setPtr t { s.ptr t with weakPtrSet := W }) := by
  refine ho.of_ptr (fun v _ => ?_) (fun v _ => ?_) rfl rfl rfl
  all_goals
    by_cases hv : v = t
    · subst hv
      rw [setPtr_self]
    · rw [setPtr_ne hv]

theorem cancelSubscription [DecidableEq ω] {w : ω} (ho : Owned A s)
    (h : s.cancelSubscription w = .ok s') : Owned A s' ∧ s'.living = s.living := by
  rcases cancel_cases h with rfl | ⟨t, W, rfl⟩
  · exact ⟨ho, rfl⟩
  · exact ⟨ho.setSubscribers, rfl⟩

theorem create (ho : Owned A s) (ht : t ∉ A) : Owned (insert t A) (s.create t) := by
  have hself : (s.create t).ptr t = ⟨∅, none, none⟩ := setPtr_self ..
  refine ho.of_same (pairs_insert_subset (create_ptr ht) ?_)
    (fun _ => owners_insert_null ht (by rw [hself]) (create_ptr ht)) rfl rfl rfl
  rw [hself]
  exact null_mem_pairs

theorem take (ho : Owned A s) (ht : t ∉ A) (hu : u ∈ A) : Owned (insert t A) (s.take t u) :=
  ho.of_same (pairs_take_subset ht hu) (fun _ => owners_take ht hu) rfl rfl rfl

theorem take_self (ho : Owned A s) (ht : t ∉ A) : Owned (insert t A) (s.take t t) := by
  have hrest : ∀ v ∈ A, (s.take t t).ptr v = s.ptr v := by
    intro v hv
    rw [take_self_ptr, if_neg (ne_of_mem_of_not_mem hv ht)]
  have hself : (s.take t t).ptr t = { s.ptr t with data := none, metadata := none } := by
    rw [take_self_ptr, if_pos rfl]
  refine ho.of_same (pairs_insert_subset hrest ?_)
    (fun _ => owners_insert_null ht (by rw [hself]) hrest) rfl rfl rfl
  rw [hself]
  exact null_mem_pairs

variable [DecidableEq κ]

theorem leave (ho : Owned A s) (ht : t ∈ A) (hd : (s.ptr t).data = some x)
    (hm : (s.ptr t).metadata = some b) {n : ℤ} (hn : s.refcnt b = some n)
    (hptr : ∀ v ∈ A.erase t, s'.ptr v = s.ptr v) (hrest : ∀ b', b' ≠ b → s'.refcnt b' = s.refcnt b')
    (hless : n ≠ 1 → s'.refcnt b = some (n - 1))
    (hobj : ∀ x', x' ∈ s'.objects ↔ x' ∈ s.objects ∧ (n ≠ 1 ∨ x' ≠ x))
    (hgone : ∀ x' ∈ s'.deletedData, x' ∉ s'.objects) : Owned (A.erase t) s' := by
  have hsub := pairs_erase_subset hptr
  have hpair : (some x, some b) ∈ pairs A s := by
    rw [← hd, ← hm]
    exact pair_mem_pairs ht
  have hcount : n = owners A s x := by
    have href := ho.refcnt x b hpair
    rw [hn] at href
    exact Option.some_inj.mp href
  obtain ⟨n', hn', _, hmax⟩ := ho.block _ b hpair
  obtain rfl : n = n' := by
    rw [hn] at hn'
    exact Option.some_inj.mp hn'
  have howners := owners_erase_some ht hd hptr
  have hself := howners x
  rw [if_pos rfl] at hself
  have hmore : ∀ {m}, (some x, m) ∈ pairs (A.erase t) s' → n ≠ 1 := by
    intro m hx
    have hpos := owners_pos hx
    omega
  refine ⟨?_, ?_, ?_, ?_, hgone⟩
  · exact fun p hp q hq => ho.matched p (hsub hp) q (hsub hq)
  · intro x' b' hx
    by_cases hbb : b' = b
    · subst hbb
      obtain rfl : x' = x := Option.some_inj.mp (ho.unique hpair (hsub hx))
      rw [hless (hmore hx), Option.some_inj]
      omega
    · have hxx : x ≠ x' := by
        intro he
        subst he
        exact hbb (Option.some_inj.mp ((ho.matched _ (hsub hx) _ hpair (by simp)).mp rfl))
      have hx' := howners x'
      rw [if_neg hxx] at hx'
      rw [hrest b' hbb, ho.refcnt x' b' (hsub hx), Option.some_inj]
      omega
  · intro d b' hb
    by_cases hbb : b' = b
    · subst hbb
      obtain rfl : d = some x := ho.unique hpair (hsub hb)
      have hpos := owners_pos hb
      exact ⟨n - 1, hless (hmore hb), by omega, by omega⟩
    · rw [hrest b' hbb]
      exact ho.block d b' (hsub hb)
  · intro x'
    have hx' := howners x'
    rw [hobj, ho.objects]
    by_cases hxx : x = x'
    · subst hxx
      simp only [ne_eq, not_true_eq_false, or_false]
      omega
    · simp only [hxx, if_false, Nat.add_zero] at hx'
      rw [hx']
      simp [Ne.symm hxx]

theorem decrease (ho : Owned A s) (ht : t ∈ A) (h : s.decreaseCurrentRefcnt t = .ok s') :
    Owned (A.erase t) s' := by
  rcases decrease_cases h with ⟨hd, rfl⟩ | ⟨x, b, n, hd, hm, hn, ⟨hone, rfl⟩ | ⟨rfl, rfl⟩⟩
  · exact ho.of_same (pairs_erase_subset fun _ _ => rfl) (fun _ => owners_erase_null ht hd) rfl rfl
      rfl
  · refine ho.leave ht hd hm hn (fun _ _ => rfl) ?_ ?_ (fun _ => by simp [hone]) ho.gone
    · exact fun b' hb => Function.update_of_ne hb ..
    · exact fun _ => Function.update_self ..
  · refine ho.leave ht hd hm hn ?_ ?_ (fun hone => absurd rfl hone) ?_ ?_
    · exact fun v hv => Function.update_of_ne (Finset.ne_of_mem_erase hv) ..
    · exact fun b' hb => Function.update_of_ne hb ..
    · intro x'
      rw [Finset.mem_erase]
      simp [and_comm]
    · intro x' hx hmem
      obtain ⟨hne, hmem⟩ := Finset.mem_erase.mp hmem
      rcases List.mem_append.mp hx with hx | hx
      · exact ho.gone x' hx hmem
      · exact hne (List.mem_singleton.mp hx)

theorem fits_decreased (ho : Owned A s) (ht : t ∈ A) (h : s.decreaseCurrentRefcnt t = .ok s')
    (hb : (s'.ptr t).metadata = some b) : Fits (A.erase t) s' (s'.ptr t).data b := by
  have hpair := pair_mem_pairs (s := s) ht
  rcases decrease_cases h with ⟨hd, rfl⟩ | ⟨x, b', n, hd, hm, hn, ⟨hone, rfl⟩ | ⟨rfl, rfl⟩⟩
  · rw [hb] at hpair
    refine ⟨fun q hq hne => ?_, fun hne => absurd hd hne, (ho.fits hpair).counted⟩
    exact ho.matched q (pairs_erase_subset (fun _ _ => rfl) hq) _ hpair hne
  · have hleft := ho.decrease ht h
    rw [hd, hb] at hpair
    have hcount := ho.refcnt x b hpair
    have hself : owners (A.erase t) s x + (if x = x then 1 else 0) = owners A s x :=
      owners_erase_some ht hd (fun _ _ => rfl) x
    rw [if_pos rfl] at hself
    obtain rfl : b' = b := by
      rw [hm] at hb
      exact Option.some_inj.mp hb
    rw [hn, Option.some_inj] at hcount
    have hpos : 0 < owners (A.erase t) s x := by omega
    obtain ⟨v, hv, hvx⟩ := holderCount_pos.mp hpos
    have hvpair := pair_mem_pairs (s := s) (Finset.mem_of_mem_erase hv)
    have hvb : some b' = (s.ptr v).metadata :=
      (ho.matched _ hpair _ hvpair (by simp)).mp hvx.symm
    have hother : (some x, some b') ∈ pairs (A.erase t) s := by
      have hv' := pair_mem_pairs (s := s) hv
      rw [hvx, ← hvb] at hv'
      exact hv'
    rw [hd]
    exact hleft.fits hother
  · simp at hb

theorem join (ho : Owned A s) (ht : t ∉ A) (hptr : ∀ v ∈ A, s'.ptr v = s.ptr v)
    (hself : ((s'.ptr t).data, (s'.ptr t).metadata) = (d, some b)) {n : ℤ}
    (hout : ∀ q ∈ pairs A s, q.1 ≠ none → (q.1 = d ↔ q.2 = some b))
    (hin : ∀ q ∈ pairs A s, d ≠ none → (d = q.1 ↔ some b = q.2))
    (hrest : ∀ b', b' ≠ b → s'.refcnt b' = s.refcnt b') (hmore : s'.refcnt b = some n)
    (hn : 0 < n ∧ n ≤ intMax) (hcount : ∀ x, d = some x → n = owners A s x + 1)
    (hobj : ∀ x, x ∈ s'.objects ↔ x ∈ s.objects ∨ d = some x)
    (hgone : ∀ x' ∈ s'.deletedData, x' ∉ s'.objects) : Owned (insert t A) s' := by
  have hpairs : ∀ p ∈ pairs (insert t A) s', p = (d, some b) ∨ p ∈ pairs A s := by
    intro p hp
    rcases hp with rfl | ⟨v, hv, rfl⟩
    · exact .inr null_mem_pairs
    · rcases Finset.mem_insert.mp hv with rfl | hv
      · exact .inl hself
      · rw [hptr v hv]
        exact .inr (pair_mem_pairs hv)
  have howners : ∀ x, owners (insert t A) s' x = owners A s x + if d = some x then 1 else 0 := by
    intro x
    rw [owners_insert ht, owners_congr hptr, (Prod.mk.inj hself).1]
  have hgrow : ∀ x, d = some x → n = owners (insert t A) s' x := by
    intro x hx
    rw [howners, if_pos hx, hcount x hx]
    rfl
  refine ⟨?_, ?_, ?_, ?_, hgone⟩
  · intro p hp q hq hne
    rcases hpairs p hp with rfl | hp
    · rcases hpairs q hq with rfl | hq
      · simp
      · exact hin q hq hne
    · rcases hpairs q hq with rfl | hq
      · exact hout p hp hne
      · exact ho.matched p hp q hq hne
  · intro x b' hx
    by_cases hbb : b' = b
    · subst hbb
      have hd : some x = d := by
        rcases hpairs _ hx with he | hx
        · exact (Prod.mk.inj he).1
        · exact (hout _ hx (by simp)).mpr rfl
      rw [hmore, hgrow x hd.symm]
    · rcases hpairs _ hx with he | hx
      · exact absurd (Option.some_inj.mp (Prod.mk.inj he).2) hbb
      · have hd : d ≠ some x :=
          fun hd => hbb (Option.some_inj.mp ((hout _ hx (by simp)).mp hd.symm))
        rw [hrest b' hbb, howners, if_neg hd, ho.refcnt x b' hx]
        rfl
  · intro d' b' hb
    by_cases hbb : b' = b
    · subst hbb
      exact ⟨n, hmore, hn⟩
    · rw [hrest b' hbb]
      rcases hpairs _ hb with he | hb
      · exact absurd (Option.some_inj.mp (Prod.mk.inj he).2) hbb
      · exact ho.block d' b' hb
  · intro x
    rw [hobj, howners, ho.objects]
    split_ifs with hx
    · simp [hx]
    · simp [hx]

theorem share (ho : Owned A s) (ht : t ∉ A) (hm : (s.ptr u).metadata = some b)
    (hf : Fits A s (s.ptr u).data b) (h : s.share t u = .ok s') : Owned (insert t A) s' := by
  obtain ⟨b', n, hb', hn', hmax, rfl⟩ := share_cases h
  obtain rfl : b = b' := by
    rw [hm] at hb'
    exact Option.some_inj.mp hb'
  obtain ⟨n₁, hn₁, hpos⟩ := hf.counted
  obtain rfl : n₁ = n := by
    rw [hn₁] at hn'
    exact Option.some_inj.mp hn'
  refine ho.join ht ?_ ?_ hf.matched ?_ ?_ (Function.update_self ..) ⟨by omega, hmax⟩ ?_ ?_ ho.gone
  · exact fun v hv => Function.update_of_ne (ne_of_mem_of_not_mem hv ht) ..
  · simp [hm]
  · exact fun q hq hne => ho.matched _ (hf.held hne) q hq hne
  · exact fun b' hb => Function.update_of_ne hb ..
  · intro x hx
    have hheld := hf.held (by simp [hx])
    rw [hx] at hheld
    rw [ho.refcnt x b hheld, Option.some_inj] at hn₁
    omega
  · intro x
    refine ⟨.inl, fun h => h.elim id ?_⟩
    intro hx
    have hheld := hf.held (by simp [hx])
    rw [hx] at hheld
    exact ho.mem_objects hheld

theorem fromRaw (ho : Owned A s) (ht : t ∉ A) (hb : s.refcnt b = none)
    (hd : ∀ x ∈ d, x ∉ s.objects ∧ x ∉ s.deletedData) : Owned (insert t A) (s.fromRaw t d b) := by
  have hmax : (1 : ℤ) ≤ intMax := by decide
  have hnob : ∀ q ∈ pairs A s, q.2 ≠ some b := by
    intro q hq he
    obtain ⟨n, hn, _⟩ := ho.block q.1 b (he ▸ hq)
    rw [hb] at hn
    cases hn
  have hnox : ∀ q ∈ pairs A s, q.1 ≠ none → q.1 ≠ d := by
    intro q hq hne he
    obtain ⟨x, hx⟩ := Option.ne_none_iff_exists'.mp hne
    exact (hd x (he ▸ hx)).1 (ho.mem_objects (m := q.2) (hx ▸ hq))
  have hptr : ∀ v ∈ A, (s.fromRaw t d b).ptr v = s.ptr v := by
    intro v hv
    have hvt : v ≠ t := ne_of_mem_of_not_mem hv ht
    exact (setPtr_ne hvt).trans (setPtr_ne hvt)
  have hself : (((s.fromRaw t d b).ptr t).data, ((s.fromRaw t d b).ptr t).metadata) =
      (d, some b) := by
    simp [State.fromRaw, State.setPtr]
  refine ho.join ht hptr hself ?_ ?_ ?_ (Function.update_self ..) ⟨by omega, hmax⟩ ?_ ?_ ?_
  · intro q hq hne
    simp [hnox q hq hne, hnob q hq]
  · intro q hq hne
    refine iff_of_false (fun he => ?_) (hnob q hq).symm
    exact hnox q hq (he ▸ hne) he.symm
  · exact fun b' hb => Function.update_of_ne hb ..
  · intro x hx
    have hzero : owners A s x = 0 := by
      refine holderCount_eq_zero.mpr ?_
      intro v hv he
      exact hnox _ (pair_mem_pairs hv) (by simp [he]) (he.trans hx.symm)
    rw [hzero]
    rfl
  · intro x
    cases d with
    | none => simp [State.fromRaw, State.setPtr, State.create]
    | some y => simp [State.fromRaw, State.setPtr, State.create, or_comm, eq_comm]
  · intro x hx
    cases d with
    | none => exact ho.gone x hx
    | some y =>
      intro hmem
      rcases Finset.mem_insert.mp hmem with rfl | hmem
      · exact (hd x rfl).2 hx
      · exact ho.gone x hx hmem

theorem copy (ho : Owned s.living s) (ht : t ∉ s.living) (hu : u ∈ s.living)
    (h : s.copy t u = .ok s') : Owned (insert t s.living) s' := by
  have hcreated : Owned s.living (s.create t) := by
    refine ho.of_ptr ?_ ?_ rfl rfl rfl
    · exact fun v hv => by rw [create_ptr ht v hv]
    · exact fun v hv => by rw [create_ptr ht v hv]
  obtain ⟨b, _, hb, _⟩ := share_cases h
  have hpair := pair_mem_pairs (s := s.create t) hu
  rw [hb] at hpair
  exact hcreated.share ht hb (hcreated.fits hpair) h

theorem copyAssign (ho : Owned s.living s) (ht : t ∈ s.living) (hu : u ∈ s.living)
    (h : s.copyAssign t u = .ok s') : Owned s.living s' := by
  rw [State.copyAssign] at h
  obtain ⟨s₁, hdec, h⟩ := bind_ok h
  have hleft := ho.decrease ht hdec
  obtain ⟨b, _, hb, _⟩ := share_cases h
  have hf : Fits (s.living.erase t) s₁ (s₁.ptr u).data b := by
    by_cases hut : u = t
    · subst hut
      exact ho.fits_decreased ht hdec hb
    · have hpair := pair_mem_pairs (s := s₁) (Finset.mem_erase.mpr ⟨hut, hu⟩)
      rw [hb] at hpair
      exact hleft.fits hpair
  have hshared := hleft.share (Finset.notMem_erase t _) hb hf h
  rwa [Finset.insert_erase ht] at hshared

theorem moveAssign (ho : Owned s.living s) (ht : t ∈ s.living) (hu : u ∈ s.living)
    (h : s.moveAssign t u = .ok s') : Owned s.living s' := by
  rw [State.moveAssign] at h
  obtain ⟨s₁, hdec, h⟩ := bind_ok h
  cases h
  have hleft := ho.decrease ht hdec
  rw [← Finset.insert_erase ht]
  by_cases hut : u = t
  · subst hut
    exact hleft.take_self (Finset.notMem_erase u _)
  · exact hleft.take (Finset.notMem_erase t _) (Finset.mem_erase.mpr ⟨hut, hu⟩)

variable [DecidableEq ω] {e : Event σ ω ι κ}

theorem destroy (ho : Owned s.living s) (ht : t ∈ s.living) (h : s.destroy t = .ok s') :
    Owned s'.living s' := by
  rw [State.destroy] at h
  obtain ⟨s₁, hdec, h⟩ := bind_ok h
  rw [State.resetWeak] at h
  split_ifs at h
  · cases h
    have hleft := ho.decrease ht hdec
    rw [← decrease_living ht hdec] at hleft
    exact (hleft.setSubscribers (t := t) (W := ∅)).of_ptr (fun _ _ => rfl) (fun _ _ => rfl) rfl rfl
      rfl
  · cases h

theorem next (ho : Owned s.living s) (ha : Admitted s e) (h : next s e = .ok s') :
    Owned s'.living s' := by
  cases e with
  | default t =>
    cases h
    exact ho.create ha
  | fromRaw t data block =>
    cases h
    exact ho.fromRaw ha.1 ha.2.1 ha.2.2
  | copy t u =>
    have hliving : s'.living = insert t s.living := congrArg View.living (view_copy ha.1 ha.2 h)
    rw [hliving]
    exact ho.copy ha.1 ha.2 h
  | copyAssign t u =>
    have hliving : s'.living = s.living := congrArg View.living (view_copyAssign ha.1 ha.2 h)
    rw [hliving]
    exact ho.copyAssign ha.1 ha.2 h
  | move t u =>
    cases h
    have hcreated : Owned s.living (s.create t) := by
      refine ho.of_ptr ?_ ?_ rfl rfl rfl
      · exact fun v hv => by rw [create_ptr ha.1 v hv]
      · exact fun v hv => by rw [create_ptr ha.1 v hv]
    exact hcreated.take ha.1 ha.2
  | moveAssign t u =>
    have hliving : s'.living = s.living := congrArg View.living (view_moveAssign ha.1 ha.2 h)
    rw [hliving]
    exact ho.moveAssign ha.1 ha.2 h
  | destroy t => exact ho.destroy ha h
  | weakDefault w =>
    cases h
    exact ho.of_ptr (fun _ _ => rfl) (fun _ _ => rfl) rfl rfl rfl
  | weakFrom w t =>
    cases h
    have haimed : Owned s.living (s.setShared w (some t)) :=
      ho.of_ptr (fun _ _ => rfl) (fun _ _ => rfl) rfl rfl rfl
    exact haimed.setSubscribers (t := t)
  | weakCopy w w' =>
    cases h
    exact ho.of_ptr (fun _ _ => rfl) (fun _ _ => rfl) rfl rfl rfl
  | weakAssign w t =>
    obtain ⟨s₁, hcancel, h⟩ := bind_ok h
    cases h
    obtain ⟨ho₁, hliving⟩ := ho.cancelSubscription hcancel
    rw [← hliving] at ho₁
    have haimed : Owned s₁.living (s₁.setShared w (some t)) :=
      ho₁.of_ptr (fun _ _ => rfl) (fun _ _ => rfl) rfl rfl rfl
    exact haimed.setSubscribers (t := t)
  | weakCopyAssign w w' =>
    cases h
    exact ho.of_ptr (fun _ _ => rfl) (fun _ _ => rfl) rfl rfl rfl
  | weakDestroy w =>
    obtain ⟨s₁, hcancel, h⟩ := bind_ok h
    cases h
    obtain ⟨ho₁, hliving⟩ := ho.cancelSubscription hcancel
    rw [← hliving] at ho₁
    exact ho₁.of_ptr (fun _ _ => rfl) (fun _ _ => rfl) rfl rfl rfl
  | lock w t =>
    have hliving : s'.living = insert t s.living := congrArg View.living (view_lock ha.2 h)
    rw [hliving]
    rw [SharedPtr.next, State.lock] at h
    split at h
    · cases h
      exact ho.create ha.2
    · split_ifs at h with hu
      exact ho.copy ha.2 hu h

theorem run {tr : List (Event σ ω ι κ)} (hr : (system Admitted).Run System.always tr s) :
    Owned s.living s := by
  refine System.run_invariant (P := fun _ s => Owned s.living s) ?_ ?_ hr
  · intro s hs
    obtain ⟨ptr, sharedPtr, rfl⟩ := hs
    have hnull : ∀ p ∈ pairs ∅ (⟨∅, ptr, ∅, sharedPtr, fun _ => none, ∅, [], []⟩ : State σ ω ι κ),
        p = (none, none) := by
      intro p hp
      rcases hp with hp | ⟨v, hv, _⟩
      · exact hp
      · simp at hv
    refine ⟨?_, ?_, ?_, ?_, by simp⟩
    · exact fun p hp _ _ hne => absurd (congrArg Prod.fst (hnull p hp)) hne
    · exact fun x b hp => by simpa using hnull _ hp
    · exact fun d b hp => by simpa using hnull _ hp
    · exact fun x => by simp [owners, holderCount]
  · intro tr s e s' _ ho _ hstep
    exact ho.next hstep.1 hstep.2

end Owned

/-- An object that was made, whether or not it still lives. -/
def Made (s : State σ ω ι κ) (x : ι) : Prop := x ∈ s.objects ∨ x ∈ s.deletedData

section made
variable [DecidableEq σ] [DecidableEq κ]

theorem Made.decrease (hm : Made s x) (h : s.decreaseCurrentRefcnt t = .ok s') : Made s' x := by
  rcases decrease_cases h with ⟨_, rfl⟩ | ⟨y, b, n, _, _, _, ⟨_, rfl⟩ | ⟨_, rfl⟩⟩
  · exact hm
  · exact hm
  · rcases hm with hx | hx
    · by_cases hxy : x = y
      · subst hxy
        exact .inr (List.mem_append_right _ (List.mem_singleton.mpr rfl))
      · exact .inl (Finset.mem_erase.mpr ⟨hxy, hx⟩)
    · exact .inr (List.mem_append_left _ hx)

theorem Made.fromRaw (hm : Made s x) : Made (s.fromRaw t d b) x := by
  rcases hm with hx | hx
  · left
    cases d with
    | none => exact hx
    | some y => exact Finset.mem_insert_of_mem hx
  · exact .inr hx

variable [DecidableEq ω] {e : Event σ ω ι κ}

theorem Made.next (hm : Made s x) (h : next s e = .ok s') : Made s' x := by
  cases e with
  | default t =>
    cases h
    exact hm
  | fromRaw t data block =>
    cases h
    exact hm.fromRaw
  | copy t u =>
    obtain ⟨_, _, _, _, _, rfl⟩ := share_cases h
    exact hm
  | copyAssign t u =>
    obtain ⟨s₁, hdec, h⟩ := bind_ok h
    obtain ⟨_, _, _, _, _, rfl⟩ := share_cases h
    have hmade := hm.decrease hdec
    exact hmade
  | move t u =>
    cases h
    exact hm
  | moveAssign t u =>
    obtain ⟨s₁, hdec, h⟩ := bind_ok h
    cases h
    have hmade := hm.decrease hdec
    exact hmade
  | destroy t =>
    obtain ⟨s₁, hdec, h⟩ := bind_ok h
    rw [State.resetWeak] at h
    split_ifs at h
    · cases h
      have hmade := hm.decrease hdec
      exact hmade
    · cases h
  | weakDefault w =>
    cases h
    exact hm
  | weakFrom w t =>
    cases h
    exact hm
  | weakCopy w w' =>
    cases h
    exact hm
  | weakAssign w t =>
    obtain ⟨s₁, hcancel, h⟩ := bind_ok h
    cases h
    rcases cancel_cases hcancel with rfl | ⟨u, W, rfl⟩
    · exact hm
    · exact hm
  | weakCopyAssign w w' =>
    cases h
    exact hm
  | weakDestroy w =>
    obtain ⟨s₁, hcancel, h⟩ := bind_ok h
    cases h
    rcases cancel_cases hcancel with rfl | ⟨u, W, rfl⟩
    · exact hm
    · exact hm
  | lock w t =>
    rw [SharedPtr.next, State.lock] at h
    split at h
    · cases h
      exact hm
    · split_ifs at h
      obtain ⟨_, _, _, _, _, rfl⟩ := share_cases h
      exact hm

end made

end ModCpp.SharedPtr
