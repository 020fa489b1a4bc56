import ModCpp.Cow
import ModCpp.FiberCount

/-!
# What a step does to counts and contents

The count of a block is the number of handles that point to it, as long as handles are only
copied. Inside a step the handle that is being changed counts for nothing.
-/

namespace ModCpp.Cow
variable {σ ι : Type} [DecidableEq ι] {A A' : Finset σ} {s s' : State σ ι} {t u : σ} {b : ι}
  {D : Data}

def holders (A : Finset σ) (s : State σ ι) (b : ι) : ℕ := holderCount A s.data b

/-- The blocks that are deleted are those that lose their last handle, each once. -/
def Exact (A : Finset σ) (s : State σ ι) (A' : Finset σ) (s' : State σ ι) : Prop :=
  ∃ gone, s'.deleted = s.deleted ++ gone ∧ gone.Nodup ∧
    ∀ b, b ∈ gone ↔ 0 < holders A s b ∧ holders A' s' b = 0

def Counts (A : Finset σ) (s : State σ ι) : Prop :=
  ∀ b, (s.heap b).map Data.refcnt = if holders A s b = 0 then none else some (holders A s b : ℤ)

/-- The counts are right for the handles in `A`: all living ones between two steps, all but the
one that is being changed inside a step. -/
structure Counted (A : Finset σ) (s : State σ ι) : Prop where
  counts : Counts A s
  bound : ∀ b, (holders A s b : ℤ) ≤ intMax
  points : ∀ t ∈ A, s.data t ≠ none

omit [DecidableEq ι] in
theorem load_ok (hb : s.heap b = some D) : s.load (some b) = .ok (b, D) := by
  rw [State.load]
  simp only [hb]
  rfl

theorem store_heap : (s.store b D).heap b = some D := Function.update_self ..

theorem addRefcnt_ok {d : ℤ} (hb : s.heap b = some D) (hlo : -intMax - 1 ≤ D.refcnt + d)
    (hhi : D.refcnt + d ≤ intMax) :
    s.addRefcnt (some b) d = .ok (s.store b { D with refcnt := D.refcnt + d }) := by
  rw [State.addRefcnt, ok_bind (load_ok hb)]
  exact if_neg (by omega)

theorem addRefcnt_overflows (hb : s.heap b = some D) (hmax : D.refcnt = intMax) :
    s.addRefcnt (some b) 1 = .error (.undefined "refcnt overflows") := by
  rw [State.addRefcnt, ok_bind (load_ok hb)]
  exact if_pos (by omega)

def released (s : State σ ι) (b : ι) (D : Data) : State σ ι :=
  if D.refcnt = 1 then s.delete b else s.store b { D with refcnt := D.refcnt - 1 }

theorem decrese_ok (hb : s.heap b = some D) (hpos : 0 < D.refcnt) (hmax : D.refcnt ≤ intMax) :
    s.decreseRefcnt (some b) = .ok (released s b D) := by
  have hlo : -intMax - 1 ≤ D.refcnt + -1 := by
    have : 0 ≤ intMax := by decide
    omega
  rw [State.decreseRefcnt, ok_bind (addRefcnt_ok hb hlo (by omega)), ok_bind (load_ok store_heap),
    released]
  simp only
  by_cases hone : D.refcnt = 1
  · rw [if_pos hone, if_pos (by omega), State.delete, State.delete, State.store]
    simp only [Function.update_idem]
    rfl
  · rw [if_neg hone, if_neg (by omega)]
    rfl

theorem released_heap : (released s b D).heap =
    Function.update s.heap b (if D.refcnt = 1 then none else some ⟨D.vec, D.refcnt - 1⟩) := by
  rw [released]
  split_ifs <;> rfl

theorem map_refcnt_update (x : Option Data) (b' : ι) :
    (Function.update s.heap b x b').map Data.refcnt =
      Function.update (fun b => (s.heap b).map Data.refcnt) b (x.map Data.refcnt) b' :=
  Function.apply_update (fun _ => Option.map Data.refcnt) s.heap b x b'

theorem released_data : (released s b D).data = s.data := by
  rw [released]
  split_ifs <;> rfl

theorem released_living : (released s b D).living = s.living := by
  rw [released]
  split_ifs <;> rfl

theorem released_deleted : (released s b D).deleted =
    s.deleted ++ if D.refcnt = 1 then [b] else [] := by
  rw [released]
  split_ifs
  · rfl
  · exact (List.append_nil _).symm

theorem holders_congr (hd : ∀ t ∈ A, s'.data t = s.data t) (b : ι) :
    holders A s' b = holders A s b := holderCount_congr hd

theorem exact_quiet (hdel : s'.deleted = s.deleted)
    (hz : ∀ b, holders A' s' b = 0 → holders A s b = 0) : Exact A s A' s' := by
  refine ⟨[], by rw [hdel, List.append_nil], List.nodup_nil, ?_⟩
  intro b
  simp only [List.not_mem_nil, false_iff, not_and]
  intro hpos hzero
  exact Nat.ne_of_gt hpos (hz b hzero)

theorem Exact.trans_quiet {A₁ : Finset σ} {s₁ : State σ ι} (he : Exact A s A₁ s₁)
    (hdel : s'.deleted = s₁.deleted) (hz : ∀ b, holders A' s' b = 0 ↔ holders A₁ s₁ b = 0) :
    Exact A s A' s' := by
  obtain ⟨gone, hgone, hnodup, hmem⟩ := he
  refine ⟨gone, hdel.trans hgone, hnodup, ?_⟩
  intro b
  rw [hz b]
  exact hmem b

namespace Counted

theorem block (hc : Counted A s) (ht : t ∈ A) : ∃ b D, s.data t = some b ∧ s.heap b = some D ∧
    D.refcnt = holders A s b ∧ 0 < holders A s b := by
  obtain ⟨b, hb⟩ := Option.ne_none_iff_exists'.mp (hc.points t ht)
  have hpos : 0 < holders A s b := holderCount_pos.mpr ⟨t, ht, hb⟩
  have hcount := hc.counts b
  rw [if_neg (Nat.ne_of_gt hpos)] at hcount
  obtain ⟨D, hD, hn⟩ := Option.map_eq_some_iff.mp hcount
  exact ⟨b, D, hb, hD, hn, hpos⟩

theorem free (hc : Counted A s) (hb : s.heap b = none) : holders A s b = 0 := by
  have hcount := hc.counts b
  rw [hb] at hcount
  by_contra hne
  rw [if_neg hne] at hcount
  cases hcount

end Counted

theorem Counted.congr (hc : Counted A s) (hheap : s'.heap = s.heap) (hdata : s'.data = s.data) :
    Counted A s' := by
  have hh : ∀ b, holders A s' b = holders A s b := holders_congr fun _ _ => by rw [hdata]
  refine ⟨?_, ?_, ?_⟩
  · intro b
    rw [hh, hheap]
    exact hc.counts b
  · intro b
    rw [hh]
    exact hc.bound b
  · rw [hdata]
    exact hc.points

variable [DecidableEq σ]

theorem holders_erase (ht : t ∈ A) (hd : s'.data = s.data) (b : ι) :
    holders (A.erase t) s' b + (if s.data t = some b then 1 else 0) = holders A s b := by
  rw [holders, hd]
  exact holderCount_erase ht

theorem holders_join (ht : t ∉ A) (hd : s'.data = Function.update s.data t (some b)) (b' : ι) :
    holders (insert t A) s' b' = holders A s b' + if b = b' then 1 else 0 := by
  rw [holders, hd, holderCount_insert_update ht]
  simp only [Option.some_inj]
  rfl

/-- What giving up its block by `t` does. -/
structure Dropped (A : Finset σ) (t : σ) (s s₁ : State σ ι) : Prop where
  counted : Counted (A.erase t) s₁
  data : s₁.data = s.data
  living : s₁.living = s.living
  vec : ∀ b, s₁.heap b ≠ none → (s₁.heap b).map Data.vec = (s.heap b).map Data.vec
  exact : Exact A s (A.erase t) s₁

namespace Counted

theorem drop (hc : Counted A s) (ht : t ∈ A) :
    ∃ s₁, s.decreseRefcnt (s.data t) = .ok s₁ ∧ Dropped A t s s₁ := by
  obtain ⟨b, D, hb, hD, hn, hpos⟩ := hc.block ht
  have hmax := hc.bound b
  refine ⟨released s b D, ?_, ?_⟩
  · rw [hb]
    exact decrese_ok hD (by omega) (by omega)
  have hless : ∀ b', holders (A.erase t) (released s b D) b' + (if b = b' then 1 else 0) =
      holders A s b' := by
    intro b'
    have h := holders_erase ht (released_data (s := s) (b := b) (D := D)) b'
    rw [hb] at h
    simpa only [Option.some_inj] using h
  refine ⟨⟨?_, ?_, ?_⟩, released_data, released_living, ?_, ?_⟩
  · intro b'
    rw [← counter_down hc.counts hless b', released_heap, map_refcnt_update]
    by_cases hone : D.refcnt = 1
    · rw [if_pos hone, if_pos (by omega)]
      rfl
    · rw [if_neg hone, if_neg (by omega), ← hn]
      rfl
  · intro b'
    have := hless b'
    have := hc.bound b'
    omega
  · intro u hu
    rw [released_data]
    exact hc.points u (Finset.mem_of_mem_erase hu)
  · intro b' hb'
    rw [released_heap] at hb' ⊢
    by_cases hbb : b' = b
    · subst hbb
      rw [Function.update_self] at hb' ⊢
      rw [hD]
      split_ifs at hb' ⊢
      · exact absurd rfl hb'
      · rfl
    · rw [Function.update_of_ne hbb]
  · refine ⟨_, released_deleted, ?_, ?_⟩
    · split_ifs <;> simp
    · intro b'
      have hl := hless b'
      have hback : b' = b → holders A s b' = D.refcnt := by
        intro he
        rw [he, hn]
      split_ifs with hone
      · rw [List.mem_singleton]
        by_cases hbb : b' = b
        · have := hback hbb
          rw [if_pos hbb.symm] at hl
          simp only [hbb, true_iff]
          rw [hbb] at hl this
          omega
        · rw [if_neg (Ne.symm hbb)] at hl
          simp only [hbb, false_iff]
          omega
      · simp only [List.not_mem_nil, false_iff]
        by_cases hbb : b' = b
        · have := hback hbb
          rw [if_pos hbb.symm] at hl
          omega
        · rw [if_neg (Ne.symm hbb)] at hl
          omega

end Counted

/-- What pointing `t`, which counted for nothing, to the block of `u` does. -/
structure Joined (A : Finset σ) (t u : σ) (s s' : State σ ι) : Prop where
  counted : Counted (insert t A) s'
  data : s'.data = Function.update s.data t (s.data u)
  deleted : s'.deleted = s.deleted
  vec : ∀ b, (s'.heap b).map Data.vec = (s.heap b).map Data.vec
  zero : ∀ b, holders (insert t A) s' b = 0 ↔ holders A s b = 0

theorem Counted.join {r : State σ ι} (hc : Counted A s) (ht : t ∉ A) (hu : u ∈ A)
    (hb : s.data u = some b) (hdata : r.data = Function.update s.data t (s.data u))
    (hheap : r.heap = s.heap) (hdel : r.deleted = s.deleted) :
    ((holders A s b : ℤ) ≠ intMax ∧
      ∃ s', r.addRefcnt (s.data u) 1 = .ok s' ∧ s'.living = r.living ∧ Joined A t u s s') ∨
    (holders A s b : ℤ) = intMax ∧
      r.addRefcnt (s.data u) 1 = .error (.undefined "refcnt overflows") := by
  obtain ⟨b', D, hb', hD, hn, hpos⟩ := hc.block hu
  obtain rfl := Option.some_inj.mp (hb.symm.trans hb')
  have hD₂ : r.heap b = some D := by rw [hheap, hD]
  rw [hb]
  by_cases hmax : D.refcnt = intMax
  · exact .inr ⟨hn ▸ hmax, addRefcnt_overflows hD₂ hmax⟩
  have hbound := hc.bound b
  have hlo : -intMax - 1 ≤ D.refcnt + 1 := by
    have : 0 ≤ intMax := by decide
    omega
  refine .inl ⟨by omega, _, addRefcnt_ok hD₂ hlo (by omega), rfl, ?_⟩
  have hmore : ∀ b', holders (insert t A) (r.store b ⟨D.vec, D.refcnt + 1⟩) b' =
      holders A s b' + if b = b' then 1 else 0 :=
    holders_join ht (by rw [← hb]; exact hdata)
  refine ⟨⟨?_, ?_, ?_⟩, hdata, hdel, ?_, ?_⟩
  · intro b'
    rw [← counter_up hc.counts hmore b', ← hn, State.store]
    simp only [hheap, map_refcnt_update]
    rfl
  · intro b'
    rw [hmore]
    have := hc.bound b'
    split_ifs with hbb
    · subst hbb
      omega
    · omega
  · intro v hv
    rw [State.store, hdata]
    by_cases hvt : v = t
    · subst hvt
      simp [hb]
    · rw [Function.update_of_ne hvt]
      exact hc.points v (Finset.mem_of_mem_insert_of_ne hv hvt)
  · intro b'
    by_cases hbb : b' = b
    · subst hbb
      rw [store_heap, hD]
      rfl
    · rw [State.store]
      simp only [Function.update_of_ne hbb]
      rw [hheap]
  · intro b'
    rw [hmore]
    split_ifs with hbb
    · subst hbb
      exact iff_of_false id (Nat.ne_of_gt hpos)
    · rfl

section contents
omit [DecidableEq σ] [DecidableEq ι]

def State.seen (s : State σ ι) (t : σ) : Option (List ℤ) :=
  (s.data t).bind fun b => (s.heap b).map Data.vec

theorem seen_some (hb : s.data t = some b) : s.seen t = (s.heap b).map Data.vec := by
  rw [State.seen, hb]
  rfl

theorem seen_congr (hd : s'.data t = s.data t)
    (hv : ∀ b, s.data t = some b → (s'.heap b).map Data.vec = (s.heap b).map Data.vec) :
    s'.seen t = s.seen t := by
  cases hb : s.data t with
  | none => rw [State.seen, State.seen, hd, hb]; rfl
  | some b => rw [seen_some hb, seen_some (hd.trans hb), hv b hb]

end contents

def Shows (s : State σ ι) (m : σ → Option (List ℤ)) : Prop :=
  ∀ t, m t = if t ∈ s.living then s.seen t else none

/-- The vectors that the handles would have if each had one of its own. -/
def eager (m : σ → Option (List ℤ)) : Event σ ι → σ → Option (List ℤ)
  | .default t => Function.update m t none
  | .construct t vec _ | .mutate t _ vec => Function.update m t (some vec)
  | .copy t u | .copyAssign t u => Function.update m t (m u)
  | .move t u | .moveAssign t u => Function.update (Function.update m t (m u)) u none
  | .destroy t => Function.update m t none

omit [DecidableEq ι] in
theorem Shows.update {m : σ → Option (List ℤ)} {x : Option (List ℤ)} (hm : Shows s m)
    (hliving : ∀ v, v ≠ t → (v ∈ s'.living ↔ v ∈ s.living))
    (hself : x = if t ∈ s'.living then s'.seen t else none)
    (hrest : ∀ v ∈ s.living, v ≠ t → s'.seen v = s.seen v) : Shows s' (Function.update m t x) := by
  intro v
  by_cases hvt : v = t
  · subst hvt
    rw [Function.update_self, hself]
  · rw [Function.update_of_ne hvt, hm v]
    by_cases hv : v ∈ s.living
    · rw [if_pos hv, if_pos ((hliving v hvt).mpr hv), hrest v hv hvt]
    · rw [if_neg hv, if_neg fun h => hv ((hliving v hvt).mp h)]

namespace Joined

theorem seen_self (hj : Joined A t u s s') : s'.seen t = s.seen u := by
  have hd : s'.data t = s.data u := by rw [hj.data, Function.update_self]
  rw [State.seen, State.seen, hd]
  cases s.data u with
  | none => rfl
  | some b => exact hj.vec b

theorem seen_rest (hj : Joined A t u s s') {v : σ} (hvt : v ≠ t) : s'.seen v = s.seen v :=
  seen_congr (by rw [hj.data, Function.update_of_ne hvt]) fun b _ => hj.vec b

end Joined

theorem Dropped.seen {v : σ} (hd : Dropped A t s s') (hv : v ∈ A.erase t) :
    s'.seen v = s.seen v := by
  obtain ⟨b, D, hb, hD, _⟩ := hd.counted.block hv
  have hb' : s.data v = some b := by rw [← hd.data, hb]
  rw [seen_some hb, seen_some hb', hd.vec b (by simp [hD])]

structure Stepped (s : State σ ι) (e : Event σ ι) (s' : State σ ι) : Prop where
  counted : Counted s'.living s'
  exact : Exact s.living s s'.living s'
  shows : ∀ m, Shows s m → Shows s' (eager m e)

/-- The block of `u` counts as many handles as an `int` can. -/
def Full (s : State σ ι) (u : σ) : Prop :=
  ∃ b ∈ s.data u, (s.heap b).map Data.refcnt = some intMax

/-- A copy counts one handle more, unless it replaces a handle of the same block. -/
def HasRoom (s : State σ ι) : Event σ ι → Prop
  | .copy _ u => ¬ Full s u
  | .copyAssign t u => s.data t = s.data u ∨ ¬ Full s u
  | _ => True

def Outcome (s : State σ ι) (e : Event σ ι) : Prop :=
  (HasRoom s e ∧ ∃ s', next s e = .ok s' ∧ Stepped s e s') ∨
    ¬ HasRoom s e ∧ next s e = .error (.undefined "refcnt overflows")

omit [DecidableEq σ] in
theorem Counted.full_iff (hc : Counted A s) (hu : u ∈ A) (hb : s.data u = some b) :
    Full s u ↔ (holders A s b : ℤ) = intMax := by
  have hpos : 0 < holders A s b := holderCount_pos.mpr ⟨u, hu, hb⟩
  have hcount := hc.counts b
  rw [if_neg (Nat.ne_of_gt hpos)] at hcount
  constructor
  · rintro ⟨b', hb', hmax⟩
    obtain rfl := Option.some_inj.mp (hb.symm.trans hb')
    exact Option.some_inj.mp (hcount.symm.trans hmax)
  · exact fun hmax => ⟨b, hb, by rw [hcount, hmax]⟩

section steps
variable {vec : List ℤ}

theorem Counted.construct (hc : Counted s.living s) (ht : t ∉ s.living) (hb : s.heap b = none) :
    Outcome s (.construct t vec b) := by
  have hzero := hc.free hb
  have hmore : ∀ b', holders (insert t s.living) (s.construct t vec b) b' =
      holders s.living s b' + if b = b' then 1 else 0 := holders_join ht rfl
  have hheap : ∀ b' ≠ b, (s.construct t vec b).heap b' = s.heap b' :=
    fun b' hbb => Function.update_of_ne hbb ..
  refine .inl ⟨trivial, _, rfl, ⟨?_, ?_, ?_⟩, ?_, ?_⟩
  · intro b'
    rw [show (s.construct t vec b).living = insert t s.living from rfl,
      ← counter_up hc.counts hmore b', hzero]
    exact map_refcnt_update (some ⟨vec, 1⟩) b'
  · intro b'
    rw [show (s.construct t vec b).living = insert t s.living from rfl, hmore]
    have := hc.bound b'
    split_ifs with hbb
    · subst hbb
      rw [hzero]
      decide
    · exact this
  · intro v hv
    rw [State.construct, State.store, State.create, State.setData]
    by_cases hvt : v = t
    · subst hvt
      simp
    · simp only [Function.update_of_ne hvt]
      exact hc.points v (Finset.mem_of_mem_insert_of_ne hv hvt)
  · refine exact_quiet rfl ?_
    intro b'
    rw [show (s.construct t vec b).living = insert t s.living from rfl, hmore]
    omega
  · intro m hm
    refine hm.update ?_ ?_ ?_
    · intro v hvt
      exact ⟨fun hv => Finset.mem_of_mem_insert_of_ne hv hvt, Finset.mem_insert_of_mem⟩
    · have ht' : t ∈ (s.construct t vec b).living := Finset.mem_insert_self ..
      rw [if_pos ht', seen_some (Function.update_self ..), State.construct, store_heap]
      rfl
    · intro v hv hvt
      refine seen_congr (Function.update_of_ne hvt ..) ?_
      intro b' hb'
      have hbb : b' ≠ b := by
        intro he
        exact Nat.ne_of_gt (holderCount_pos.mpr ⟨v, hv, he ▸ hb'⟩) hzero
      rw [hheap b' hbb]

theorem Counted.copy (hc : Counted s.living s) (ht : t ∉ s.living) (hu : u ∈ s.living) :
    Outcome s (.copy t u) := by
  obtain ⟨b, _, hb, _⟩ := hc.block hu
  have hfull := hc.full_iff hu hb
  rcases hc.join (r := s.create t (s.data u)) ht hu hb rfl rfl rfl with
    ⟨hless, s', hok, hliving, hj⟩ | ⟨hmax, herr⟩
  · have hl : s'.living = insert t s.living := hliving
    refine .inl ⟨mt hfull.mp hless, s', hok, hl ▸ hj.counted, ?_, ?_⟩
    · rw [hl]
      exact exact_quiet hj.deleted fun b => (hj.zero b).mp
    · intro m hm
      refine hm.update ?_ ?_ fun v _ hvt => hj.seen_rest hvt
      · intro v hvt
        rw [hl]
        exact ⟨fun hv => Finset.mem_of_mem_insert_of_ne hv hvt, Finset.mem_insert_of_mem⟩
      · rw [hm u, if_pos hu, hl, if_pos (Finset.mem_insert_self ..), hj.seen_self]
  · exact .inr ⟨not_not.mpr (hfull.mpr hmax), herr⟩

theorem Counted.copyAssign (hc : Counted s.living s) (ht : t ∈ s.living) (hu : u ∈ s.living) :
    Outcome s (.copyAssign t u) := by
  by_cases htu : t = u
  · subst htu
    refine .inl ⟨.inl rfl, s, if_pos rfl, hc, exact_quiet rfl fun _ h => h, ?_⟩
    intro m hm
    rwa [eager, Function.update_eq_self]
  obtain ⟨s₁, hdec, hdrop⟩ := hc.drop ht
  have hcall : next s (.copyAssign t u) = (s₁.setData t (s₁.data u)).addRefcnt (s₁.data u) 1 := by
    rw [next, State.copyAssign, if_neg htu, ok_bind hdec, hdrop.data]
  have hu₁ : u ∈ s.living.erase t := Finset.mem_erase.mpr ⟨Ne.symm htu, hu⟩
  obtain ⟨b, _, hb, _⟩ := hc.block hu
  have hb₁ : s₁.data u = some b := by rw [hdrop.data, hb]
  have hfull := hc.full_iff hu hb
  have hone := holders_erase ht hdrop.data b
  rcases hdrop.counted.join (r := s₁.setData t (s₁.data u)) (Finset.notMem_erase t _) hu₁ hb₁ rfl
    rfl rfl with ⟨hless, s', hok, hliving, hj⟩ | ⟨hmax, herr⟩
  · have hl : s'.living = s.living := hliving.trans hdrop.living
    have hinsert : insert t (s.living.erase t) = s.living := Finset.insert_erase ht
    refine .inl ⟨?_, s', hcall.trans hok, ?_, ?_, ?_⟩
    · by_cases hsame : s.data t = some b
      · exact .inl (hsame.trans hb.symm)
      · rw [if_neg hsame] at hone
        refine .inr (mt hfull.mp ?_)
        omega
    · rw [hl, ← hinsert]
      exact hj.counted
    · refine hdrop.exact.trans_quiet hj.deleted ?_
      intro b
      rw [hl, ← hj.zero b, hinsert]
    · intro m hm
      refine hm.update (fun v _ => by rw [hl]) ?_ ?_
      · rw [hm u, if_pos hu, hl, if_pos ht, hj.seen_self, hdrop.seen hu₁]
      · intro v hv hvt
        rw [hj.seen_rest hvt, hdrop.seen (Finset.mem_erase.mpr ⟨hvt, hv⟩)]
  · refine .inr ⟨?_, hcall.trans herr⟩
    have hbound := hc.bound b
    rintro (hsame | hroom)
    · rw [if_pos (hsame.trans hb)] at hone
      omega
    · rw [hfull] at hroom
      split_ifs at hone <;> omega

theorem Counted.destroy (hc : Counted s.living s) (ht : t ∈ s.living) :
    Outcome s (.destroy t) := by
  obtain ⟨s₁, hdec, hdrop⟩ := hc.drop ht
  refine .inl ⟨trivial, { s₁ with living := s₁.living.erase t }, ?_, ?_, ?_, ?_⟩
  · rw [next, State.destroy, ok_bind hdec]
    rfl
  · rw [hdrop.living]
    exact hdrop.counted.congr rfl rfl
  · rw [hdrop.living]
    exact hdrop.exact
  · intro m hm
    refine hm.update ?_ ?_ ?_
    · intro v hvt
      simp [hdrop.living, hvt]
    · simp
    · intro v hv hvt
      exact hdrop.seen (Finset.mem_erase.mpr ⟨hvt, hv⟩)

omit [DecidableEq σ] in
theorem write_ok (hb : s.data t = some b) (hD : s.heap b = some D) :
    s.write t vec = .ok (s.store b { D with vec }) := by
  rw [State.write, hb, ok_bind (load_ok hD)]
  rfl

theorem mutable_alone (hb : s.data t = some b) (hD : s.heap b = some D) (hone : D.refcnt = 1)
    (block : ι) : s.mutableOperation t block = .ok s := by
  rw [State.mutableOperation, hb, ok_bind (load_ok hD)]
  simp only [if_neg (not_not.mpr hone)]
  rw [pure_bind, hb, ok_bind (load_ok hD), ok_bind (assert_of hone)]
  rfl

def cloned (s : State σ ι) (t : σ) (b : ι) (D : Data) (block : ι) : State σ ι :=
  ((s.store block ⟨D.vec, 1⟩).store b { D with refcnt := D.refcnt - 1 }).setData t (some block)

omit [DecidableEq σ] [DecidableEq ι] in
theorem ne_of_free {block : ι} (hD : s.heap b = some D) (hfree : s.heap block = none) :
    b ≠ block := by
  intro he
  rw [he, hfree] at hD
  cases hD

theorem cloned_heap {block : ι} (hne : b ≠ block) (b' : ι) :
    (cloned s t b D block).heap b' = if b' = block then some ⟨D.vec, 1⟩
      else if b' = b then some { D with refcnt := D.refcnt - 1 } else s.heap b' := by
  simp only [cloned, State.setData, State.store, Function.update_apply]
  split_ifs with hb hblock
  · exact absurd (hb.symm.trans hblock) hne
  · rfl
  · rfl
  · rfl

theorem mutable_shared {block : ι} (hb : s.data t = some b) (hD : s.heap b = some D)
    (hone : D.refcnt ≠ 1) (hpos : 0 < D.refcnt) (hmax : D.refcnt ≤ intMax)
    (hfree : s.heap block = none) :
    s.mutableOperation t block = .ok (cloned s t b D block) := by
  have hne := ne_of_free hD hfree
  have hD₁ : (s.store block ⟨D.vec, 1⟩).heap b = some D := by
    rw [State.store]
    simp only [Function.update_of_ne hne]
    exact hD
  have hptr : (cloned s t b D block).data t = some block := Function.update_self ..
  have hnew : (cloned s t b D block).heap block = some ⟨D.vec, 1⟩ := by
    rw [cloned_heap hne, if_pos rfl]
  rw [State.mutableOperation, hb, ok_bind (load_ok hD)]
  simp only [if_pos hone]
  rw [ok_bind (decrese_ok hD₁ hpos hmax), released, if_neg hone, pure_bind]
  rw [← cloned, hptr, ok_bind (load_ok hnew)]
  rfl

theorem Counted.mutate_alone {block : ι} (hc : Counted s.living s) (ht : t ∈ s.living)
    (hb : s.data t = some b) (hD : s.heap b = some D) (hone : D.refcnt = 1)
    (hn : D.refcnt = holders s.living s b) : Outcome s (.mutate t block vec) := by
  have hcall : next s (.mutate t block vec) = .ok (s.store b { D with vec }) := by
    rw [next, ok_bind (mutable_alone hb hD hone block), write_ok hb hD]
  have hheap : ∀ b' ≠ b, (s.store b { D with vec }).heap b' = s.heap b' :=
    fun b' hbb => Function.update_of_ne hbb ..
  have hother : ∀ v ∈ s.living, v ≠ t → s.data v ≠ some b := by
    have hless := holders_erase ht (show s.data = s.data from rfl) b
    rw [if_pos hb] at hless
    have hnone : holders (s.living.erase t) s b = 0 := by omega
    exact fun v hv hvt => holderCount_eq_zero.mp hnone v (Finset.mem_erase.mpr ⟨hvt, hv⟩)
  refine .inl ⟨trivial, _, hcall, ⟨?_, hc.bound, hc.points⟩, exact_quiet rfl fun _ h => h, ?_⟩
  · intro b'
    have hcount := hc.counts b'
    by_cases hbb : b' = b
    · subst hbb
      rw [hD] at hcount
      rw [store_heap]
      exact hcount
    · rw [hheap b' hbb]
      exact hcount
  · intro m hm
    refine hm.update (fun _ _ => Iff.rfl) ?_ ?_
    · have ht' : t ∈ (s.store b { D with vec }).living := ht
      have hb' : (s.store b { D with vec }).data t = some b := hb
      rw [if_pos ht', seen_some hb', store_heap]
      rfl
    · intro v hv hvt
      refine seen_congr rfl ?_
      intro b' hb'
      rw [hheap b' fun he => hother v hv hvt (he ▸ hb')]

def mutated (s : State σ ι) (t : σ) (b : ι) (D : Data) (block : ι) (vec : List ℤ) : State σ ι :=
  (cloned s t b D block).store block ⟨vec, 1⟩

theorem mutate_ok {block : ι} (hb : s.data t = some b) (hD : s.heap b = some D)
    (hone : D.refcnt ≠ 1) (hpos : 0 < D.refcnt) (hmax : D.refcnt ≤ intMax)
    (hfree : s.heap block = none) :
    next s (.mutate t block vec) = .ok (mutated s t b D block vec) := by
  have hptr : (cloned s t b D block).data t = some block := Function.update_self ..
  have hnew : (cloned s t b D block).heap block = some ⟨D.vec, 1⟩ := by
    rw [cloned_heap (ne_of_free hD hfree), if_pos rfl]
  rw [next, ok_bind (mutable_shared hb hD hone hpos hmax hfree), write_ok hptr hnew, mutated]

theorem mutated_heap {block : ι} (hne : b ≠ block) (b' : ι) :
    (mutated s t b D block vec).heap b' = if b' = block then some ⟨vec, 1⟩
      else if b' = b then some { D with refcnt := D.refcnt - 1 } else s.heap b' := by
  have hclone := cloned_heap (s := s) (t := t) (D := D) hne b'
  by_cases hbb : b' = block
  · subst hbb
    rw [if_pos rfl]
    exact store_heap
  · rw [if_neg hbb] at hclone ⊢
    rw [← hclone]
    exact Function.update_of_ne hbb ..

theorem mutated_data {block : ι} :
    (mutated s t b D block vec).data = Function.update s.data t (some block) := rfl

theorem mutated_living {block : ι} : (mutated s t b D block vec).living = s.living := rfl

theorem holders_mutated (D : Data) (block : ι) (vec : List ℤ) (ht : t ∈ A)
    (hb : s.data t = some b) (b' : ι) :
    holders A (mutated s t b D block vec) b' + (if b = b' then 1 else 0) =
      holders A s b' + if block = b' then 1 else 0 := by
  have h := holderCount_update_mem (f := s.data) (v := some block) (b := b') ht
  rw [hb] at h
  simp only [Option.some_inj] at h
  exact h

theorem mutated_counted {block : ι} (hc : Counted A s) (ht : t ∈ A) (hb : s.data t = some b)
    (hD : s.heap b = some D) (hone : D.refcnt ≠ 1) (hn : D.refcnt = holders A s b)
    (hfree : s.heap block = none) : Counted A (mutated s t b D block vec) := by
  have hne := ne_of_free hD hfree
  have hzero := hc.free hfree
  refine ⟨?_, ?_, ?_⟩
  · intro b'
    have hcount := holders_mutated D block vec ht hb b'
    rw [mutated_heap hne]
    by_cases hbblock : b' = block
    · subst hbblock
      rw [if_neg hne, if_pos rfl, hzero] at hcount
      rw [if_pos rfl, if_neg (by omega)]
      simp only [Option.map_some, Option.some_inj]
      omega
    · rw [if_neg (Ne.symm hbblock)] at hcount
      rw [if_neg hbblock]
      by_cases hbb : b' = b
      · subst hbb
        rw [if_pos rfl] at hcount
        rw [if_pos rfl, if_neg (by omega)]
        simp only [Option.map_some, Option.some_inj]
        omega
      · rw [if_neg (Ne.symm hbb)] at hcount
        rw [if_neg hbb, show holders A _ b' = holders A s b' from hcount]
        exact hc.counts b'
  · intro b'
    have hcount := holders_mutated D block vec ht hb b'
    have hbound := hc.bound b'
    by_cases hbblock : block = b'
    · subst hbblock
      rw [if_neg hne, if_pos rfl, hzero] at hcount
      have : 1 ≤ intMax := by decide
      omega
    · rw [if_neg hbblock] at hcount
      omega
  · intro v hv
    rw [mutated_data]
    by_cases hvt : v = t
    · subst hvt
      simp
    · rw [Function.update_of_ne hvt]
      exact hc.points v hv

theorem mutated_seen_self {block : ι} (hne : b ≠ block) :
    (mutated s t b D block vec).seen t = some vec := by
  rw [seen_some (show (mutated s t b D block vec).data t = some block from Function.update_self ..),
    mutated_heap hne, if_pos rfl]
  rfl

theorem mutated_seen_rest {block : ι} {v : σ} (hc : Counted A s) (hD : s.heap b = some D)
    (hfree : s.heap block = none) (hv : v ∈ A) (hvt : v ≠ t) :
    (mutated s t b D block vec).seen v = s.seen v := by
  refine seen_congr (Function.update_of_ne hvt ..) ?_
  intro b' hb'
  have hbblock : b' ≠ block := by
    intro he
    exact Nat.ne_of_gt (holderCount_pos.mpr ⟨v, hv, he ▸ hb'⟩) (hc.free hfree)
  rw [mutated_heap (ne_of_free hD hfree), if_neg hbblock]
  split_ifs with hbb
  · rw [hbb, hD]
    rfl
  · rfl

/-- One handle of several writes to a clone, which nobody else sees. -/
theorem Counted.mutate_shared {block : ι} (hc : Counted s.living s) (ht : t ∈ s.living)
    (hb : s.data t = some b) (hD : s.heap b = some D) (hone : D.refcnt ≠ 1)
    (hn : D.refcnt = holders s.living s b) (hfree : s.heap block = none) :
    Outcome s (.mutate t block vec) := by
  have hpos : 0 < holders s.living s b := holderCount_pos.mpr ⟨t, ht, hb⟩
  have hmax := hc.bound b
  have hcall : next s (.mutate t block vec) = .ok (mutated s t b D block vec) :=
    mutate_ok hb hD hone (by omega) (by omega) hfree
  refine .inl ⟨trivial, _, hcall, mutated_counted hc ht hb hD hone hn hfree, exact_quiet rfl ?_, ?_⟩
  · intro b' h
    rw [mutated_living] at h
    have hcount := holders_mutated D block vec ht hb b'
    by_cases hbb : b = b'
    · -- a block with several handles keeps one
      subst hbb
      rw [if_pos rfl, if_neg (ne_of_free hD hfree).symm] at hcount
      omega
    · rw [if_neg hbb] at hcount
      omega
  · intro m hm
    refine hm.update (fun _ _ => Iff.rfl) ?_ fun v hv hvt => mutated_seen_rest hc hD hfree hv hvt
    rw [mutated_living, if_pos ht, mutated_seen_self (ne_of_free hD hfree)]

theorem Counted.mutate {block : ι} (hc : Counted s.living s) (ht : t ∈ s.living)
    (hfree : s.heap block = none) : Outcome s (.mutate t block vec) := by
  obtain ⟨b, D, hb, hD, hn, _⟩ := hc.block ht
  by_cases hone : D.refcnt = 1
  · exact hc.mutate_alone ht hb hD hone hn
  · exact hc.mutate_shared ht hb hD hone hn hfree

theorem Counted.next {e : Event σ ι} (hc : Counted s.living s) (ha : Admitted s e)
    (he : e.Copies) : Outcome s e := by
  cases e with
  | default t => exact he.elim
  | construct t vec block => exact hc.construct ha.1 ha.2
  | copy t u => exact hc.copy ha.1 ha.2
  | copyAssign t u => exact hc.copyAssign ha.1 ha.2
  | move t u => exact he.elim
  | moveAssign t u => exact he.elim
  | destroy t => exact hc.destroy ha
  | mutate t block vec => exact hc.mutate ha.1 ha.2

end steps

end ModCpp.Cow
