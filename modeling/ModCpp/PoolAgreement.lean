import Mathlib.Algebra.BigOperators.Group.List.Basic
import Mathlib.Algebra.Ring.Nat
import Mathlib.Data.Option.Basic
import ModCpp.ListPoolRuns
import ModCpp.ObjectPoolRuns

/-!
# Agreement of the two object pools

The same calls are made in the pool with the intrusive free list and in the pool with the
list of free slots. The two hand out different slots, but what decides when a slot is reused,
when one is taken out of a node and when a node is made is in both only how many objects are
live and how many were at most.
-/

namespace ModCpp.PoolAgreement

structure Pools where
  intrusive : ObjectPool.Pool
  listed : ListPool
  handles : List (ℕ × Slot)
  live : List ℕ

/-- A handle is the number of the call of `New` that returned it. -/
inductive Call
  | new (block : ℕ) (bytes : ℕ → UInt8) (realloc : Bool)
  | release (handle : ℕ) (bytes : ℕ → UInt8)
  | write (handle : ℕ) (bytes : ℕ → UInt8)

namespace Pools

def handle (s : Pools) (k : ℕ) : Except Failure (ℕ × Slot) :=
  match s.handles[k]? with
  | none => throw (.undefined "no such handle")
  | some p => pure p

def next (c : ObjectPool.Layout) (s : Pools) : Call → Except Failure Pools
  | .new block bytes realloc => do
    let (p, obj) ← s.intrusive.new c block bytes false
    let (q, slot) ← ListPool.new c.nodeCapacity realloc false s.listed
    match obj, slot with
    | some obj, some slot => pure {
        intrusive := p
        listed := q
        handles := s.handles ++ [(obj, slot)]
        live := s.handles.length :: s.live }
    | _, _ => throw (.exception "constructor")
  | .release k bytes => do
    let (obj, slot) ← s.handle k
    pure { s with
      intrusive := s.intrusive.release c obj bytes
      listed := s.listed.release slot
      live := s.live.erase k }
  | .write k bytes => do
    let (obj, _) ← s.handle k
    pure { s with intrusive := s.intrusive.write c obj bytes }

def Allowed (c : ObjectPool.Layout) (s : Pools) : Call → Prop
  | .new block _ _ => ObjectPool.NeedsNode c s.intrusive →
      ObjectPool.FreshBlock c s.intrusive.memoryNodeList block
  | .release k _ => k ∈ s.live
  | .write k _ => k ∈ s.live

def initial (c : ObjectPool.Layout) (s : Pools) : Prop :=
  ∃ memory block, ObjectPool.FreshBlock c [] block ∧
    s = ⟨ObjectPool.construct memory block, ListPool.construct c.nodeCapacity, [], []⟩

end Pools

def pools (c : ObjectPool.Layout) : System Pools Call :=
  System.guarded (Pools.initial c) (Pools.Allowed c) (Pools.next c)

def untouchedChunks (c : ObjectPool.Layout) (p : ObjectPool.Pool) : ℕ :=
  (p.memoryNodeList.map fun n => c.nodeCapacity - (n.current - n.mem) / c.chunkSize).sum

def untouchedSlots (capacity : ℕ) (p : ListPool) : ℕ :=
  (p.memNodeList.map fun n => capacity - n.curFreeIdx.toNat).sum

section counts
variable {c : ObjectPool.Layout} {p : ObjectPool.Pool} {q : ListPool} {k : ℕ}

theorem untouchedChunks_eq {h : ObjectPool.History} {chs l : List ℕ}
    {full : List ObjectPool.MemoryNode} {last : ObjectPool.MemoryNode}
    (hs : ObjectPool.Sound c h p chs l full last k) :
    untouchedChunks c p = c.nodeCapacity - k := by
  have hfull : (full.map fun n => c.nodeCapacity - (n.current - n.mem) / c.chunkSize).sum = 0 := by
    refine List.sum_eq_zero ?_
    intro x hx
    obtain ⟨n, hn, rfl⟩ := List.mem_map.mp hx
    rw [hs.bumped.full_current n hn, Nat.add_sub_cancel_left,
      ObjectPool.nodeSize_eq hs.bumped.fits, Nat.mul_div_cancel _ ObjectPool.chunkSize_pos,
      Nat.sub_self]
  rw [untouchedChunks, hs.nodes, List.map_append, List.sum_append, hfull, Nat.zero_add,
    List.map_singleton, List.sum_singleton, hs.bumped.last_current, Nat.add_sub_cancel_left,
    Nat.mul_div_cancel _ ObjectPool.chunkSize_pos]

theorem untouchedSlots_eq {capacity : ℕ} {h : ListPool.History} {full : List ListNode}
    (hs : ListPool.Sound capacity h q full k) : untouchedSlots capacity q = capacity - k := by
  have hfull : (full.map fun n => capacity - n.curFreeIdx.toNat).sum = 0 := by
    refine List.sum_eq_zero ?_
    intro x hx
    obtain ⟨n, hn, rfl⟩ := List.mem_map.mp hx
    rw [hs.full_idx n hn, Int.toNat_natCast, Nat.sub_self]
  rw [untouchedSlots, hs.nodes, List.map_append, List.sum_append, hfull, Nat.zero_add,
    List.map_singleton, List.sum_singleton, Int.toNat_natCast]

theorem nodes_unique (f f' : ℕ) {k' cap : ℕ} (hk : k ≤ cap) (hk' : k' ≤ cap) (hpos : f ≠ 0 → 1 ≤ k)
    (hpos' : f' ≠ 0 → 1 ≤ k') (h : f * cap + k = f' * cap + k') : f = f' ∧ k = k' := by
  rcases Nat.lt_trichotomy f f' with hlt | rfl | hlt
  · have hmul : (f + 1) * cap ≤ f' * cap := Nat.mul_le_mul_right cap hlt
    rw [Nat.add_mul] at hmul
    have hone := hpos' (by omega)
    omega
  · exact ⟨rfl, by omega⟩
  · have hmul : (f' + 1) * cap ≤ f * cap := Nat.mul_le_mul_right cap hlt
    rw [Nat.add_mul] at hmul
    have hone := hpos (by omega)
    omega

end counts

section agreement
variable {c : ObjectPool.Layout} {s s' : Pools} {h₁ : ObjectPool.History} {h₂ : ListPool.History}
  {k : ℕ}

def Pools.object (s : Pools) (k : ℕ) : Option ℕ := s.handles[k]?.map Prod.fst

def Pools.slot (s : Pools) (k : ℕ) : Option Slot := s.handles[k]?.map Prod.snd

structure Agree (c : ObjectPool.Layout) (s : Pools) : Prop where
  nodes : s.intrusive.memoryNodeList.length = s.listed.memNodeList.length
  untouched : untouchedChunks c s.intrusive = untouchedSlots c.nodeCapacity s.listed
  free : ∃ l, Linked s.intrusive.link (ObjectPool.ptr s.intrusive.freeList) l ∧
    l.length = s.listed.freelist.length ∧
    ∀ k ∈ s.live, ∀ obj ∈ s.object k, ObjectPool.toRawmemory obj ∉ l
  taken : ∀ k ∈ s.live, ∀ slot ∈ s.slot k, slot ∉ s.listed.freelist
  handles : ∀ k ∈ s.live, k < s.handles.length
  objects_nodup : (s.live.map s.object).Nodup
  slots_nodup : (s.live.map s.slot).Nodup
  count : s.live.length + s.listed.freelist.length + untouchedSlots c.nodeCapacity s.listed =
    s.listed.memNodeList.length * c.nodeCapacity

structure Matches (c : ObjectPool.Layout) (s : Pools) (h₁ : ObjectPool.History)
    (h₂ : ListPool.History) : Prop where
  intrusive : ObjectPool.IsSound c h₁ s.intrusive
  listed : ListPool.IsSound c.nodeCapacity h₂ s.listed
  objects : (h₁.live.map some).Perm (s.live.map s.object)
  slots : (h₂.live.map some).Perm (s.live.map s.slot)
  peak : h₁.peak = h₂.peak
  handles : ∀ k ∈ s.live, k < s.handles.length

theorem Matches.live_length (hm : Matches c s h₁ h₂) :
    h₁.live.length = s.live.length ∧ h₂.live.length = s.live.length := by
  have h1 := hm.objects.length_eq
  have h2 := hm.slots.length_eq
  simp only [List.length_map] at h1 h2
  exact ⟨h1, h2⟩

theorem Matches.mem_objects (hm : Matches c s h₁ h₂) (hk : k ∈ s.live) {obj : ℕ}
    (hobj : s.object k = some obj) : obj ∈ h₁.live := by
  have hmem : some obj ∈ h₁.live.map some :=
    hm.objects.mem_iff.mpr (List.mem_map.mpr ⟨k, hk, hobj⟩)
  simpa using hmem

theorem Matches.mem_slots (hm : Matches c s h₁ h₂) (hk : k ∈ s.live) {slot : Slot}
    (hslot : s.slot k = some slot) : slot ∈ h₂.live := by
  have hmem : some slot ∈ h₂.live.map some :=
    hm.slots.mem_iff.mpr (List.mem_map.mpr ⟨k, hk, hslot⟩)
  simpa using hmem

theorem Matches.agree (hm : Matches c s h₁ h₂) : Agree c s := by
  obtain ⟨hlive₁, hlive₂⟩ := hm.live_length
  obtain ⟨chs, l, full, last, k, hs⟩ := hm.intrusive
  obtain ⟨full', k', hs'⟩ := hm.listed
  have hpeak := hm.peak
  have hcount := hs.count
  have hcount' := hs'.count
  have hp := hs.peak
  have hp' := hs'.peak
  have hchs : h₁.live.length = chs.length := by rw [hs.live, List.length_map]
  rw [List.length_append] at hcount hcount' hp hp'
  obtain ⟨hf, hk⟩ := nodes_unique full.length full'.length hs.bumped.le hs'.le
    (fun h => hs.bumped.pos (by simpa using h)) (fun h => hs'.pos (by simpa using h)) (by omega)
  have hnodup : (chs ++ l).Nodup := by
    refine hs.apart.imp ?_
    intro a b hab he
    subst he
    have hpos := ObjectPool.chunkSize_pos (c := c)
    rw [Apart] at hab
    omega
  refine ⟨?_, ?_, ⟨l, hs.chain, by omega, ?_⟩, ?_, hm.handles, ?_, ?_, ?_⟩
  · rw [hs.nodes, hs'.nodes, List.length_append, List.length_append, hf]
    rfl
  · rw [untouchedChunks_eq hs, untouchedSlots_eq hs', hk]
  · intro j hj obj hobj hmem
    have hobj' := hm.mem_objects hj hobj
    rw [hs.live] at hobj'
    obtain ⟨a, ha, rfl⟩ := List.mem_map.mp hobj'
    exact (List.nodup_append.mp hnodup).2.2 a ha a hmem rfl
  · intro j hj slot hslot hmem
    exact (List.nodup_append.mp hs'.nodup).2.2 slot (hm.mem_slots hj hslot) slot hmem rfl
  · refine hm.objects.nodup_iff.mp ?_
    rw [hs.live]
    exact ((List.nodup_append.mp hnodup).1.map ObjectPool.Sound.toObject_injective).map
      (Option.some_injective _)
  · refine hm.slots.nodup_iff.mp ?_
    exact (List.nodup_append.mp hs'.nodup).1.map (Option.some_injective _)
  · rw [untouchedSlots_eq hs', hs'.nodes, List.length_append, List.length_singleton, Nat.add_mul]
    have hle := hs'.le
    omega

theorem Matches.start (hfits : c.Fits) (hs : Pools.initial c s) :
    Matches c s ⟨[], [], 0⟩ ⟨[], 0⟩ := by
  obtain ⟨memory, block, hf, rfl⟩ := hs
  refine ⟨ObjectPool.isSound_construct hfits memory hf, ⟨[], 0, .construct⟩, ?_, ?_, rfl, nofun⟩
  · exact List.Perm.refl _
  · exact List.Perm.refl _

theorem Matches.handle (hm : Matches c s h₁ h₂) (hk : k ∈ s.live) : ∃ obj slot,
    s.handle k = .ok (obj, slot) ∧ s.object k = some obj ∧ s.slot k = some slot := by
  have hlt := hm.handles k hk
  refine ⟨s.handles[k].1, s.handles[k].2, ?_, ?_, ?_⟩
  · rw [Pools.handle, List.getElem?_eq_getElem hlt]
    rfl
  · rw [Pools.object, List.getElem?_eq_getElem hlt]
    rfl
  · rw [Pools.slot, List.getElem?_eq_getElem hlt]
    rfl

theorem perm_erase {α : Type} [BEq α] [LawfulBEq α] {live : List α} {handles : List ℕ}
    {f : ℕ → Option α} {a : α} (hp : (live.map some).Perm (handles.map f)) (hk : k ∈ handles)
    (hf : f k = some a) : ((live.erase a).map some).Perm ((handles.erase k).map f) := by
  have hmem : some a ∈ live.map some := hp.mem_iff.mpr (List.mem_map.mpr ⟨k, hk, hf⟩)
  have ha : a ∈ live := by simpa using hmem
  have hlive : (some a :: (live.erase a).map some).Perm (live.map some) :=
    (List.perm_cons_erase ha).symm.map some
  have hhandles : (handles.map f).Perm (some a :: (handles.erase k).map f) := by
    rw [← hf]
    exact (List.perm_cons_erase hk).map f
  exact (hlive.trans (hp.trans hhandles)).cons_inv

theorem Matches.release {bytes : ℕ → UInt8} (hm : Matches c s h₁ h₂) (hk : k ∈ s.live) :
    ∃ s' h₁' h₂', s.next c (.release k bytes) = .ok s' ∧ Matches c s' h₁' h₂' := by
  obtain ⟨obj, slot, hhandle, hobj, hslot⟩ := hm.handle hk
  refine ⟨_, h₁.record (.release obj bytes), h₂.record (.release slot), ok_bind hhandle, ?_⟩
  refine ⟨hm.intrusive.release (hm.mem_objects hk hobj) bytes,
    hm.listed.release (hm.mem_slots hk hslot), ?_, ?_, hm.peak, ?_⟩
  · exact perm_erase hm.objects hk hobj
  · exact perm_erase hm.slots hk hslot
  · intro j hj
    exact hm.handles j (List.mem_of_mem_erase hj)

theorem Matches.write {bytes : ℕ → UInt8} (hm : Matches c s h₁ h₂) (hk : k ∈ s.live) :
    ∃ s' h₁' h₂', s.next c (.write k bytes) = .ok s' ∧ Matches c s' h₁' h₂' := by
  obtain ⟨obj, slot, hhandle, hobj, hslot⟩ := hm.handle hk
  refine ⟨_, h₁.record (.write obj bytes), h₂, ok_bind hhandle, ?_⟩
  exact ⟨hm.intrusive.write (hm.mem_objects hk hobj) bytes, hm.listed, hm.objects, hm.slots,
    hm.peak, hm.handles⟩

theorem perm_new {α : Type} {live : List α} {handles : List ℕ} {returned : List (ℕ × Slot)}
    {r : ℕ × Slot} {part : ℕ × Slot → α} (hp : (live.map some).Perm
      (handles.map fun j => returned[j]?.map part)) (hlt : ∀ j ∈ handles, j < returned.length) :
    ((part r :: live).map some).Perm
      ((returned.length :: handles).map fun j => (returned ++ [r])[j]?.map part) := by
  have hold : (handles.map fun j => (returned ++ [r])[j]?.map part) =
      handles.map fun j => returned[j]?.map part := by
    refine List.map_congr_left ?_
    intro j hj
    rw [List.getElem?_append_left (hlt j hj)]
  rw [List.map_cons, List.map_cons, hold, List.getElem?_concat_length]
  exact hp.cons _

theorem Matches.new {block : ℕ} {bytes : ℕ → UInt8} {realloc : Bool} (hm : Matches c s h₁ h₂)
    (hcap : 1 ≤ c.nodeCapacity) (ha : s.Allowed c (.new block bytes realloc))
    (hmax : c.nodeCapacity < 2 ^ 31 ∨ h₁.peak < 2 ^ 31 - 1) : ∃ s' h₁' h₂',
    s.next c (.new block bytes realloc) = .ok s' ∧ Matches c s' h₁' h₂' ∧
      h₁'.peak = max h₁.peak (s.live.length + 1) ∧ s'.live.length = s.live.length + 1 := by
  obtain ⟨hlive₁, hlive₂⟩ := hm.live_length
  obtain ⟨p, obj, hnew, hp⟩ := hm.intrusive.new_ok bytes hcap ha
  obtain ⟨q, slot, hnew', hq⟩ := hm.listed.new_ok realloc hcap (by rwa [← hm.peak])
  refine ⟨_, _, _, (ok_bind hnew).trans (ok_bind hnew'), ⟨hp, hq, ?_, ?_, ?_, ?_⟩, ?_, rfl⟩
  · exact perm_new (r := (obj, slot)) hm.objects hm.handles
  · exact perm_new (r := (obj, slot)) hm.slots hm.handles
  · simp only [ObjectPool.History.record, ListPool.History.record, hlive₁, hlive₂, hm.peak]
  · intro j hj
    rw [List.length_append, List.length_singleton]
    rcases List.mem_cons.mp hj with rfl | hj
    · exact Nat.lt_succ_self _
    · exact Nat.lt_succ_of_lt (hm.handles j hj)
  · simp only [ObjectPool.History.record, hlive₁]

theorem Matches.next {e : Call} (hm : Matches c s h₁ h₂) (hcap : 1 ≤ c.nodeCapacity)
    (hmax : c.nodeCapacity < 2 ^ 31) (ha : s.Allowed c e) :
    ∃ s' h₁' h₂', s.next c e = .ok s' ∧ Matches c s' h₁' h₂' := by
  cases e with
  | new block bytes realloc =>
    obtain ⟨s', h₁', h₂', hnext, hm', _⟩ := hm.new hcap ha (.inl hmax)
    exact ⟨s', h₁', h₂', hnext, hm'⟩
  | release k bytes => exact hm.release ha
  | write k bytes => exact hm.write ha

theorem run_matches {tr : List Call} (hfits : c.Fits) (hcap : 1 ≤ c.nodeCapacity)
    (hmax : c.nodeCapacity < 2 ^ 31) (hr : (pools c).Run System.always tr s) :
    ∃ h₁ h₂, Matches c s h₁ h₂ := by
  refine System.run_invariant (P := fun _ s => ∃ h₁ h₂, Matches c s h₁ h₂) ?_ ?_ hr
  · intro s hs
    exact ⟨_, _, .start hfits hs⟩
  · intro tr s e t _ ⟨h₁, h₂, hm⟩ _ ⟨ha, he⟩
    obtain ⟨s', h₁', h₂', hs', hm'⟩ := hm.next hcap hmax ha
    obtain rfl := Except.ok.inj (he.symm.trans hs')
    exact ⟨h₁', h₂', hm'⟩

theorem run_news {n : ℕ} (hfits : c.Fits) (hcap : n < c.nodeCapacity)
    (hn : n < 2 ^ 31) : ∃ tr s h₁ h₂, (pools c).Run System.always tr s ∧ Matches c s h₁ h₂ ∧
      h₁.peak = n ∧ s.live.length = n := by
  induction n with
  | zero =>
    have hstart : Pools.initial c ⟨ObjectPool.construct (fun _ => 0) 1,
        ListPool.construct c.nodeCapacity, [], []⟩ :=
      ⟨_, 1, ⟨Nat.one_ne_zero, by rw [ObjectPool.Layout.nodeSize]; omega, nofun⟩, rfl⟩
    exact ⟨[], _, _, _, .start hstart, .start hfits hstart, rfl, rfl⟩
  | succ n ih =>
    obtain ⟨tr, s, h₁, h₂, hr, hm, hpeak, hlive⟩ := ih (by omega) (by omega)
    have ha : s.Allowed c (.new 0 (fun _ => 0) false) :=
      fun hneeds => absurd hneeds (hm.intrusive.not_needsNode (by omega))
    obtain ⟨s', h₁', h₂', hnext, hm', hpeak', hlive'⟩ := hm.new (by omega) ha (.inr (by omega))
    have hstep : (pools c).step s (.new 0 (fun _ => 0) false) s' := ⟨ha, hnext⟩
    exact ⟨_, s', h₁', h₂', hr.step trivial hstep, hm', by omega, by omega⟩

theorem run_overflow (hfits : c.Fits) (hcap : 2 ^ 31 ≤ c.nodeCapacity) :
    ∃ tr s e, (pools c).Run System.always tr s ∧ s.Allowed c e ∧ ∀ s', s.next c e ≠ .ok s' := by
  obtain ⟨n, hn⟩ : ∃ n, n + 1 = 2 ^ 31 := ⟨2 ^ 31 - 1, by omega⟩
  obtain ⟨tr, s, h₁, h₂, hr, hm, hpeak, hlive⟩ := run_news (n := n) hfits (by omega) (by omega)
  have ha : s.Allowed c (.new 0 (fun _ => 0) false) :=
    fun hneeds => absurd hneeds (hm.intrusive.not_needsNode (by omega))
  refine ⟨tr, s, _, hr, ha, ?_⟩
  obtain ⟨full, k, hs⟩ := hm.listed
  have hcount := hs.peak.trans hs.count
  have hfree : s.listed.freelist = [] := by
    have hlen := hs.peak
    have hlive₂ := hm.live_length.2
    rw [← hm.peak, List.length_append] at hlen
    exact List.eq_nil_of_length_eq_zero (by omega)
  have hfull : full.length = 0 := by
    by_contra hne
    have hmul : 1 * c.nodeCapacity ≤ full.length * c.nodeCapacity :=
      Nat.mul_le_mul_right _ (Nat.pos_of_ne_zero hne)
    have hp := hm.peak
    omega
  have hk : k = n := by
    have hp := hm.peak
    rw [hfull] at hcount
    omega
  intro s' hs'
  obtain ⟨⟨p, obj⟩, _, hs'⟩ := bind_ok hs'
  obtain ⟨⟨q, slot⟩, hlist, _⟩ := bind_ok hs'
  rw [hs.overflow hfree (by omega) (by omega)] at hlist
  cases hlist

theorem pools_agree (hcap : 1 ≤ c.nodeCapacity) (hfits : c.Fits) :
    (∀ tr s, (pools c).Run System.always tr s →
      Agree c s ∧ ∀ e, s.Allowed c e → ∃ s', s.next c e = .ok s') ↔
    c.nodeCapacity < 2 ^ 31 := by
  constructor
  · intro hall
    by_contra hmax
    obtain ⟨tr, s, e, hr, ha, hfail⟩ := run_overflow hfits (by omega)
    obtain ⟨s', hs'⟩ := (hall tr s hr).2 e ha
    exact hfail s' hs'
  · intro hmax tr s hr
    obtain ⟨h₁, h₂, hm⟩ := run_matches hfits hcap hmax hr
    refine ⟨hm.agree, ?_⟩
    intro e ha
    obtain ⟨s', _, _, hs', _⟩ := hm.next hcap hmax ha
    exact ⟨s', hs'⟩

end agreement

theorem pools_agree_sample : (∀ tr s, (pools ⟨8, 4⟩).Run System.always tr s →
    Agree ⟨8, 4⟩ s ∧ ∀ e, s.Allowed ⟨8, 4⟩ e → ∃ s', s.next ⟨8, 4⟩ e = .ok s') ↔ 4 < 2 ^ 31 :=
  pools_agree (by decide) (by decide)

/-- The `int` index of a node with `2 ^ 31` slots overflows at the last of them. -/
theorem pools_agree_fails : ¬ ∀ c : ObjectPool.Layout, 1 ≤ c.nodeCapacity →
    c.Fits → ∀ tr s, (pools c).Run System.always tr s →
      Agree c s ∧ ∀ e, s.Allowed c e → ∃ s', s.next c e = .ok s' := by
  intro hall
  have hfits : (⟨8, 2 ^ 31⟩ : ObjectPool.Layout).Fits := by decide
  obtain ⟨tr, s, e, hr, ha, hfail⟩ := run_overflow hfits (Nat.le_refl _)
  obtain ⟨s', hs'⟩ := (hall _ Nat.one_le_two_pow hfits tr s hr).2 e ha
  exact hfail s' hs'

end ModCpp.PoolAgreement
