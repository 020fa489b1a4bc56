import Mathlib.Data.List.Perm.Subperm
import ModCpp.ObjectPoolRuns

/-!
# Constructors that throw in the object pool

`New` moves the bump pointer before the constructor runs and the head of the free list after
it. A constructor that throws on a chunk of the free list leaves the chunk there. One that
throws on a chunk that was never used loses it: the chunk is carved, but neither in use nor free.
-/

namespace ModCpp.ObjectPool
variable {c : Layout} {p p' q : Pool} {h : History} {tr : List Op} {e : Op} {chs l : List ℕ}
  {full : List MemoryNode} {last n : MemoryNode} {k a block : ℕ} {bytes : ℕ → UInt8}
  {live lost : List ℕ}

def throwing (tr : List Op) : Op → Prop
  | .new _ _ _ => True
  | .release obj _ => obj ∈ (hist tr).live
  | .write obj _ => obj ∈ (hist tr).live

instance (tr : List Op) : (e : Op) → Decidable (throwing tr e)
  | .new _ _ _ => inferInstanceAs (Decidable True)
  | .release _ _ | .write _ _ => inferInstanceAs (Decidable (_ ∈ _))

def NoSlotLost (c : Layout) (live : List ℕ) (p : Pool) : Prop :=
  ∃ l, Linked p.link (ptr p.freeList) l ∧
    ∀ a, Carved c p.memoryNodeList a → (toObject a ∈ live ↔ a ∉ l)

def Op.Throws : Op → Prop
  | .new _ _ res => res = none
  | .release _ _ => False
  | .write _ _ => False

instance : (e : Op) → Decidable e.Throws
  | .new _ _ res => inferInstanceAs (Decidable (res = none))
  | .release _ _ | .write _ _ => inferInstanceAs (Decidable False)

/-- A constructor throws in a call only if the free list is not empty. -/
def ThrowsOnFree (p : Pool) (e : Op) : Prop := e.Throws → p.freeList ≠ 0

instance (p : Pool) (e : Op) : Decidable (ThrowsOnFree p e) :=
  inferInstanceAs (Decidable (_ → _))

def positions (c : Layout) (n : MemoryNode) (k : ℕ) : List ℕ :=
  (List.range k).map fun i => n.mem + i * c.chunkSize

theorem mem_positions (hcur : n.current = n.mem + k * c.chunkSize) {i : ℕ}
    (ha : a = n.mem + i * c.chunkSize) (hle : a + c.chunkSize ≤ n.current) :
    a ∈ positions c n k := by
  rw [ha, hcur, Nat.add_assoc, ← Nat.succ_mul, Nat.add_le_add_iff_left] at hle
  have hik := Nat.le_of_mul_le_mul_right hle chunkSize_pos
  exact List.mem_map.mpr ⟨i, List.mem_range.mpr hik, ha.symm⟩

def allPositions (c : Layout) (full : List MemoryNode) (last : MemoryNode) (k : ℕ) : List ℕ :=
  full.flatMap (fun n => positions c n c.nodeCapacity) ++ positions c last k

theorem mem_allPositions (hb : Bumped c full last k) (ha : Carved c (full ++ [last]) a) :
    a ∈ allPositions c full last k := by
  obtain ⟨n, hn, i, hi, hle⟩ := ha
  rcases List.mem_append.mp hn with hn | hn
  · refine List.mem_append_left _ (List.mem_flatMap.mpr ⟨n, hn, ?_⟩)
    refine mem_positions ?_ hi hle
    rw [hb.full_current n hn, nodeSize_eq hb.fits]
  · obtain rfl := List.mem_singleton.mp hn
    exact List.mem_append_right _ (mem_positions hb.last_current hi hle)

theorem length_allPositions :
    (allPositions c full last k).length = full.length * c.nodeCapacity + k := by
  simp [allPositions, positions, List.length_flatMap]

/-- As many chunks are in use or free as have been carved, so these are all. -/
theorem Sound.mem_of_carved (hs : Sound c h p chs l full last k)
    (ha : Carved c p.memoryNodeList a) : a ∈ chs ++ l := by
  rw [hs.nodes] at ha
  have hsub : (chs ++ l).Subperm (allPositions c full last k) :=
    List.subperm_of_subset hs.nodup fun b hb => mem_allPositions hs.bumped (hs.carved b hb)
  have hlen : (allPositions c full last k).length ≤ (chs ++ l).length := by
    rw [length_allPositions, hs.count]
  exact (hsub.perm_of_length_le hlen).mem_iff.mpr (mem_allPositions hs.bumped ha)

/-- The objects in `lost` hold on to their chunks, but no client knows of them. -/
def Accounts (c : Layout) (live lost : List ℕ) (p : Pool) : Prop :=
  ∃ h, IsSound c h p ∧ h.live.Perm (live ++ lost)

theorem Accounts.noSlotLost_iff (ha : Accounts c live lost p) :
    NoSlotLost c live p ↔ lost = [] := by
  obtain ⟨h, ⟨chs, l, full, last, k, hs⟩, hperm⟩ := ha
  have hnodup := List.nodup_append.mp hs.nodup
  rw [hs.live] at hperm
  constructor
  · intro ⟨l', hchain, hall⟩
    obtain rfl : l = l' := hs.chain.unique hchain
    rw [List.eq_nil_iff_forall_not_mem]
    intro obj hobj
    obtain ⟨a, ha, rfl⟩ := List.mem_map.mp (hperm.mem_iff.mpr (List.mem_append_right _ hobj))
    have hcarved := hs.carved a (List.mem_append_left _ ha)
    rw [← hs.nodes] at hcarved
    have hlive := (hall a hcarved).mpr fun hl => hnodup.2.2 a ha a hl rfl
    have hobjects : (live ++ lost).Nodup :=
      hperm.nodup_iff.mp (hnodup.1.map Sound.toObject_injective)
    exact (List.nodup_append.mp hobjects).2.2 _ hlive _ hobj rfl
  · intro hnil
    subst hnil
    rw [List.append_nil] at hperm
    refine ⟨l, hs.chain, ?_⟩
    intro a ha
    rw [← hperm.mem_iff, List.mem_map_of_injective Sound.toObject_injective]
    have hin := List.mem_append.mp (hs.mem_of_carved ha)
    constructor
    · intro hc hl
      exact hnodup.2.2 a hc a hl rfl
    · intro hl
      exact hin.resolve_right hl

theorem IsSound.write_free (hs : IsSound c h p) (hfree : p.freeList ≠ 0) (bytes : ℕ → UInt8) :
    IsSound c h (p.write c (toObject p.freeList) bytes) := by
  obtain ⟨chs, l, full, last, k, hs⟩ := hs
  have hchain := hs.chain
  rw [ptr, if_neg hfree] at hchain
  obtain ⟨rest, rfl, _⟩ := hchain.exists_cons
  exact ⟨_, _, _, _, _, { hs with chain := hs.linked_write (by simp) bytes }⟩

theorem Accounts.throw_free (ha : Accounts c live lost p) (hfree : p.freeList ≠ 0) (block : ℕ)
    (bytes : ℕ → UInt8) :
    ∃ p', p.new c block bytes true = .ok (p', none) ∧ Accounts c live lost p' := by
  obtain ⟨h, hs, hperm⟩ := ha
  refine ⟨p.write c (toObject p.freeList) bytes, ?_, h, hs.write_free hfree bytes, hperm⟩
  rw [Pool.new, ok_bind (prepare_reuse hfree)]
  rfl

theorem Accounts.throw_fresh (ha : Accounts c live lost p) (hcap : 1 ≤ c.nodeCapacity)
    (hfree : p.freeList = 0) (hfresh : NeedsNode c p → FreshBlock c p.memoryNodeList block)
    (bytes : ℕ → UInt8) :
    ∃ p' obj, p.new c block bytes true = .ok (p', none) ∧ Accounts c live (obj :: lost) p' := by
  obtain ⟨h, hs, hperm⟩ := ha
  obtain ⟨q, chunk, hprepare, hq⟩ := hs.prepare_fresh hcap hfree hfresh
  refine ⟨q.write c (toObject chunk) bytes, toObject chunk, ?_, _,
    (hq bytes).write List.mem_cons_self bytes, ?_⟩
  · rw [Pool.new, ok_bind hprepare]
    rfl
  · exact (hperm.cons _).trans List.perm_middle.symm

theorem Accounts.new (ha : Accounts c live lost p) (hcap : 1 ≤ c.nodeCapacity)
    (hfresh : NeedsNode c p → FreshBlock c p.memoryNodeList block) (bytes : ℕ → UInt8) :
    ∃ p' obj, p.new c block bytes false = .ok (p', some obj) ∧
      Accounts c (obj :: live) lost p' := by
  obtain ⟨h, hs, hperm⟩ := ha
  obtain ⟨q, obj, hnew, hq⟩ := hs.new_ok bytes hcap hfresh
  exact ⟨q, obj, hnew, _, hq, hperm.cons obj⟩

theorem Accounts.release (ha : Accounts c live lost p) {obj : ℕ} (ho : obj ∈ live)
    (bytes : ℕ → UInt8) : Accounts c (live.erase obj) lost (p.release c obj bytes) := by
  obtain ⟨h, hs, hperm⟩ := ha
  refine ⟨_, hs.release (hperm.mem_iff.mpr (List.mem_append_left _ ho)) bytes, ?_⟩
  rw [← List.erase_append_left _ ho]
  exact hperm.erase obj

theorem Accounts.write (ha : Accounts c live lost p) {obj : ℕ} (ho : obj ∈ live)
    (bytes : ℕ → UInt8) : Accounts c live lost (p.write c obj bytes) := by
  obtain ⟨h, hs, hperm⟩ := ha
  exact ⟨_, hs.write (hperm.mem_iff.mpr (List.mem_append_left _ ho)) bytes, hperm⟩

theorem Accounts.step (ha : Accounts c (hist tr).live lost p) (hcap : 1 ≤ c.nodeCapacity)
    (hok : throwing tr e) (hstep : next c p e = some p') :
    ∃ lost', Accounts c ((hist tr).record e).live lost' p' ∧
      (lost' = [] ↔ lost = [] ∧ ThrowsOnFree p e) := by
  cases e with
  | new block bytes res =>
    rw [next] at hstep
    split_ifs at hstep with hfresh
    cases res with
    | none =>
      by_cases hfree : p.freeList = 0
      · obtain ⟨q, obj, hnew, hq⟩ := ha.throw_fresh hcap hfree hfresh bytes
        simp only [Option.isNone_none, hnew, if_true] at hstep
        obtain rfl := Option.some_inj.mp hstep
        refine ⟨obj :: lost, hq, ?_⟩
        constructor
        · intro hnil
          cases hnil
        · intro hkept
          exact absurd hfree (hkept.2 rfl)
      · obtain ⟨q, hnew, hq⟩ := ha.throw_free hfree block bytes
        simp only [Option.isNone_none, hnew, if_true] at hstep
        obtain rfl := Option.some_inj.mp hstep
        exact ⟨lost, hq, (and_iff_left fun _ => hfree).symm⟩
    | some r =>
      obtain ⟨q, obj, hnew, hq⟩ := ha.new hcap hfresh bytes
      simp only [Option.isNone_some, hnew] at hstep
      split_ifs at hstep with hres
      obtain rfl := Option.some_inj.mp hres
      obtain rfl := Option.some_inj.mp hstep
      refine ⟨lost, hq, (and_iff_left ?_).symm⟩
      intro hthrows
      cases hthrows
  | release obj bytes =>
    cases hstep
    exact ⟨lost, ha.release hok bytes, (and_iff_left fun hthrows => hthrows.elim).symm⟩
  | write obj bytes =>
    cases hstep
    exact ⟨lost, ha.write hok bytes, (and_iff_left fun hthrows => hthrows.elim).symm⟩

theorem run_accounts (hfits : c.Fits) (hcap : 1 ≤ c.nodeCapacity)
    (hr : (system c).Run throwing tr p) :
    ∃ lost, Accounts c (hist tr).live lost p := by
  refine System.run_invariant (P := fun tr p => ∃ lost, Accounts c (hist tr).live lost p) ?_ ?_ hr
  · intro p hp
    obtain ⟨memory, block, hf, rfl⟩ := hp
    exact ⟨[], _, isSound_construct hfits memory hf, List.Perm.refl _⟩
  · intro tr p e p' _ ⟨lost, ha⟩ hok hstep
    obtain ⟨lost', ha', _⟩ := ha.step hcap hok hstep
    exact ⟨lost', by rwa [hist_concat]⟩

theorem slots_kept (hfits : c.Fits) (hcap : 1 ≤ c.nodeCapacity)
    (hr : (system c).Run throwing tr p) :
    NoSlotLost c (hist tr).live p ↔ ((system c).restrict ThrowsOnFree).Run throwing tr p := by
  refine System.restrict_iff (P := fun tr p => NoSlotLost c (hist tr).live p) ?_ ?_ hr
  · intro p hp
    obtain ⟨memory, block, hf, rfl⟩ := hp
    have ha : Accounts c [] [] (construct memory block) :=
      ⟨_, isSound_construct hfits memory hf, List.Perm.refl _⟩
    exact ha.noSlotLost_iff.mpr rfl
  · intro tr p e p' hr hok hstep
    obtain ⟨lost, ha⟩ := run_accounts hfits hcap hr
    obtain ⟨lost', ha', hiff⟩ := ha.step hcap hok hstep
    rw [hist_concat, ha'.noSlotLost_iff, ha.noSlotLost_iff]
    exact hiff

theorem slots_kept_sample : ∃ tr p, (system ⟨8, 2⟩).Run throwing tr p ∧
    .new 0 (fun _ => 3) none ∈ tr ∧ NoSlotLost ⟨8, 2⟩ (hist tr).live p := by
  have hr : ∃ p, ((system ⟨8, 2⟩).restrict ThrowsOnFree).Run throwing
      [.new 0 (fun _ => 1) (some 108), .release 108 (fun _ => 2), .new 0 (fun _ => 3) none,
        .new 0 (fun _ => 4) (some 108)] p :=
    ⟨_, System.run_of_exec (System.restrictExec_step fun _ _ _ h => h)
      ⟨fun _ => 0, 100, by decide, rfl⟩ rfl⟩
  obtain ⟨p, hr⟩ := hr
  have hrun := System.run_of_restrict hr
  exact ⟨_, p, hrun, by simp, (slots_kept (by decide) (by decide) hrun).mpr hr⟩

/-- The first constructor throws, and no call will ever hand out its chunk. -/
theorem slots_kept_fails : ¬ ∀ c tr p, 1 ≤ c.nodeCapacity → (system c).Run throwing tr p →
    NoSlotLost c (hist tr).live p := by
  intro hall
  let p : Pool := ⟨Memory.fill (fun _ => 0) 108 8 (fun _ => 1), [⟨100, 116⟩], 0⟩
  have hr : (system ⟨8, 2⟩).Run throwing [.new 0 (fun _ => 1) none] p :=
    System.run_of_exec (fun _ _ _ h => h) ⟨fun _ => 0, 100, by decide, rfl⟩ rfl
  obtain ⟨l, hchain, hcarved⟩ := hall _ _ _ (by decide) hr
  obtain rfl : l = [] := hchain.eq_nil
  have hlive := (hcarved 100 ⟨⟨100, 116⟩, List.mem_singleton_self _, 0, rfl, by decide⟩).mpr
    List.not_mem_nil
  cases hlive

end ModCpp.ObjectPool
