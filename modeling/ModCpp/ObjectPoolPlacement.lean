import Mathlib.Algebra.Order.Ring.Nat
import Mathlib.Data.Nat.Prime.Basic
import ModCpp.ObjectPoolThrows

/-!
# Where the object pool puts objects and links

Nothing is rounded: chunk `i` of a node begins `i` chunk sizes behind the start of the node, with
its link, and the object follows eight bytes on. What `new[]` returns is a multiple of 16.
-/

namespace ModCpp.ObjectPool
variable {c : Layout} {p : Pool} {tr : List Op} {a i mem obj : ℕ} {n : MemoryNode}

def chunkAt (c : Layout) (mem i : ℕ) : ℕ := mem + i * c.chunkSize

/-- `a` divides the addresses of objects, and 8 those where the links of their chunks are. -/
structure WellPlaced (c : Layout) (a : ℕ) (live : List ℕ) (p : Pool) : Prop where
  chunks : ∀ n ∈ p.memoryNodeList, ∀ i < c.nodeCapacity,
    a ∣ toObject (chunkAt c n.mem i) ∧ 8 ∣ chunkAt c n.mem i
  objects : ∀ obj ∈ live, a ∣ obj ∧ 8 ∣ toRawmemory obj

/-- Both divisibility conditions for the first chunk, and for the second if there is one. -/
def Suits (c : Layout) (a : ℕ) : Prop := a ≤ 8 ∧ (8 ∣ c.objectSize ∨ c.nodeCapacity = 1)

theorem le_eight_iff (ha : a ∣ 16) : a ≤ 8 ↔ a ∣ 8 := by
  constructor
  · intro hle
    obtain ⟨k, _, rfl⟩ := (Nat.dvd_prime_pow Nat.prime_two).mp (show a ∣ 2 ^ 4 from ha)
    have hk : k ≤ 3 := (Nat.pow_le_pow_iff_right (by decide)).mp (show 2 ^ k ≤ 2 ^ 3 from hle)
    exact pow_dvd_pow 2 hk
  · exact Nat.le_of_dvd (by decide)

theorem Suits.link (hs : Suits c a) (hmem : 16 ∣ mem) (hi : i < c.nodeCapacity) :
    8 ∣ chunkAt c mem i := by
  refine Nat.dvd_add (Nat.dvd_trans (by decide) hmem) ?_
  rcases hs.2 with hsize | hone
  · exact Dvd.dvd.mul_left (Nat.dvd_add hsize (by decide)) i
  · obtain rfl : i = 0 := by omega
    simp

theorem Suits.object (hs : Suits c a) (ha : a ∣ 16) (hsize : a ∣ c.objectSize) (hmem : 16 ∣ mem) :
    a ∣ toObject (chunkAt c mem i) := by
  have height := (le_eight_iff ha).mp hs.1
  refine Nat.dvd_add (Nat.dvd_add (ha.trans hmem) ?_) height
  exact Dvd.dvd.mul_left (Nat.dvd_add hsize height) i

theorem live_at (hfits : c.Fits) (hcap : 1 ≤ c.nodeCapacity) (hr : (system c).Run throwing tr p)
    (ho : obj ∈ (hist tr).live) :
    ∃ n ∈ p.memoryNodeList, ∃ i < c.nodeCapacity, obj = toObject (chunkAt c n.mem i) := by
  obtain ⟨lost, h, ⟨chs, l, full, last, k, hs⟩, hperm⟩ := run_accounts hfits hcap hr
  have hmem : obj ∈ h.live := hperm.mem_iff.mpr (List.mem_append_left _ ho)
  rw [hs.live] at hmem
  obtain ⟨b, hb, rfl⟩ := List.mem_map.mp hmem
  obtain ⟨n, hn, i, hi, hle⟩ := hs.carved b (List.mem_append_left _ hb)
  have hcur := hs.bumped.current_le hn
  refine ⟨n, hs.nodes ▸ hn, i, ?_, by rw [hi, chunkAt]⟩
  have hend : (i + 1) * c.chunkSize ≤ c.nodeCapacity * c.chunkSize := by
    rw [nodeSize_eq hfits] at hcur
    rw [Nat.succ_mul]
    omega
  exact Nat.le_of_mul_le_mul_right hend chunkSize_pos

/-- All objects and links are placed well in every run if and only if the size of an object is a
multiple of eight or a node has one chunk only, and no object has to be at a multiple of 16. -/
theorem chunks_placed (ha : a ∣ 16) (hsize : a ∣ c.objectSize) (hcap : 1 ≤ c.nodeCapacity)
    (hroom : 16 + c.chunkSize * c.nodeCapacity ≤ 2 ^ 64) :
    (∀ tr p, (system c).Run throwing tr p → (∀ n ∈ p.memoryNodeList, 16 ∣ n.mem) →
      WellPlaced c a (hist tr).live p) ↔ Suits c a := by
  have hfits : c.Fits := by
    rw [Layout.Fits]
    omega
  constructor
  · intro hall
    have hend : 16 + c.nodeSize ≤ 2 ^ 64 := by
      rwa [Layout.nodeSize, Nat.mod_eq_of_lt hfits]
    have hblock : FreshBlock c [] 16 := ⟨by decide, hend, by simp⟩
    have hplaced := (hall [] (construct (fun _ => 0) 16) (.start ⟨_, _, hblock, rfl⟩)
      (by simp [construct, Pool.createMemoryNode])).chunks ⟨16, 16⟩
      (by simp [construct, Pool.createMemoryNode])
    constructor
    · rw [le_eight_iff ha]
      have hfirst := (hplaced 0 hcap).1
      rw [toObject, chunkAt, Nat.zero_mul, Nat.add_zero] at hfirst
      exact (Nat.dvd_add_right ha).mp hfirst
    · by_cases hone : c.nodeCapacity = 1
      · exact .inr hone
      · left
        have hsecond := (hplaced 1 (by omega)).2
        simp only [chunkAt, Layout.chunkSize, Nat.one_mul] at hsecond
        omega
  · intro hs tr p hr hmem
    constructor
    · intro n hn i hi
      exact ⟨hs.object ha hsize (hmem n hn), hs.link (hmem n hn) hi⟩
    · intro obj ho
      obtain ⟨n, hn, i, hi, rfl⟩ := live_at hfits hcap hr ho
      exact ⟨hs.object ha hsize (hmem n hn), hs.link (hmem n hn) hi⟩

theorem chunks_placed_sample : ∃ tr p, (system ⟨8, 2⟩).Run throwing tr p ∧
    (hist tr).live = [40, 24] ∧ WellPlaced ⟨8, 2⟩ 8 (hist tr).live p := by
  have hr : ∃ p, (system ⟨8, 2⟩).Run throwing
      [.new 0 (fun _ => 1) (some 24), .new 0 (fun _ => 2) (some 40)] p ∧
      p.memoryNodeList = [⟨16, 48⟩] :=
    ⟨_, System.run_of_exec (fun _ _ _ h => h) ⟨fun _ => 0, 16, by decide, rfl⟩ rfl, rfl⟩
  obtain ⟨p, hr, hnodes⟩ := hr
  have hplaced := (chunks_placed (c := ⟨8, 2⟩) (a := 8) (by decide) (by decide) (by decide)
    (by decide)).mpr ⟨by decide, .inl (by decide)⟩
  exact ⟨_, p, hr, rfl, hplaced _ _ hr (by simp [hnodes])⟩

/-- The second object of four bytes is at 36, and its link goes to 28. -/
theorem chunks_placed_fails : ¬ ∀ c a tr p, a ∣ 16 → a ∣ c.objectSize → 1 ≤ c.objectSize →
    1 ≤ c.nodeCapacity → (system c).Run throwing tr p → (∀ n ∈ p.memoryNodeList, 16 ∣ n.mem) →
    WellPlaced c a (hist tr).live p := by
  intro hall
  have hr : ∃ p, (system ⟨4, 2⟩).Run throwing
      [.new 0 (fun _ => 1) (some 24), .new 0 (fun _ => 2) (some 36)] p ∧
      p.memoryNodeList = [⟨16, 40⟩] :=
    ⟨_, System.run_of_exec (fun _ _ _ h => h) ⟨fun _ => 0, 16, by decide, rfl⟩ rfl, rfl⟩
  obtain ⟨p, hr, hnodes⟩ := hr
  have hplaced := hall ⟨4, 2⟩ 4 _ p (by decide) (by decide) (by decide) (by decide) hr
    (by simp [hnodes])
  have hlink : 8 ∣ toRawmemory 36 := (hplaced.objects 36 List.mem_cons_self).2
  revert hlink
  decide

end ModCpp.ObjectPool
