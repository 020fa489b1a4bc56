import ModCpp.MemoryAllocatorRuns

/-!
# The order of releases

A release changes neither the points at which two free regions meet nor the nodes, so the
free regions that two releases leave depend only on the blocks that are live then.
-/

open Set

namespace ModCpp.MemoryAllocator
variable {NodeSize : ℕ} {a b : Allocator} {F : Set (ℕ × ℕ)} {A : Arena ℕ} {tr : List Op}
  {n k p q : ℕ}

/-- The intervals, the nodes and the lengths of the blocks are all there is of an allocator. -/
theorem Indexed.ext (ha : Indexed a F) (hb : Indexed b F)
    (hnodes : a.memoryNodeList = b.memoryNodeList) (hlen : a.addr2len = b.addr2len) : a = b := by
  obtain ⟨nodes, regions, l2r, r2l, lens⟩ := a
  obtain ⟨nodes', regions', l2r', r2l', lens'⟩ := b
  have hregions : regions = regions' := by
    ext mr
    exact (ha.region mr).trans (hb.region mr).symm
  have hl2r : l2r = l2r' := by
    funext l
    apply Option.ext
    intro r
    exact (ha.right l r).trans (hb.right l r).symm
  have hr2l : r2l = r2l' := by
    funext r
    apply Option.ext
    intro l
    exact (ha.left l r).trans (hb.left l r).symm
  subst hregions hl2r hr2l hnodes hlen
  rfl

theorem Represents.release_two (h : Represents NodeSize a A) (hp : a.addr2len p = some n)
    (hq : a.addr2len q = some k) (hne : p ≠ q) :
    ∃ a' A', (do let b ← release a p; release b q) = .ok a' ∧ Represents NodeSize a' A' ∧
      A'.points = A.points ∧ A'.live = (A.live \ {(p, p + n)}) \ {(q, q + k)} ∧
      seams A'.free = seams A.free ∧ a'.memoryNodeList = a.memoryNodeList ∧
      a'.addr2len = Function.update (Function.update a.addr2len p none) q none := by
  obtain ⟨a₁, x, y, hl, hx, hy, hok, hrep, hprev, hnext, hnodes, hlen⟩ := h.release_ok hp
  have hq₁ : a₁.addr2len q = some k := by rw [hlen, Function.update_of_ne hne.symm, hq]
  obtain ⟨a₂, x₂, y₂, hl₂, hx₂, hy₂, hok₂, hrep₂, hprev₂, hnext₂, hnodes₂, hlen₂⟩ :=
    hrep.release_ok hq₁
  refine ⟨a₂, _, ?_, hrep₂, rfl, rfl, ?_, hnodes₂.trans hnodes, ?_⟩
  · rw [ok_bind hok, hok₂]
  · rw [Arena.absorb_seams hl₂ hx₂ hy₂ hprev₂ hnext₂, Arena.absorb_seams hl hx hy hprev hnext]
  · rw [hlen₂, hlen]

/-- Two live blocks may be released in either order. -/
theorem releases_commute (hN : 1 ≤ NodeSize)
    (hr : (system NodeSize (DisjointBlock NodeSize)).Run (Permitted NodeSize) tr a)
    (hp : p ∈ livePtrs tr) (hq : q ∈ livePtrs tr) (hne : p ≠ q) :
    ∃ a', (do let b ← release a p; release b q) = .ok a' ∧
      (do let b ← release a q; release b p) = .ok a' := by
  obtain ⟨A, hrep, -, ht⟩ := run_kept (fun _ _ h => h) kept_true hN hr
  obtain ⟨n, hn⟩ := (ht.2 p).mp hp
  obtain ⟨k, hk⟩ := (ht.2 q).mp hq
  obtain ⟨a₁, A₁, hok₁, hrep₁, hpoints₁, hlive₁, hseams₁, hnodes₁, hlen₁⟩ :=
    hrep.release_two hn hk hne
  obtain ⟨a₂, A₂, hok₂, hrep₂, hpoints₂, hlive₂, hseams₂, hnodes₂, hlen₂⟩ :=
    hrep.release_two hk hn hne.symm
  have hlive : A₁.live = A₂.live := by rw [hlive₁, hlive₂, sdiff_sdiff_comm]
  have hfree : A₁.free = A₂.free :=
    Arena.free_eq (hpoints₁.trans hpoints₂.symm) hlive (hseams₁.trans hseams₂.symm)
  have hlen : a₁.addr2len = a₂.addr2len := by
    rw [hlen₁, hlen₂, Function.update_comm hne]
  have he : a₁ = a₂ := Indexed.ext hrep₁.indexed (hfree ▸ hrep₂.indexed)
    (hnodes₁.trans hnodes₂.symm) hlen
  exact ⟨a₁, hok₁, he ▸ hok₂⟩

theorem releases_commute_sample : ∃ a a', (system 4 (DisjointBlock 4)).Run (Permitted 4)
      [.allocate 3 0 100, .allocate 1 0 103, .allocate 4 104 104] a ∧
    (do let b ← release a 104; release b 103) = .ok a' ∧
    (do let b ← release a 103; release b 104) = .ok a' := by
  have hr : ∃ a, (system 4 (DisjointBlock 4)).Run (Permitted 4)
      [.allocate 3 0 100, .allocate 1 0 103, .allocate 4 104 104] a :=
    ⟨_, System.run_of_exec exec_step ⟨100, by decide, rfl⟩ rfl⟩
  obtain ⟨a, hr⟩ := hr
  obtain ⟨a', hcomm⟩ := releases_commute (by decide) hr (p := 104) (q := 103) (by decide)
    (by decide) (by decide)
  exact ⟨a, a', hr, hcomm⟩

end ModCpp.MemoryAllocator
