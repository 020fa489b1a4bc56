import ModCpp.MemoryAllocatorRuns

/-!
# Blocks and nodes

Two nodes may touch. A release that joins free regions of both leaves a region across the
border, from which later blocks are cut. As long as none does, every region and every block
lies in a single node.
-/

open Set

namespace ModCpp.MemoryAllocator
variable {NodeSize : ℕ} {a a' : Allocator} {A : Arena ℕ} {tr : List Op} {e : Op}
  {nodes : List ℕ} {l m r p n : ℕ} {q : ℕ × ℕ}

def InNode (NodeSize : ℕ) (nodes : List ℕ) (q : ℕ × ℕ) : Prop :=
  ∃ m ∈ nodes, m ≤ q.1 ∧ q.2 ≤ m + NodeSize

instance (nodes : List ℕ) (q : ℕ × ℕ) : Decidable (InNode NodeSize nodes q) :=
  inferInstanceAs (Decidable (∃ m ∈ nodes, _))

/-- `release(ptr)` finds a free region on the other side of a border that the block reaches. -/
def JoinsNodes (a : Allocator) (ptr : ℕ) : Prop :=
  let right := add64 ptr ((a.addr2len ptr).getD 0)
  ptr ∈ a.memoryNodeList ∧ a.right2left ptr ≠ none ∨
    right ∈ a.memoryNodeList ∧ a.left2right right ≠ none

def KeepsNodes (a : Allocator) : Op → Prop
  | .allocate _ _ _ => True
  | .release ptr => ¬ JoinsNodes a ptr

instance (a : Allocator) : (e : Op) → Decidable (KeepsNodes a e)
  | .allocate _ _ _ => inferInstanceAs (Decidable True)
  | .release ptr => inferInstanceAs (Decidable (¬ (ptr ∈ a.memoryNodeList ∧ _ ∨ _)))

theorem InNode.mono {nodes' : List ℕ} (h : InNode NodeSize nodes q) (hn : nodes ⊆ nodes') :
    InNode NodeSize nodes' q := by
  obtain ⟨m, hm, hq⟩ := h
  exact ⟨m, hn hm, hq⟩

theorem InNode.sub {q' : ℕ × ℕ} (h : InNode NodeSize nodes q) (hl : q.1 ≤ q'.1)
    (hr : q'.2 ≤ q.2) : InNode NodeSize nodes q' := by
  obtain ⟨m, hm, hq⟩ := h
  exact ⟨m, hm, hq.1.trans hl, hr.trans hq.2⟩

def NodesDisjoint (NodeSize : ℕ) (nodes : List ℕ) : Prop :=
  ∀ m ∈ nodes, ∀ m' ∈ nodes, m ≠ m' → m + NodeSize ≤ m' ∨ m' + NodeSize ≤ m

theorem NodesDisjoint.concat (h : NodesDisjoint NodeSize nodes)
    (hm : DisjointBlock NodeSize nodes m) : NodesDisjoint NodeSize (nodes ++ [m]) := by
  intro x hx y hy hne
  rcases List.mem_append.mp hx with hx | hx
  · rcases List.mem_append.mp hy with hy | hy
    · exact h x hx y hy hne
    · rw [List.mem_singleton.mp hy]
      exact (hm.2 x hx).symm
  · rw [List.mem_singleton.mp hx] at hne ⊢
    rcases List.mem_append.mp hy with hy | hy
    · exact hm.2 y hy
    · exact absurd (List.mem_singleton.mp hy).symm hne

theorem InNode.join (hd : NodesDisjoint NodeSize nodes) (hl : InNode NodeSize nodes (l, m))
    (hr : InNode NodeSize nodes (m, r)) (hlm : l < m) (hmr : m < r) (hm : m ∉ nodes) :
    InNode NodeSize nodes (l, r) := by
  obtain ⟨x, hx, hxl, hxm⟩ := hl
  obtain ⟨y, hy, hym, hyr⟩ := hr
  simp only at hxl hxm hym hyr
  by_cases hne : x = y
  · subst hne
    exact ⟨x, hx, hxl, hyr⟩
  · rcases hd x hx y hy hne with hle | hle
    · have he : y = m := by omega
      exact absurd (he ▸ hy) hm
    · omega

structure Whole (NodeSize : ℕ) (nodes : List ℕ) (A : Arena ℕ) : Prop where
  disjoint : NodesDisjoint NodeSize nodes
  inNode : ∀ q ∈ A.free ∪ A.live, InNode NodeSize nodes q

theorem Whole.empty : Whole NodeSize [] .empty := by
  refine ⟨?_, ?_⟩
  · intro m hm
    cases hm
  · intro q hq
    rcases hq with hq | hq <;> cases hq

theorem Whole.grow (h : Whole NodeSize nodes A) (hm : DisjointBlock NodeSize nodes m)
    (hlr : m < m + NodeSize) (hd : Disjoint (span (m, m + NodeSize)) A.points) :
    Whole NodeSize (nodes ++ [m]) (A.grow hlr hd) := by
  refine ⟨h.disjoint.concat hm, ?_⟩
  intro q hq
  rcases hq with (rfl | hq) | hq
  · exact ⟨m, by simp, le_rfl, le_rfl⟩
  · exact (h.inNode q (Or.inl hq)).mono (List.subset_append_left _ _)
  · exact (h.inNode q (Or.inr hq)).mono (List.subset_append_left _ _)

theorem Whole.take (h : Whole NodeSize nodes A) (hp : (l, r) ∈ A.free) (hlm : l < m)
    (hmr : m ≤ r) : Whole NodeSize nodes (A.take hp hlm hmr) := by
  refine ⟨h.disjoint, ?_⟩
  have hwhole := h.inNode _ (Or.inl hp)
  intro q hq
  rcases hq with (⟨rfl, hlt⟩ | hq) | (rfl | hq)
  · exact hwhole.sub hlm.le le_rfl
  · exact h.inNode q (Or.inl hq.1)
  · exact hwhole.sub le_rfl hmr
  · exact h.inNode q (Or.inr hq)

theorem Whole.absorb {x y : ℕ} (h : Whole NodeSize nodes A) (hp : (l, r) ∈ A.live)
    (hx : x = l ∨ (x, l) ∈ A.free) (hy : y = r ∨ (r, y) ∈ A.free)
    (hl : (x, l) ∈ A.free → l ∉ nodes) (hr : (r, y) ∈ A.free → r ∉ nodes) :
    Whole NodeSize nodes (A.absorb hp hx hy) := by
  refine ⟨h.disjoint, ?_⟩
  have hlr : l < r := A.lt_of_live hp
  have hleft : x ≤ l ∧ InNode NodeSize nodes (x, r) := by
    rcases hx with rfl | hx
    · exact ⟨le_rfl, h.inNode _ (Or.inr hp)⟩
    · have hlt : x < l := A.lt_of_free hx
      exact ⟨hlt.le, (h.inNode _ (Or.inl hx)).join h.disjoint (h.inNode _ (Or.inr hp)) hlt hlr
        (hl hx)⟩
  have hjoined : InNode NodeSize nodes (x, y) := by
    rcases hy with rfl | hy
    · exact hleft.2
    · exact hleft.2.join h.disjoint (h.inNode _ (Or.inl hy)) (hleft.1.trans_lt hlr)
        (A.lt_of_free hy) (hr hy)
  intro q hq
  rcases hq with (rfl | hq) | hq
  · exact hjoined
  · exact h.inNode q (Or.inl hq.1)
  · exact h.inNode q (Or.inr hq.1)

theorem Represents.not_joins (h : Represents NodeSize a A) (hlen : (p, p + n) ∈ A.live)
    (hj : ¬ JoinsNodes a p) : (∀ x, (x, p) ∈ A.free → p ∉ a.memoryNodeList) ∧
      ∀ y, (p + n, y) ∈ A.free → p + n ∉ a.memoryNodeList := by
  have hright : add64 p ((a.addr2len p).getD 0) = p + n := by
    rw [h.mem_live.mp hlen]
    exact add64_of_lt (h.snd_lt (Or.inr hlen))
  rw [JoinsNodes, hright, not_or] at hj
  refine ⟨?_, ?_⟩
  · intro x hx hm
    refine hj.1 ⟨hm, ?_⟩
    rw [(h.indexed.left x p).mpr hx]
    exact Option.some_ne_none x
  · intro y hy hm
    refine hj.2 ⟨hm, ?_⟩
    rw [(h.indexed.right _ y).mpr hy]
    exact Option.some_ne_none y

theorem Whole.change {nodes' : List ℕ} {A' : Arena ℕ} (h : Whole NodeSize a.memoryNodeList A)
    (hrep : Represents NodeSize a A) (hk : KeepsNodes a e)
    (hc : Change NodeSize (DisjointBlock NodeSize) a A e nodes' A') :
    Whole NodeSize nodes' A' := by
  cases hc with
  | take hp hlm hmr => exact h.take hp hlm hmr
  | growTake hlr hd hm hp hlm hmr => exact (h.grow hm hlr hd).take hp hlm hmr
  | absorb hl hx hy hprev hnext =>
    obtain ⟨hleft, hright⟩ := hrep.not_joins hl hk
    exact h.absorb hl hx hy (hleft _) (hright _)

/-- The allocator as long as no release joins free regions of two nodes. -/
def apartSystem (NodeSize : ℕ) : System Allocator Op :=
  (system NodeSize (DisjointBlock NodeSize)).restrict KeepsNodes

theorem run_whole (hN : 1 ≤ NodeSize) (hr : (apartSystem NodeSize).Run (Permitted NodeSize) tr a) :
    ∃ A, Represents NodeSize a A ∧ Whole NodeSize a.memoryNodeList A ∧ Tracked tr a := by
  refine run_change (P := fun _ => Whole NodeSize) hN (fun _ _ h => h) (fun _ _ h => h) ?_ ?_ hr
  · exact fun m hlr hd hm => Whole.empty.grow hm hlr hd
  · exact fun tr a A e nodes A' hrep hwhole _ hk hc => hwhole.change hrep hk hc

/-- Every block handed out lies in a single node. -/
theorem blocks_whole (hN : 1 ≤ NodeSize)
    (hr : (apartSystem NodeSize).Run (Permitted NodeSize) tr a) :
    ∀ q ∈ liveBlocks a, InNode NodeSize a.memoryNodeList q := by
  obtain ⟨A, hrep, hwhole, _⟩ := run_whole hN hr
  intro q hq
  rw [← hrep.live] at hq
  exact hwhole.inNode q (Or.inr hq)

theorem blocks_whole_sample : ∃ a, (apartSystem 4).Run (Permitted 4)
      [.allocate 4 0 100, .allocate 4 104 104, .release 100, .allocate 3 0 100] a ∧
    ∀ q ∈ liveBlocks a, InNode 4 a.memoryNodeList q := by
  have hr : ∃ a, (apartSystem 4).Run (Permitted 4)
      [.allocate 4 0 100, .allocate 4 104 104, .release 100, .allocate 3 0 100] a :=
    ⟨_, System.run_of_exec (System.restrictExec_step exec_step) ⟨100, by decide, rfl⟩ rfl⟩
  obtain ⟨a, hr⟩ := hr
  exact ⟨a, hr, blocks_whole (by decide) hr⟩

/-- Two nodes of four bytes that touch at 104, and a block from 103 on. -/
theorem blocks_whole_fails : ¬ ∀ NodeSize, 1 ≤ NodeSize → ∀ tr a,
    (system NodeSize (DisjointBlock NodeSize)).Run (Permitted NodeSize) tr a →
      ∀ q ∈ liveBlocks a, InNode NodeSize a.memoryNodeList q := by
  intro hall
  have hr : ∃ a, (system 4 (DisjointBlock 4)).Run (Permitted 4)
      [.allocate 4 0 100, .allocate 4 104 104, .release 100, .release 104, .allocate 3 0 100,
        .allocate 3 0 103] a ∧ a.memoryNodeList = [100, 104] ∧ a.addr2len 103 = some 3 :=
    ⟨_, System.run_of_exec exec_step ⟨100, by decide, rfl⟩ rfl, rfl, rfl⟩
  obtain ⟨a, hr, hnodes, hlen⟩ := hr
  have hin := hall 4 (by decide) _ a hr (103, 106) ⟨3, hlen, rfl⟩
  rw [hnodes] at hin
  exact absurd hin (by decide)

end ModCpp.MemoryAllocator
