import Mathlib.Data.List.Pairwise
import ModCpp.MemoryAllocatorRefinement

/-!
# Runs of the memory allocator

Every call a client may make returns, and the free regions and live blocks tile the
nodes. Where no two nodes touch, the free regions are the maximal intervals of
unallocated node bytes.
-/

open Set

namespace ModCpp.MemoryAllocator
variable {NodeSize : ℕ} {fresh : List ℕ → ℕ → Prop} {a a' : Allocator} {A : Arena ℕ}
  {tr : List Op} {e : Op} {n m p : ℕ}

/-- The client's live pointers are the keys of `addr2len`, each held once. -/
def Tracked (tr : List Op) (a : Allocator) : Prop :=
  (livePtrs tr).Nodup ∧ ∀ p, p ∈ livePtrs tr ↔ ∃ n, a.addr2len p = some n

@[simp] theorem livePtrs_allocate {len mem res : ℕ} :
    livePtrs (tr ++ [.allocate len mem res]) = res :: livePtrs tr := by simp [livePtrs]

@[simp] theorem livePtrs_release : livePtrs (tr ++ [.release p]) = (livePtrs tr).erase p := by
  simp [livePtrs]

theorem tracked_allocate {len mem : ℕ} (h : Tracked tr a) (hp : a.addr2len p = none)
    (ha : a'.addr2len = Function.update a.addr2len p (some len)) :
    Tracked (tr ++ [.allocate len mem p]) a' := by
  have hno : p ∉ livePtrs tr := by simp [h.2, hp]
  refine ⟨?_, fun q => ?_⟩
  · rw [livePtrs_allocate]
    exact List.nodup_cons.mpr ⟨hno, h.1⟩
  · by_cases hq : q = p
    · subst hq; simp [ha]
    · simp [ha, hq, h.2]

theorem tracked_release (h : Tracked tr a)
    (ha : a'.addr2len = Function.update a.addr2len p none) :
    Tracked (tr ++ [.release p]) a' := by
  refine ⟨?_, fun q => ?_⟩
  · rw [livePtrs_release]
    exact h.1.erase p
  · rw [livePtrs_release, h.1.mem_erase_iff, h.2]
    by_cases hq : q = p
    · subst hq; simp [ha]
    · simp [ha, hq]

/-- What a call does to the arena: it takes the front of a free interval, perhaps of a new
node, or it takes a block back. -/
inductive Change (NodeSize : ℕ) (fresh : List ℕ → ℕ → Prop) (a : Allocator) (A : Arena ℕ) :
    Op → List ℕ → Arena ℕ → Prop
  | take {len mem l r : ℕ} (hp : (l, r) ∈ A.free) (hlm : l < l + len) (hmr : l + len ≤ r) :
      Change NodeSize fresh a A (.allocate len mem l) a.memoryNodeList (A.take hp hlm hmr)
  | growTake {len mem l r : ℕ} (hlr : mem < mem + NodeSize)
      (hd : Disjoint (span (mem, mem + NodeSize)) A.points) (hm : fresh a.memoryNodeList mem)
      (hp : (l, r) ∈ (A.grow hlr hd).free) (hlm : l < l + len) (hmr : l + len ≤ r) :
      Change NodeSize fresh a A (.allocate len mem l) (a.memoryNodeList ++ [mem])
        ((A.grow hlr hd).take hp hlm hmr)
  | absorb {ptr n x y : ℕ} (hl : (ptr, ptr + n) ∈ A.live) (hx : x = ptr ∨ (x, ptr) ∈ A.free)
      (hy : y = ptr + n ∨ (ptr + n, y) ∈ A.free) (hprev : ∀ q ∈ A.free, q.2 = ptr → q = (x, ptr))
      (hnext : ∀ q ∈ A.free, q.1 = ptr + n → q = (ptr + n, y)) :
      Change NodeSize fresh a A (.release ptr) a.memoryNodeList (A.absorb hl hx hy)

theorem step_change (hfresh : ∀ nodes m, fresh nodes m → DisjointBlock NodeSize nodes m)
    (hrep : Represents NodeSize a A) (ht : Tracked tr a) (hok : Permitted NodeSize tr e)
    (hs : (system NodeSize fresh).step a e a') :
    ∃ A', Represents NodeSize a' A' ∧ Change NodeSize fresh a A e a'.memoryNodeList A' ∧
      Tracked (tr ++ [e]) a' := by
  cases e with
  | allocate len mem res =>
    obtain ⟨hmem, hcall⟩ := hs
    obtain ⟨a₁, b, B, l, r, hp, hlm, hmr, hcall', hcase, hrepB, hrep', hnodes, hlen⟩ :=
      hrep.allocate_ok hok.1 hok.2 fun hneed => hfresh _ _ (hmem hneed)
    obtain ⟨rfl, rfl⟩ := Prod.mk.inj (Except.ok.inj (hcall.symm.trans hcall'))
    have hfree : a.addr2len res = none := by
      have hlive : A.live = B.live := by
        rcases hcase with ⟨-, rfl⟩ | ⟨-, -, hlr, hd, rfl⟩ <;> rfl
      rw [Option.eq_none_iff_forall_ne_some]
      intro k hk
      have hk' : (res, res + k) ∈ B.live := hlive ▸ hrep.mem_live.mpr hk
      exact B.fst_ne hp hk' rfl
    refine ⟨_, hrep', ?_, tracked_allocate ht hfree hlen⟩
    rw [hnodes]
    rcases hcase with ⟨rfl, rfl⟩ | ⟨hneed, hnew, hlr, hd, rfl⟩
    · exact .take hp hlm hmr
    · rw [hnew]
      exact .growTake hlr hd (hmem hneed) hp hlm hmr
  | release ptr =>
    obtain ⟨k, hk⟩ := (ht.2 ptr).mp hok
    obtain ⟨a₁, x, y, hl, hx, hy, hcall, hrep', hprev, hnext, hnodes, hlen⟩ := hrep.release_ok hk
    obtain rfl := Except.ok.inj (hcall.symm.trans hs)
    refine ⟨_, hrep', ?_, tracked_release ht hlen⟩
    rw [hnodes]
    exact .absorb hl hx hy hprev hnext

theorem construct_ok (hN : 1 ≤ NodeSize) (hm : DisjointBlock NodeSize [] m) :
    ∃ a hlr hd, construct NodeSize m = .ok a ∧
      Represents NodeSize a (Arena.empty.grow (l := m) (r := m + NodeSize) hlr hd) ∧
      a.memoryNodeList = [m] ∧ Tracked [] a := by
  obtain ⟨a, hlr, hd, hok, hrep, hnodes, hlen⟩ := represents_empty.createMemoryNode_ok hN hm
  refine ⟨a, hlr, hd, hok, hrep, hnodes, by simp [livePtrs], ?_⟩
  simp [livePtrs, hlen, Allocator.empty]

/-- A property of the labels, the nodes and the arena that each change keeps holds after every
run. -/
theorem run_change {ok : List Op → Op → Prop} {cond : Allocator → Op → Prop}
    {P : List Op → List ℕ → Arena ℕ → Prop} (hN : 1 ≤ NodeSize)
    (hfresh : ∀ nodes m, fresh nodes m → DisjointBlock NodeSize nodes m)
    (hperm : ∀ tr e, ok tr e → Permitted NodeSize tr e)
    (hinit : ∀ m hlr hd, fresh [] m →
      P [] [m] (Arena.empty.grow (l := m) (r := m + NodeSize) hlr hd))
    (hstep : ∀ tr a A e nodes A', Represents NodeSize a A → P tr a.memoryNodeList A → ok tr e →
      cond a e → Change NodeSize fresh a A e nodes A' → P (tr ++ [e]) nodes A')
    (hr : ((system NodeSize fresh).restrict cond).Run ok tr a) :
    ∃ A, Represents NodeSize a A ∧ P tr a.memoryNodeList A ∧ Tracked tr a := by
  refine System.run_invariant (P := fun tr a =>
    ∃ A, Represents NodeSize a A ∧ P tr a.memoryNodeList A ∧ Tracked tr a) ?_ ?_ hr
  · intro a hi
    obtain ⟨m, hm, hok⟩ := hi
    obtain ⟨a₁, hlr, hd, hok₁, hrep, hnodes, ht⟩ := construct_ok hN (hfresh _ _ hm)
    obtain rfl := Except.ok.inj (hok.symm.trans hok₁)
    exact ⟨_, hrep, hnodes ▸ hinit m hlr hd hm, ht⟩
  · intro tr a e a' _ hinv hok hs
    obtain ⟨A, hrep, hP, ht⟩ := hinv
    obtain ⟨A', hrep', hchange, ht'⟩ := step_change hfresh hrep ht (hperm _ _ hok) hs.2
    exact ⟨A', hrep', hstep _ _ _ _ _ _ hrep hP hok hs.1 hchange, ht'⟩

structure Kept (NodeSize : ℕ) (fresh : List ℕ → ℕ → Prop) (Q : List ℕ → Arena ℕ → Prop) :
    Prop where
  empty : Q [] .empty
  grow {a : Allocator} {A : Arena ℕ} {m : ℕ} (hlr : m < m + NodeSize)
    (hd : Disjoint (span (m, m + NodeSize)) A.points) : Represents NodeSize a A →
    fresh a.memoryNodeList m → Q a.memoryNodeList A →
    Q (a.memoryNodeList ++ [m]) (A.grow hlr hd)
  take {nodes : List ℕ} {A : Arena ℕ} {l m r : ℕ} (hp : (l, r) ∈ A.free) (hlm : l < m)
    (hmr : m ≤ r) : Q nodes A → Q nodes (A.take hp hlm hmr)
  absorb {nodes : List ℕ} {A : Arena ℕ} {l r x y : ℕ} (hp : (l, r) ∈ A.live)
    (hx : x = l ∨ (x, l) ∈ A.free) (hy : y = r ∨ (r, y) ∈ A.free) :
    (∀ q ∈ A.free, q.2 = l → q = (x, l)) → (∀ q ∈ A.free, q.1 = r → q = (r, y)) →
    Q nodes A → Q nodes (A.absorb hp hx hy)

theorem Kept.change {Q : List ℕ → Arena ℕ → Prop} {nodes : List ℕ} {A' : Arena ℕ}
    (hQ : Kept NodeSize fresh Q) (hrep : Represents NodeSize a A) (hA : Q a.memoryNodeList A)
    (hc : Change NodeSize fresh a A e nodes A') : Q nodes A' := by
  cases hc with
  | take hp hlm hmr => exact hQ.take hp hlm hmr hA
  | growTake hlr hd hm hp hlm hmr => exact hQ.take hp hlm hmr (hQ.grow hlr hd hrep hm hA)
  | absorb hl hx hy hprev hnext => exact hQ.absorb hl hx hy hprev hnext hA

theorem run_kept {Q : List ℕ → Arena ℕ → Prop}
    (hfresh : ∀ nodes m, fresh nodes m → DisjointBlock NodeSize nodes m)
    (hQ : Kept NodeSize fresh Q) (hN : 1 ≤ NodeSize)
    (hr : (system NodeSize fresh).Run (Permitted NodeSize) tr a) :
    ∃ A, Represents NodeSize a A ∧ Q a.memoryNodeList A ∧ Tracked tr a := by
  refine run_change (P := fun _ => Q) hN hfresh (fun _ _ h => h) ?_ ?_ (System.restrict_of_run hr)
  · exact fun m hlr hd hm => hQ.grow hlr hd represents_empty hm hQ.empty
  · exact fun tr a A e nodes A' hrep hA _ _ hc => hQ.change hrep hA hc

def IndexesAgree (a : Allocator) : Prop :=
  (∀ mr ∈ a.freeMemoryRegion, mr.len = mr.right - mr.left) ∧
  ∀ l r, (a.left2right l = some r ↔ (l, r) ∈ freeIntervals a) ∧
    (a.right2left r = some l ↔ (l, r) ∈ freeIntervals a)

theorem Represents.indexesAgree (h : Represents NodeSize a A) : IndexesAgree a := by
  refine ⟨fun mr hmr => ((h.indexed.region mr).mp hmr).2, fun l r => ?_⟩
  rw [← h.indexed.free_eq]
  exact ⟨h.indexed.right l r, h.indexed.left l r⟩

theorem Represents.tiles (h : Represents NodeSize a A) :
    Disjoint (freeIntervals a) (liveBlocks a) ∧
      Tiles (freeIntervals a ∪ liveBlocks a) (nodeBytes NodeSize a) := by
  rw [← h.indexed.free_eq, ← h.live, ← h.points]
  exact ⟨A.apart, A.tiles⟩

theorem kept_true : Kept NodeSize fresh fun _ _ => True :=
  ⟨trivial, fun _ _ _ _ _ => trivial, fun _ _ _ _ => trivial, fun _ _ _ _ _ _ => trivial⟩

/-- Over disjoint nodes no call a client may make fails, the indexes agree, and the free
intervals and live blocks tile the bytes of the nodes. -/
theorem allocator_sound (hN : 1 ≤ NodeSize)
    (hr : (system NodeSize (DisjointBlock NodeSize)).Run (Permitted NodeSize) tr a) :
    (∀ mem, DisjointBlock NodeSize [] mem → ∃ a₀, construct NodeSize mem = .ok a₀) ∧
    (∀ len mem, 1 ≤ len → len ≤ NodeSize →
      (NeedsNode a len → DisjointBlock NodeSize a.memoryNodeList mem) →
      ∃ a' res, allocate NodeSize a len mem = .ok (a', res)) ∧
    (∀ ptr ∈ livePtrs tr, ∃ a', release a ptr = .ok a') ∧
    IndexesAgree a ∧
    (∀ p, p ∈ livePtrs tr ↔ ∃ n, a.addr2len p = some n) ∧
    Disjoint (freeIntervals a) (liveBlocks a) ∧
    Tiles (freeIntervals a ∪ liveBlocks a) (nodeBytes NodeSize a) := by
  obtain ⟨A, hrep, -, ht⟩ := run_kept (fun _ _ h => h) kept_true hN hr
  refine ⟨fun mem hm => ?_, fun len mem h1 h2 hm => ?_, fun ptr hptr => ?_, hrep.indexesAgree,
    ht.2, hrep.tiles⟩
  · obtain ⟨a₀, _, _, hok, -⟩ := construct_ok hN hm
    exact ⟨a₀, hok⟩
  · obtain ⟨a', _, _, l, _, _, _, _, hok, -⟩ := hrep.allocate_ok h1 h2 hm
    exact ⟨a', l, hok⟩
  · obtain ⟨k, hk⟩ := (ht.2 ptr).mp hptr
    obtain ⟨a', _, _, _, _, _, hok, -⟩ := hrep.release_ok hk
    exact ⟨a', hok⟩

theorem allocator_sound_sample : ∃ a, (system 4 (DisjointBlock 4)).Run (Permitted 4)
      [.allocate 3 0 100, .release 100] a ∧
    IndexesAgree a ∧ Tiles (freeIntervals a ∪ liveBlocks a) (nodeBytes 4 a) := by
  have hr : ∃ a, (system 4 (DisjointBlock 4)).Run (Permitted 4)
      [.allocate 3 0 100, .release 100] a :=
    ⟨_, System.run_of_exec exec_step ⟨100, by decide, rfl⟩ rfl⟩
  obtain ⟨a, hr⟩ := hr
  obtain ⟨-, -, -, hi, -, -, ht⟩ := allocator_sound (by decide) hr
  exact ⟨a, hr, hi, ht⟩

def NodesApart (NodeSize : ℕ) (nodes : List ℕ) : Prop :=
  nodes.Pairwise fun m m' => m' + NodeSize < m ∨ m + NodeSize < m'

theorem separate_disjoint {nodes : List ℕ} (h : SeparateBlock NodeSize nodes m) :
    DisjointBlock NodeSize nodes m :=
  ⟨h.1, fun m' hm' => (h.2 m' hm').imp le_of_lt le_of_lt⟩

theorem Represents.not_touching (h : Represents NodeSize a A)
    (hm : SeparateBlock NodeSize a.memoryNodeList m) {q : ℕ × ℕ} (hq : q ∈ A.free) :
    q.2 ≠ m ∧ q.1 ≠ m + NodeSize := by
  have hn := A.lt_of_free hq
  have hin : ∀ x, q.1 ≤ x → x < q.2 → x ∈ nodeBytes NodeSize a := fun x h1 h2 =>
    h.points ▸ A.tiles.span_subset (Or.inl hq) ⟨h1, h2⟩
  constructor
  · intro he
    obtain ⟨m', hm', hx⟩ := hin (q.2 - 1) (by omega) (by omega)
    have hs := hm.2 m' hm'
    omega
  · intro he
    obtain ⟨m', hm', hx⟩ := hin q.1 le_rfl hn
    have hs := hm.2 m' hm'
    omega

theorem kept_coalesced : Kept NodeSize (SeparateBlock NodeSize) fun nodes A =>
    Coalesced A.free ∧ NodesApart NodeSize nodes where
  empty := ⟨by simp [Coalesced, Arena.empty], List.Pairwise.nil⟩
  grow hlr hd hrep hm hA := by
    refine ⟨Arena.grow_coalesced hA.1 hlr hd (fun q hq => (hrep.not_touching hm hq).1)
      fun q hq => (hrep.not_touching hm hq).2, ?_⟩
    refine List.pairwise_append.mpr ⟨hA.2, List.pairwise_singleton _ _, fun x hx y hy => ?_⟩
    rw [List.mem_singleton.mp hy]
    exact hm.2 x hx
  take hp hlm hmr hA := ⟨Arena.take_coalesced hA.1 hp hlm hmr, hA.2⟩
  absorb hp hx hy hprev hnext hA := ⟨Arena.absorb_coalesced hA.1 hp hx hy hprev hnext, hA.2⟩

theorem NodesApart.apart {nodes : List ℕ} (h : NodesApart NodeSize nodes) {m m' : ℕ}
    (hm : m ∈ nodes) (hm' : m' ∈ nodes) (hne : m ≠ m') :
    m' + NodeSize < m ∨ m + NodeSize < m' := by
  have hsymm : Std.Symm fun m m' : ℕ => m' + NodeSize < m ∨ m + NodeSize < m' :=
    ⟨fun _ _ hxy => hxy.symm⟩
  exact List.Pairwise.forall h hm hm' hne

theorem NodesApart.nodup {nodes : List ℕ} (h : NodesApart NodeSize nodes) : nodes.Nodup :=
  List.Pairwise.imp (fun hxy => by omega) h

theorem nodes_tile (hN : 1 ≤ NodeSize) (h : NodesApart NodeSize a.memoryNodeList) :
    Tiles {q | q.1 ∈ a.memoryNodeList ∧ q.2 = q.1 + NodeSize} (nodeBytes NodeSize a) := by
  refine ⟨?_, ?_, ?_⟩
  · intro q hq
    have he := hq.2
    omega
  · intro q hq q' hq' hne
    obtain ⟨hin, he⟩ := hq
    obtain ⟨hin', he'⟩ := hq'
    apply disjoint_left.mpr
    intro x hx hx'
    have hsep := h.apart hin hin' fun h1 => hne (Prod.ext h1 (by omega))
    rw [mem_span] at hx hx'
    omega
  · ext x
    simp only [nodeBytes, mem_iUnion, mem_ofPred_eq, exists_prop, mem_span]
    constructor
    · intro hq
      obtain ⟨q, ⟨hin, he⟩, hx⟩ := hq
      exact ⟨q.1, hin, he ▸ hx⟩
    · intro hm
      obtain ⟨m, hin, hx⟩ := hm
      exact ⟨(m, m + NodeSize), ⟨hin, rfl⟩, hx⟩

theorem nodes_coalesced (hN : 1 ≤ NodeSize) (h : NodesApart NodeSize a.memoryNodeList) :
    Coalesced {q | q.1 ∈ a.memoryNodeList ∧ q.2 = q.1 + NodeSize} := by
  intro q hq q' hq' hne
  obtain ⟨hin, he⟩ := hq
  obtain ⟨hin', he'⟩ := hq'
  have hsep := h.apart hin hin' (by omega)
  omega

/-- Once nothing is live, every node is one free region. -/
theorem regions_of_nothing_live (hN : 1 ≤ NodeSize)
    (hr : (system NodeSize (SeparateBlock NodeSize)).Run (Permitted NodeSize) tr a)
    (hlive : livePtrs tr = []) :
    a.freeMemoryRegion =
        (a.memoryNodeList.map fun m => (⟨NodeSize, m, m + NodeSize⟩ : MemoryRegion)).toFinset ∧
      (a.memoryNodeList.map fun m => (⟨NodeSize, m, m + NodeSize⟩ : MemoryRegion)).Nodup := by
  obtain ⟨A, hrep, ⟨hc, hapart⟩, ht⟩ :=
    run_kept (fun _ _ h => separate_disjoint h) kept_coalesced hN hr
  have hno : A.live = ∅ := by
    rw [hrep.live, eq_empty_iff_forall_notMem]
    rintro q ⟨k, hk, -⟩
    have hmem := (ht.2 q.1).mpr ⟨k, hk⟩
    rw [hlive] at hmem
    cases hmem
  have htiles : Tiles A.free (nodeBytes NodeSize a) := by
    have htiles := A.tiles
    rwa [hno, union_empty, hrep.points] at htiles
  have hfree := htiles.eq_of_coalesced (nodes_tile hN hapart) hc (nodes_coalesced hN hapart)
  refine ⟨?_, hapart.nodup.map fun m m' he => (MemoryRegion.mk.inj he).2.1⟩
  ext ⟨k, l, r⟩
  rw [hrep.indexed.region, hfree, List.mem_toFinset, List.mem_map]
  constructor
  · rintro ⟨⟨hl, rfl : r = l + NodeSize⟩, rfl : k = l + NodeSize - l⟩
    exact ⟨l, hl, by rw [Nat.add_sub_cancel_left]⟩
  · rintro ⟨m, hm, he⟩
    cases he
    exact ⟨⟨hm, rfl⟩, (Nat.add_sub_cancel_left ..).symm⟩

/-- Over nodes that do not touch, the free regions are the maximal intervals of node bytes
outside the live blocks; once nothing is live they are the nodes, one region each. -/
theorem run_canonical (hN : 1 ≤ NodeSize)
    (hr : (system NodeSize (SeparateBlock NodeSize)).Run (Permitted NodeSize) tr a) :
    (∀ mr, mr ∈ a.freeMemoryRegion ↔ mr.len = mr.right - mr.left ∧
      IsMaximalIn (nodeBytes NodeSize a \ ⋃ q ∈ liveBlocks a, span q) (mr.left, mr.right)) ∧
    (livePtrs tr = [] →
      a.freeMemoryRegion =
        (a.memoryNodeList.map fun m => ⟨NodeSize, m, m + NodeSize⟩).toFinset ∧
      a.freeMemoryRegion.card = a.memoryNodeList.length) := by
  refine ⟨fun mr => ?_, fun hlive => ?_⟩
  · obtain ⟨A, hrep, ⟨hc, -⟩, -⟩ :=
      run_kept (fun _ _ h => separate_disjoint h) kept_coalesced hN hr
    rw [hrep.indexed.region, A.tiles.mem_iff_isMaximalIn A.apart hc, hrep.points, hrep.live,
      and_comm]
  · obtain ⟨heq, hnodup⟩ := regions_of_nothing_live hN hr hlive
    refine ⟨heq, ?_⟩
    rw [heq, List.toFinset_card_of_nodup hnodup, List.length_map]

theorem run_canonical_sample : ∃ a, (system 4 (SeparateBlock 4)).Run (Permitted 4)
      [.allocate 3 0 100, .allocate 1 0 103, .release 100, .release 103] a ∧
    a.freeMemoryRegion = {⟨4, 100, 104⟩} := by
  have hr : ∃ a, (system 4 (SeparateBlock 4)).Run (Permitted 4)
      [.allocate 3 0 100, .allocate 1 0 103, .release 100, .release 103] a ∧
      a.memoryNodeList = [100] :=
    ⟨_, System.run_of_exec exec_step ⟨100, by decide, rfl⟩ rfl, rfl⟩
  obtain ⟨a, hr, hnodes⟩ := hr
  obtain ⟨-, hall⟩ := run_canonical (by decide) hr
  refine ⟨a, hr, ?_⟩
  rw [(hall (by decide)).1, hnodes]
  rfl

end ModCpp.MemoryAllocator
