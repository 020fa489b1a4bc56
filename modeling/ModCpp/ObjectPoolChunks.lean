import ModCpp.ObjectPool
import Mathlib.Data.List.Perm.Basic
import Mathlib.Data.List.Pairwise

/-!
# The chunks of the object pool

All nodes but the last are used up. Every chunk carved out of them is that of a live object or
on the free list; the chunks do not overlap, and no byte of an object is a byte of a link.
-/

namespace ModCpp.ObjectPool
variable {c : Layout} {p p' : Pool} {h : History} {chs l : List ℕ} {full : List MemoryNode}
  {last n : MemoryNode} {k a b block : ℕ} {bytes : ℕ → UInt8}

theorem chunkSize_pos : 0 < c.chunkSize := Nat.succ_pos _

/-- The nodes before `last` are used up, and `k` chunks have been carved out of `last`. -/
structure Bumped (c : Layout) (full : List MemoryNode) (last : MemoryNode) (k : ℕ) : Prop where
  fits : c.Fits
  full_current : ∀ n ∈ full, n.current = n.mem + c.nodeSize
  last_current : last.current = last.mem + k * c.chunkSize
  le : k ≤ c.nodeCapacity
  pos : full ≠ [] → 1 ≤ k
  placed : ∀ n ∈ full ++ [last], n.mem ≠ 0 ∧ n.mem + c.nodeSize ≤ 2 ^ 64
  apart : (full ++ [last]).Pairwise fun m n => Apart c.nodeSize m.mem n.mem

def Carved (c : Layout) (nodes : List MemoryNode) (a : ℕ) : Prop :=
  ∃ n ∈ nodes, ∃ i, a = n.mem + i * c.chunkSize ∧ a + c.chunkSize ≤ n.current

/-- The chunks `chs` of the live objects and the chunks `l` of the free list. -/
structure Sound (c : Layout) (h : History) (p : Pool) (chs l : List ℕ) (full : List MemoryNode)
    (last : MemoryNode) (k : ℕ) : Prop where
  nodes : p.memoryNodeList = full ++ [last]
  bumped : Bumped c full last k
  live : h.live = chs.map toObject
  chain : Linked p.link (ptr p.freeList) l
  released : l.Perm h.released
  carved : ∀ a ∈ chs ++ l, Carved c (full ++ [last]) a
  apart : (chs ++ l).Pairwise (Apart c.chunkSize)
  count : (chs ++ l).length = full.length * c.nodeCapacity + k
  peak : h.peak = (chs ++ l).length

theorem nodeSize_eq (hfits : c.Fits) : c.nodeSize = c.nodeCapacity * c.chunkSize := by
  rw [Layout.nodeSize, Nat.mod_eq_of_lt hfits, Nat.mul_comm]

theorem hasFreeSpace_eq (hfits : c.Fits) (hn : n.current = n.mem + k * c.chunkSize) :
    n.hasFreeSpace c = .ok (decide (k < c.nodeCapacity)) := by
  have hmod : (n.current - n.mem) % c.chunkSize = 0 := by
    rw [hn, Nat.add_sub_cancel_left, Nat.mul_mod_left]
  have hlt : n.current < n.mem + c.nodeSize ↔ k < c.nodeCapacity := by
    rw [hn, nodeSize_eq hfits, Nat.add_lt_add_iff_left, Nat.mul_lt_mul_right chunkSize_pos]
  rw [MemoryNode.hasFreeSpace, ok_bind (assert_of hmod)]
  simp only [hlt]
  rfl

theorem allocateMemory_eq (hfits : c.Fits) (hn : n.current = n.mem + k * c.chunkSize)
    (hk : k < c.nodeCapacity) :
    n.allocateMemory c = .ok ({ n with current := n.current + c.chunkSize }, n.current) := by
  rw [MemoryNode.allocateMemory, ok_bind (hasFreeSpace_eq hfits hn), ok_bind (assert_of (by simpa))]
  rfl

theorem getLastedNode_eq (hp : p.memoryNodeList = full ++ [last]) : p.getLastedNode = .ok last := by
  rw [Pool.getLastedNode, hp, List.getLast?_concat]
  rfl

theorem setLastedNode_eq (hp : p.memoryNodeList = full ++ [last]) :
    p.setLastedNode n = { p with memoryNodeList := full ++ [n] } := by
  rw [Pool.setLastedNode, hp, List.dropLast_concat]

theorem prepare_reuse (hp : p.freeList ≠ 0) :
    p.prepare c block = .ok (p, p.freeList, some (p.memory.loadWord p.freeList)) := if_pos hp

theorem prepare_bump (hfits : c.Fits) (hp : p.freeList = 0)
    (hnodes : p.memoryNodeList = full ++ [last])
    (hlast : last.current = last.mem + k * c.chunkSize) (hk : k < c.nodeCapacity) :
    p.prepare c block = .ok ({ p with
      memoryNodeList := full ++ [{ last with current := last.current + c.chunkSize }] },
      last.current, none) := by
  have hfree := hasFreeSpace_eq hfits hlast
  rw [decide_eq_true hk] at hfree
  rw [Pool.prepare, if_neg (by simpa using hp), ok_bind (getLastedNode_eq hnodes), ok_bind hfree,
    if_pos rfl, ok_bind (getLastedNode_eq hnodes), ok_bind hfree, ok_bind (assert_of rfl),
    ok_bind (allocateMemory_eq hfits hlast hk)]
  simp only [setLastedNode_eq hnodes]
  rfl

theorem prepare_grow (hfits : c.Fits) (hp : p.freeList = 0)
    (hnodes : p.memoryNodeList = full ++ [last])
    (hlast : last.current = last.mem + k * c.chunkSize) (hk : ¬ k < c.nodeCapacity)
    (hcap : 1 ≤ c.nodeCapacity) :
    p.prepare c block = .ok ({ p with
      memoryNodeList := full ++ [last] ++ [⟨block, block + c.chunkSize⟩] }, block, none) := by
  have hfree := hasFreeSpace_eq hfits hlast
  rw [decide_eq_false hk] at hfree
  have hnew : (p.createMemoryNode block).memoryNodeList = full ++ [last] ++ [⟨block, block⟩] := by
    rw [Pool.createMemoryNode, hnodes]
  have hblock : (⟨block, block⟩ : MemoryNode).current = block + 0 * c.chunkSize := by simp
  have hfree' := hasFreeSpace_eq hfits hblock
  rw [decide_eq_true (show 0 < c.nodeCapacity by omega)] at hfree'
  rw [Pool.prepare, if_neg (by simpa using hp), ok_bind (getLastedNode_eq hnodes), ok_bind hfree,
    if_neg (by simp), ok_bind (getLastedNode_eq hnew), ok_bind hfree', ok_bind (assert_of rfl),
    ok_bind (allocateMemory_eq hfits hblock (by omega))]
  simp only [setLastedNode_eq hnew]
  rfl

theorem Bumped.bump (hb : Bumped c full last k) (hk : k < c.nodeCapacity) :
    Bumped c full { last with current := last.current + c.chunkSize } (k + 1) where
  fits := hb.fits
  full_current := hb.full_current
  last_current := by
    simp only [hb.last_current]
    rw [Nat.succ_mul, Nat.add_assoc]
  le := hk
  pos _ := Nat.succ_pos k
  placed n hn := by
    rcases List.mem_append.mp hn with hn | hn
    · exact hb.placed n (List.mem_append_left _ hn)
    · rw [List.mem_singleton.mp hn]
      exact hb.placed last (by simp)
  apart := by
    have hapart := hb.apart
    rw [List.pairwise_append] at hapart ⊢
    simpa using hapart

theorem Bumped.grow (hb : Bumped c full last c.nodeCapacity) (hcap : 1 ≤ c.nodeCapacity)
    (hf : FreshBlock c (full ++ [last]) block) :
    Bumped c (full ++ [last]) ⟨block, block + c.chunkSize⟩ 1 where
  fits := hb.fits
  full_current n hn := by
    rcases List.mem_append.mp hn with hn | hn
    · exact hb.full_current n hn
    · rw [List.mem_singleton.mp hn, hb.last_current, nodeSize_eq hb.fits]
  last_current := by simp
  le := hcap
  pos _ := le_rfl
  placed n hn := by
    rcases List.mem_append.mp hn with hn | hn
    · exact hb.placed n hn
    · rw [List.mem_singleton.mp hn]
      exact ⟨hf.1, hf.2.1⟩
  apart := by
    rw [List.pairwise_append]
    refine ⟨hb.apart, by simp, fun n hn m hm => ?_⟩
    rw [List.mem_singleton.mp hm]
    exact (hf.2.2 n hn).symm

theorem Bumped.current_le (hb : Bumped c full last k) (hn : n ∈ full ++ [last]) :
    n.current ≤ n.mem + c.nodeSize := by
  rcases List.mem_append.mp hn with hn | hn
  · exact (hb.full_current n hn).le
  · rw [List.mem_singleton.mp hn, hb.last_current, nodeSize_eq hb.fits]
    exact Nat.add_le_add_left (Nat.mul_le_mul_right _ hb.le) _

theorem Bumped.apart_current (hb : Bumped c full last k) (hk : k < c.nodeCapacity)
    (ha : Carved c (full ++ [last]) a) : Apart c.chunkSize last.current a := by
  obtain ⟨n, hn, i, hi, hle⟩ := ha
  have hend : last.current + c.chunkSize ≤ last.mem + c.nodeSize := by
    rw [hb.last_current, nodeSize_eq hb.fits, Nat.add_assoc, ← Nat.succ_mul]
    exact Nat.add_le_add_left (Nat.mul_le_mul_right _ hk) _
  have hstart : last.mem ≤ last.current := hb.last_current ▸ Nat.le_add_right _ _
  rcases List.mem_append.mp hn with hfull | hlast
  · have hcur := hb.full_current n hfull
    have hapart := (List.pairwise_append.mp hb.apart).2.2 n hfull last (by simp)
    rcases hapart with hlt | hlt
    · exact .inr (by omega)
    · exact .inl (by omega)
  · rw [List.mem_singleton.mp hlast] at hle
    exact .inr hle

theorem Bumped.apart_block (hb : Bumped c full last k) (hcap : 1 ≤ c.nodeCapacity)
    (hf : FreshBlock c (full ++ [last]) block) (ha : Carved c (full ++ [last]) a) :
    Apart c.chunkSize block a := by
  obtain ⟨n, hn, i, hi, hle⟩ := ha
  have hcur := hb.current_le hn
  have hsize : c.chunkSize ≤ c.nodeSize := by
    rw [nodeSize_eq hb.fits]
    exact Nat.le_mul_of_pos_left _ hcap
  rcases hf.2.2 n hn with hlt | hlt
  · exact .inl (by omega)
  · exact .inr (by omega)

theorem Carved.mono {nodes nodes' : List MemoryNode} (ha : Carved c nodes a)
    (hn : ∀ n ∈ nodes, ∃ n' ∈ nodes', n'.mem = n.mem ∧ n.current ≤ n'.current) :
    Carved c nodes' a := by
  obtain ⟨n, hmem, i, hi, hle⟩ := ha
  obtain ⟨n', hmem', hstart, hcur⟩ := hn n hmem
  exact ⟨n', hmem', i, by rw [hstart, hi], hle.trans hcur⟩

theorem link_congr (h : p'.memory = p.memory) : p'.link = p.link := by
  funext a
  rw [Pool.link, Pool.link, h]

theorem loadWord_write (ha : a = b ∨ Apart c.chunkSize a b) :
    (p.write c (toObject a) bytes).memory.loadWord b = p.memory.loadWord b := by
  rw [Pool.write, loadWord_fill]
  rw [Apart, Layout.chunkSize] at ha
  rw [toObject]
  omega

theorem link_write (ha : a = b ∨ Apart c.chunkSize a b) :
    (p.write c (toObject a) bytes).link b = p.link b := by
  rw [Pool.link, loadWord_write ha, Pool.link]

namespace Sound

theorem apart_of_ne (hs : Sound c h p chs l full last k) (ha : a ∈ chs ++ l) (hb : b ∈ chs ++ l)
    (hab : a ≠ b) : Apart c.chunkSize a b := hs.apart.forall ha hb hab

theorem nodup (hs : Sound c h p chs l full last k) : (chs ++ l).Nodup :=
  hs.apart.imp fun {x y} hxy he => by
    have hw := chunkSize_pos (c := c)
    rw [Apart, he] at hxy
    omega

theorem linked_write (hs : Sound c h p chs l full last k) (ha : a ∈ chs ++ l)
    (bytes : ℕ → UInt8) :
    Linked (p.write c (toObject a) bytes).link (ptr p.freeList) l := by
  apply hs.chain.congr
  intro b hb
  apply link_write
  by_cases hab : a = b
  · exact .inl hab
  · exact .inr (hs.apart_of_ne ha (List.mem_append_right _ hb) hab)

theorem nil_of_null (hs : Sound c h p chs l full last k) (hp : p.freeList = 0) : l = [] := by
  have hchain := hs.chain
  rw [hp] at hchain
  exact hchain.eq_nil

theorem write (hs : Sound c h p chs l full last k) (ha : a ∈ chs) :
    Sound c h (p.write c (toObject a) bytes) chs l full last k :=
  { hs with chain := hs.linked_write (List.mem_append_left _ ha) bytes }

theorem reuse {l : List ℕ} (hs : Sound c h p chs (a :: l) full last k) :
    Sound c (h.record (.new block bytes (some (toObject a))))
      { p with freeList := p.memory.loadWord a } (a :: chs) l full last k := by
  have hperm : (a :: chs ++ l).Perm (chs ++ a :: l) := List.perm_middle.symm
  constructor
  · exact hs.nodes
  · exact hs.bumped
  · simp [History.record, hs.live]
  · have hlink : Pool.link { p with freeList := p.memory.loadWord a } = p.link := link_congr rfl
    rw [hlink]
    exact hs.chain.2
  · have herase := hs.released.erase a
    rw [List.erase_cons_head] at herase
    exact herase
  · exact fun b hb => hs.carved b (hperm.subset hb)
  · exact (hperm.pairwise_iff fun h => Apart.symm h).mpr hs.apart
  · rw [hperm.length_eq]
    exact hs.count
  · have hlive : h.live.length = chs.length := by rw [hs.live, List.length_map]
    have hpeak := hs.peak
    simp only [List.length_append, List.length_cons] at hpeak
    simp only [History.record, hlive, List.length_append, List.length_cons]
    omega

theorem carve {full' : List MemoryNode} {last' : MemoryNode} {k' : ℕ}
    (hs : Sound c h p chs [] full last k) (hp : p.freeList = 0) (hb : Bumped c full' last' k')
    (hmono : ∀ b, Carved c (full ++ [last]) b → Carved c (full' ++ [last']) b)
    (ha : Carved c (full' ++ [last']) a)
    (hapart : ∀ b, Carved c (full ++ [last]) b → Apart c.chunkSize a b)
    (hcount : full'.length * c.nodeCapacity + k' = full.length * c.nodeCapacity + k + 1) :
    Sound c (h.record (.new block bytes (some (toObject a))))
      { p with memoryNodeList := full' ++ [last'] } (a :: chs) [] full' last' k' := by
  constructor
  · rfl
  · exact hb
  · simp [History.record, hs.live]
  · exact (linked_nil).mpr (by simp [ptr, hp])
  · have hnil : h.released = [] := hs.released.nil_eq.symm
    simp [History.record, hnil]
  · rw [List.cons_append, List.forall_mem_cons]
    exact ⟨ha, fun b hb => hmono b (hs.carved b hb)⟩
  · rw [List.cons_append, List.pairwise_cons]
    exact ⟨fun b hb => hapart b (hs.carved b hb), hs.apart⟩
  · have hlen := hs.count
    simp only [List.length_append, List.length_cons, List.length_nil] at hlen ⊢
    omega
  · have hlive : h.live.length = chs.length := by rw [hs.live, List.length_map]
    have hpeak := hs.peak
    simp only [List.length_append, List.length_nil] at hpeak
    simp only [History.record, hlive, List.length_append, List.length_cons, List.length_nil]
    omega

theorem toObject_injective : Function.Injective toObject := fun _ _ h => Nat.add_right_cancel h

theorem carved_bounds (hs : Sound c h p chs l full last k) (ha : a ∈ chs ++ l) :
    a ≠ 0 ∧ a < 2 ^ 64 := by
  obtain ⟨n, hn, i, hi, hle⟩ := hs.carved a ha
  obtain ⟨hpos, hend⟩ := hs.bumped.placed n hn
  have hcur := hs.bumped.current_le hn
  have hw := chunkSize_pos (c := c)
  omega

theorem putBack (hs : Sound c h p chs l full last k) (ha : a ∈ chs) :
    Sound c (h.record (.release (toObject a) bytes)) (p.putBack (toObject a))
      (chs.erase a) (a :: l) full last k := by
  have hraw : toRawmemory (toObject a) = a := Nat.add_sub_cancel ..
  have hin : a ∈ chs ++ l := List.mem_append_left _ ha
  have hperm : (chs.erase a ++ a :: l).Perm (chs ++ l) :=
    List.perm_middle.trans ((List.perm_cons_erase ha).symm.append_right l)
  have hfree : p.freeList < 2 ^ 64 := by
    by_cases hz : p.freeList = 0
    · omega
    · have hchain := hs.chain
      rw [ptr, if_neg hz] at hchain
      obtain ⟨rest, rfl, _⟩ := hchain.exists_cons
      exact (hs.carved_bounds (by simp)).2
  have hmem : (p.putBack (toObject a)).memory = p.memory.storeWord a p.freeList := by
    rw [Pool.putBack, hraw]
  constructor
  · exact hs.nodes
  · exact hs.bumped
  · rw [List.map_erase toObject_injective, ← hs.live]
    rfl
  · rw [linked_cons]
    refine ⟨?_, ?_⟩
    · rw [Pool.putBack, hraw, ptr, if_neg (hs.carved_bounds hin).1]
    · rw [Pool.link, hmem, loadWord_storeWord hfree]
      apply hs.chain.congr
      intro b hb
      have hne : b ≠ a := by
        intro he
        subst he
        exact (List.nodup_append.mp hs.nodup).2.2 _ ha _ hb rfl
      have hfar := hs.apart_of_ne (List.mem_append_right _ hb) hin hne
      rw [Pool.link, hmem, loadWord_storeWord_of_apart]
      · rfl
      · rw [Apart, Layout.chunkSize] at hfar
        rw [Apart]
        omega
  · rw [History.record, hraw]
    exact hs.released.cons a
  · exact fun b hb => hs.carved b (hperm.subset hb)
  · exact (hperm.pairwise_iff fun h => Apart.symm h).mpr hs.apart
  · rw [hperm.length_eq]
    exact hs.count
  · rw [hperm.length_eq]
    exact hs.peak

end Sound

end ModCpp.ObjectPool
