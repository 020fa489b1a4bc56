import Mathlib.Logic.Function.Basic
import ModCpp.Ledger
import ModCpp.ObjectPool

/-!
# The vector under the object pool

The pool keeps its nodes in a `std::vector`, which moves them to other storage when it is full,
and the destructors of the old storage run `delete[]` on what is left of them. `VectorPool` is
the pool with these moves. It refines the pool that only appends to a list of nodes.
-/

namespace ModCpp.ObjectPool

structure Arrays where
  live : ℕ → Bool
  log : Ledger ℕ

structure VectorPool where
  pool : Pool
  capacity : ℕ
  arrays : Arrays

/-- The new node and what the move constructor leaves of the old one. -/
def MemoryNode.moveConstruct (rhs : MemoryNode) : MemoryNode × MemoryNode :=
  (⟨rhs.mem, rhs.current⟩, ⟨0, 0⟩)

def Arrays.new (m : Arrays) (block : ℕ) : Arrays :=
  ⟨Function.update m.live block true, m.log ++ [(block, .acquire)]⟩

/-- `delete[] mem`. -/
def Arrays.delete (m : Arrays) (mem : ℕ) : Except Failure Arrays :=
  if mem = 0 then pure m
  else if m.live mem then
    pure ⟨Function.update m.live mem false, m.log ++ [(mem, .release)]⟩
  else throw (.undefined "delete of a block that is not alive")

/-- The destructors of the nodes of a storage. -/
def destroyAll (m : Arrays) : List MemoryNode → Except Failure Arrays
  | [] => pure m
  | node :: nodes => do
    let m ← m.delete node.mem
    destroyAll m nodes

section nodes
variable {m : Arrays} {nodes : List MemoryNode} {a : ℕ}

theorem moveConstruct_fst (nodes : List MemoryNode) :
    (nodes.map MemoryNode.moveConstruct).map Prod.fst = nodes := by
  rw [List.map_map]
  exact List.map_id' nodes

theorem destroyAll_moved (nodes : List MemoryNode) :
    destroyAll m ((nodes.map MemoryNode.moveConstruct).map Prod.snd) = .ok m := by
  induction nodes with
  | nil => rfl
  | cons _ nodes ih => exact ih

structure Arrays.Owned (m : Arrays) (own : List ℕ) : Prop where
  owns : Ledger.Owns m.log own
  live : ∀ a, m.live a = true ↔ a ∈ own
  nonzero : 0 ∉ own

theorem Arrays.owned_nil : Arrays.Owned ⟨fun _ => false, []⟩ [] where
  owns := Ledger.owns_nil
  live _ := iff_of_false Bool.false_ne_true List.not_mem_nil
  nonzero := List.not_mem_nil

theorem Arrays.Owned.new {own : List ℕ} (h : m.Owned own) (ha : a ∉ own) (hne : a ≠ 0) :
    (m.new a).Owned (own ++ [a]) where
  owns := (h.owns.acquire ha).perm (List.perm_append_singleton a own).symm
  live b := by
    rw [List.mem_append, List.mem_singleton, ← h.live]
    simp only [Arrays.new, Function.update_apply]
    split_ifs with hb
    · simp [hb]
    · simp [hb]
  nonzero := by simp [h.nonzero, Ne.symm hne]

theorem Arrays.Owned.delete {own : List ℕ} (h : m.Owned (a :: own)) :
    ∃ m', m.delete a = .ok m' ∧ m'.Owned own := by
  have hne : a ≠ 0 := fun he => h.nonzero (he ▸ List.mem_cons_self ..)
  have hlive : m.live a = true := (h.live a).mpr (List.mem_cons_self ..)
  obtain ⟨ha, -⟩ := List.nodup_cons.mp h.owns.nodup
  refine ⟨_, (if_neg hne).trans (if_pos hlive), h.owns.release, fun b => ?_, ?_⟩
  · simp only [Function.update_apply]
    split_ifs with hb
    · rw [hb]
      exact iff_of_false (by decide) ha
    · rw [h.live, List.mem_cons, or_iff_right hb]
  · exact fun hin => h.nonzero (List.mem_cons_of_mem _ hin)

theorem destroyAll_owned (h : m.Owned (nodes.map MemoryNode.mem)) :
    ∃ m', destroyAll m nodes = .ok m' ∧ m'.Owned [] := by
  induction nodes generalizing m with
  | nil => exact ⟨m, rfl, h⟩
  | cons node nodes ih =>
    obtain ⟨m', hdelete, hm'⟩ := h.delete
    obtain ⟨m'', hrest, hm''⟩ := ih hm'
    exact ⟨m'', (ok_bind hdelete).trans hrest, hm''⟩

end nodes

namespace VectorPool

/-- `memory_node_list.emplace_back()`, where `new[]` gives `block` and a full vector goes on with
room for `capacity` nodes. The new node is constructed before the others are moved. -/
def createMemoryNode (w : VectorPool) (block capacity : ℕ) : Except Failure VectorPool :=
  let nodes := w.pool.memoryNodeList
  let node : MemoryNode := ⟨block, block⟩
  if nodes.length < w.capacity then
    pure { w with
      pool := { w.pool with memoryNodeList := nodes ++ [node] }
      arrays := w.arrays.new block }
  else do
    let moves := nodes.map MemoryNode.moveConstruct
    let arrays ← destroyAll (w.arrays.new block) (moves.map Prod.snd)
    pure ⟨{ w.pool with memoryNodeList := moves.map Prod.fst ++ [node] }, capacity, arrays⟩

def construct (memory : Memory) (block capacity : ℕ) : Except Failure VectorPool :=
  createMemoryNode ⟨⟨memory, [], 0⟩, 0, ⟨fun _ => false, []⟩⟩ block capacity

def prepare (c : Layout) (w : VectorPool) (block capacity : ℕ) :
    Except Failure (VectorPool × ℕ × Option ℕ) := do
  if w.pool.freeList ≠ 0 then
    return (w, w.pool.freeList, some (w.pool.memory.loadWord w.pool.freeList))
  else
    let last ← w.pool.getLastedNode
    let free ← last.hasFreeSpace c
    let w ← (if free then pure w else w.createMemoryNode block capacity)
    let node ← w.pool.getLastedNode
    let free ← node.hasFreeSpace c
    assert (free = true) "node.has_free_space()"
    let (node, mem) ← node.allocateMemory c
    return ({ w with pool := w.pool.setLastedNode node }, mem, none)

def new (c : Layout) (w : VectorPool) (block capacity : ℕ) (bytes : ℕ → UInt8) (throws : Bool) :
    Except Failure (VectorPool × Option ℕ) := do
  let (w, chunk, prev) ← w.prepare c block capacity
  let pool := w.pool.write c (toObject chunk) bytes
  return if throws then ({ w with pool := pool }, none)
    else ({ w with pool := pool.commit prev }, some (toObject chunk))

/-- The destructor of the vector, with which the pool ends. -/
def destroy (w : VectorPool) : Except Failure Arrays := destroyAll w.arrays w.pool.memoryNodeList

/-- A call of a client, and the capacity the vector chooses if the call makes it grow. -/
def next (c : Layout) (w : VectorPool) : Op × ℕ → Option VectorPool
  | (.new block bytes res, capacity) =>
    if (NeedsNode c w.pool → FreshBlock c w.pool.memoryNodeList block) ∧
        w.pool.memoryNodeList.length < capacity then
      match w.new c block capacity bytes res.isNone with
      | .ok (w', r) => if r = res then some w' else none
      | .error _ => none
    else none
  | (.release obj bytes, _) => some { w with pool := w.pool.release c obj bytes }
  | (.write obj bytes, _) => some { w with pool := w.pool.write c obj bytes }

def system (c : Layout) : System VectorPool (Op × ℕ) where
  init w := ∃ memory block capacity, FreshBlock c [] block ∧ construct memory block capacity = .ok w
  step w e w' := next c w e = some w'

def Safe (w : VectorPool) : Prop := w.arrays.Owned (w.pool.memoryNodeList.map MemoryNode.mem)

variable {c : Layout} {w w' : VectorPool} {p : Pool} {block capacity : ℕ} {op : Op}
  {tr : List (Op × ℕ)}

theorem Safe.createMemoryNode (h : w.Safe) (hb : block ∉ w.pool.memoryNodeList.map MemoryNode.mem)
    (hne : block ≠ 0) : ∃ w', w.createMemoryNode block capacity = .ok w' ∧ w'.Safe ∧
      w'.pool = w.pool.createMemoryNode block := by
  have howned : (w.arrays.new block).Owned
      ((w.pool.createMemoryNode block).memoryNodeList.map MemoryNode.mem) := by
    rw [Pool.createMemoryNode, List.map_append]
    exact Arrays.Owned.new h hb hne
  rw [VectorPool.createMemoryNode]
  split_ifs
  · exact ⟨_, rfl, howned, rfl⟩
  · refine ⟨_, ok_bind (destroyAll_moved w.pool.memoryNodeList), ?_, ?_⟩
    · rw [Safe, moveConstruct_fst]
      exact howned
    · rw [moveConstruct_fst]
      rfl

theorem allocateMemory_mem {n n' : MemoryNode} {mem : ℕ} (h : n.allocateMemory c = .ok (n', mem)) :
    n'.mem = n.mem := by
  rw [MemoryNode.allocateMemory] at h
  obtain ⟨free, -, h⟩ := bind_ok h
  obtain ⟨-, -, h⟩ := bind_ok h
  cases h
  rfl

theorem Safe.setLastedNode {n n' : MemoryNode} (h : w.Safe) (hn : w.pool.getLastedNode = .ok n)
    (hmem : n'.mem = n.mem) : ({ w with pool := w.pool.setLastedNode n' } : VectorPool).Safe := by
  rcases List.eq_nil_or_concat w.pool.memoryNodeList with hnil | ⟨rest, last, hlast⟩
  · rw [Pool.getLastedNode, hnil] at hn
    cases hn
  · rw [List.concat_eq_append] at hlast
    rw [Pool.getLastedNode, hlast, List.getLast?_concat] at hn
    cases hn
    rw [Safe, hlast, List.map_append] at h
    rw [Safe, Pool.setLastedNode, hlast, List.dropLast_concat, List.map_append]
    simpa [hmem] using h

/-- The results of the two pools: the same address, and the pools agree. -/
def Same {α : Type} (r : VectorPool × α) (r' : Pool × α) : Prop :=
  r.1.Safe ∧ r.1.pool = r'.1 ∧ r.2 = r'.2

theorem not_mem_of_fresh (hfits : c.Fits) (hc : 1 ≤ c.nodeCapacity) {nodes : List MemoryNode}
    (h : FreshBlock c nodes block) : block ∉ nodes.map MemoryNode.mem := by
  intro hin
  obtain ⟨n, hn, rfl⟩ := List.mem_map.mp hin
  have hpos : 0 < c.nodeSize := by
    rw [Layout.nodeSize, Nat.mod_eq_of_lt hfits]
    exact Nat.mul_pos (Nat.succ_pos _) hc
  rcases h.2.2 n hn with happ | happ
  · omega
  · omega

theorem needsNode_of_full {last : MemoryNode} (hfree : p.freeList = 0)
    (hlast : p.getLastedNode = .ok last) (hfull : last.hasFreeSpace c = .ok false) :
    NeedsNode c p := by
  refine ⟨hfree, fun n hn => ?_⟩
  rw [Pool.getLastedNode, Option.mem_def.mp hn] at hlast
  cases hlast
  rw [MemoryNode.hasFreeSpace] at hfull
  obtain ⟨-, -, hfull⟩ := bind_ok hfull
  have hlt := of_decide_eq_false (Except.ok.inj hfull)
  omega

theorem Safe.prepare (hfits : c.Fits) (hc : 1 ≤ c.nodeCapacity) (h : w.Safe)
    (hfresh : NeedsNode c w.pool → FreshBlock c w.pool.memoryNodeList block) :
    Agrees Same (w.prepare c block capacity) (w.pool.prepare c block) := by
  rw [VectorPool.prepare, Pool.prepare]
  split_ifs with hfree
  · exact .ok ⟨h, rfl, rfl⟩
  · refine Agrees.bind_same fun last hlast => Agrees.bind_same fun free hspace => ?_
    have hgrown : ∃ w', (if free = true then pure w else w.createMemoryNode block capacity) =
        .ok w' ∧ w'.Safe ∧
        w'.pool = if free = true then w.pool else w.pool.createMemoryNode block := by
      split_ifs with hf
      · exact ⟨w, rfl, h, rfl⟩
      · rw [Bool.not_eq_true] at hf
        have hblock := hfresh (needsNode_of_full (not_not.mp hfree) hlast (hf ▸ hspace))
        exact h.createMemoryNode (not_mem_of_fresh hfits hc hblock) hblock.1
    obtain ⟨w', hw', hsafe, hpool⟩ := hgrown
    rw [ok_bind hw', ← hpool]
    refine Agrees.bind_same fun node hnode => Agrees.bind_same fun free' _ => ?_
    refine Agrees.bind_same fun _ _ => Agrees.bind_same fun alloc halloc => ?_
    obtain ⟨node', mem⟩ := alloc
    exact .ok ⟨hsafe.setLastedNode hnode (allocateMemory_mem halloc), rfl, rfl⟩

theorem Safe.new (hfits : c.Fits) (hc : 1 ≤ c.nodeCapacity) (h : w.Safe)
    (hfresh : NeedsNode c w.pool → FreshBlock c w.pool.memoryNodeList block)
    (capacity : ℕ) (bytes : ℕ → UInt8) (throws : Bool) :
    Agrees Same (w.new c block capacity bytes throws) (w.pool.new c block bytes throws) := by
  refine (h.prepare hfits hc hfresh).bind fun r r' hr => ?_
  obtain ⟨w', chunk, prev⟩ := r
  obtain ⟨p', chunk', prev'⟩ := r'
  obtain ⟨hsafe, rfl, hres⟩ := hr
  cases hres
  cases throws with
  | true => exact .ok ⟨hsafe, rfl, rfl⟩
  | false =>
    refine .ok ⟨?_, rfl, rfl⟩
    cases prev with
    | none => exact hsafe
    | some prev => exact hsafe

theorem Safe.of_next (hfits : c.Fits) (hc : 1 ≤ c.nodeCapacity) (h : w.Safe)
    (hs : VectorPool.next c w (op, capacity) = some w') :
    w'.Safe ∧ ObjectPool.next c w.pool op = some w'.pool := by
  cases op with
  | new block bytes res =>
    rw [VectorPool.next] at hs
    split_ifs at hs with hfresh
    have hagrees := h.new hfits hc hfresh.1 capacity bytes res.isNone
    rcases hnew : w.new c block capacity bytes res.isNone with e | ⟨w'', r⟩
    · rw [hnew] at hs
      cases hs
    · rw [hnew] at hs hagrees
      obtain ⟨⟨p, r'⟩, hpool, hsafe, rfl, rfl⟩ := hagrees.right_ok
      simp only [Option.ite_none_right_eq_some] at hs
      obtain ⟨hres, hs⟩ := hs
      cases hs
      refine ⟨hsafe, ?_⟩
      rw [ObjectPool.next, if_pos hfresh.1, hpool]
      exact if_pos hres
  | release obj bytes =>
    cases hs
    exact ⟨h, rfl⟩
  | write obj bytes =>
    cases hs
    exact ⟨h, rfl⟩

theorem Safe.exists_next (hfits : c.Fits) (hc : 1 ≤ c.nodeCapacity) (h : w.Safe)
    (hcap : w.pool.memoryNodeList.length < capacity)
    (hs : ObjectPool.next c w.pool op = some p) :
    ∃ w', VectorPool.next c w (op, capacity) = some w' ∧ w'.pool = p := by
  cases op with
  | new block bytes res =>
    rw [ObjectPool.next] at hs
    split_ifs at hs with hfresh
    have hagrees := h.new hfits hc hfresh capacity bytes res.isNone
    rcases hnew : w.pool.new c block bytes res.isNone with e | ⟨p', r⟩
    · rw [hnew] at hs
      cases hs
    · rw [hnew] at hs hagrees
      obtain ⟨⟨w', r'⟩, hvector, hsafe, rfl, rfl⟩ := hagrees.left_ok
      simp only [Option.ite_none_right_eq_some] at hs
      obtain ⟨hres, hs⟩ := hs
      cases hs
      refine ⟨w', ?_, rfl⟩
      rw [VectorPool.next, if_pos ⟨hfresh, hcap⟩, hvector]
      exact if_pos hres
  | release obj bytes =>
    cases hs
    exact ⟨_, rfl, rfl⟩
  | write obj bytes =>
    cases hs
    exact ⟨_, rfl, rfl⟩

theorem construct_eq (hfresh : FreshBlock c [] block) (memory : Memory) (capacity : ℕ) :
    ∃ w, VectorPool.construct memory block capacity = .ok w ∧ w.Safe ∧
      w.pool = ObjectPool.construct memory block :=
  Safe.createMemoryNode Arrays.owned_nil List.not_mem_nil hfresh.1

theorem run_refines {P : List Op → Op → Prop} (hfits : c.Fits)
    (hc : 1 ≤ c.nodeCapacity)
    (hr : (VectorPool.system c).Run (fun tr e => P (tr.map Prod.fst) e.1) tr w) :
    (ObjectPool.system c).Run P (tr.map Prod.fst) w.pool ∧ w.Safe := by
  induction hr with
  | start hi =>
    obtain ⟨memory, block, capacity, hfresh, hw⟩ := hi
    obtain ⟨w', hw', hsafe, hpool⟩ := construct_eq hfresh memory capacity
    rw [hw] at hw'
    cases hw'
    exact ⟨.start ⟨memory, block, hfresh, hpool⟩, hsafe⟩
  | step _ hok hstep ih =>
    obtain ⟨hrun, hsafe⟩ := ih
    obtain ⟨hsafe', hnext⟩ := hsafe.of_next hfits hc hstep
    rw [List.map_append]
    exact ⟨.step hrun hok hnext, hsafe'⟩

/-- The runs of the pool on its vector are those of the pool on a list of nodes, so what holds
of these holds of it. No block is deleted before the pool ends, and then each is once. -/
theorem vector_refines {P : List Op → Op → Prop} (hfits : c.Fits)
    (hc : 1 ≤ c.nodeCapacity)
    (hr : (VectorPool.system c).Run (fun tr e => P (tr.map Prod.fst) e.1) tr w) :
    (ObjectPool.system c).Run P (tr.map Prod.fst) w.pool ∧
      (∀ op p capacity, w.pool.memoryNodeList.length < capacity →
        (ObjectPool.system c).step w.pool op p →
        ∃ w', (VectorPool.system c).step w (op, capacity) w' ∧ w'.pool = p) ∧
      (∀ a, w.arrays.live a = true ↔ a ∈ w.pool.memoryNodeList.map MemoryNode.mem) ∧
      Ledger.Owns w.arrays.log (w.pool.memoryNodeList.map MemoryNode.mem) ∧
      ∃ m, w.destroy = .ok m ∧ Ledger.Owns m.log [] := by
  obtain ⟨hrun, hsafe⟩ := run_refines hfits hc hr
  obtain ⟨m, hdestroy, hm⟩ := destroyAll_owned hsafe
  exact ⟨hrun, fun op p capacity hcap hs => hsafe.exists_next hfits hc hcap hs, hsafe.live,
    hsafe.owns, m, hdestroy, hm.owns⟩

/-- The second object does not fit into the first node, and the vector has room for one. -/
def growing : List (Op × ℕ) :=
  [(.new 0 (fun _ => 7) (some 24), 2), (.new 32 (fun _ => 9) (some 40), 2)]

theorem vector_refines_sample : ∃ w : VectorPool,
    w.pool.memoryNodeList = [⟨16, 32⟩, ⟨32, 48⟩] ∧
      (ObjectPool.system ⟨8, 1⟩).Run System.always (growing.map Prod.fst) w.pool ∧
      ∃ m, w.destroy = .ok m ∧ Ledger.Owns m.log [] := by
  have hr : ∃ w, (VectorPool.system ⟨8, 1⟩).Run System.always growing w ∧
      w.pool.memoryNodeList = [⟨16, 32⟩, ⟨32, 48⟩] := by
    refine ⟨_, System.run_of_exec (fun _ _ _ h => h) ⟨fun _ => 0, 16, 1, by decide, rfl⟩ rfl, ?_⟩
    rfl
  obtain ⟨w, hr, hnodes⟩ := hr
  obtain ⟨hrun, -, -, -, hdestroy⟩ := vector_refines (P := System.always) (by decide) (by decide) hr
  exact ⟨w, hnodes, hrun, hdestroy⟩

end VectorPool

end ModCpp.ObjectPool
