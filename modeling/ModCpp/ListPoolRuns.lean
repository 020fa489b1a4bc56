import Mathlib.Data.List.Nodup
import Mathlib.Data.List.Perm.Basic
import ModCpp.ListPool

/-!
# Runs of the pool with a list of free slots

Every slot taken out of a node belongs to a live object or is in the list of free slots, and
no slot is in both. Slots are taken out of nodes only when the list is empty, so as many have
been taken as objects were ever live at one time.
-/

namespace ModCpp.ListPool
variable {capacity k : ℕ} {p p' : ListPool} {h : History} {full : List ListNode} {slot : Slot}
  {realloc : Bool}

/-- The slots of `nodes` used up nodes and the first `k` of the node after them. -/
def Taken (capacity nodes k : ℕ) (slot : Slot) : Prop :=
  slot.1 < nodes ∧ slot.2 < capacity ∨ slot.1 = nodes ∧ slot.2 < k

/-- The nodes `full` are used up, and `k` slots have been taken out of the last one. -/
structure Sound (capacity : ℕ) (h : History) (p : ListPool) (full : List ListNode) (k : ℕ) :
    Prop where
  nodes : p.memNodeList = full ++ [⟨some full.length, k⟩]
  full_idx : ∀ node ∈ full, node.curFreeIdx = capacity
  fresh : p.fresh = full.length + 1
  le : k ≤ capacity
  pos : full ≠ [] → 1 ≤ k
  taken : ∀ slot ∈ h.live ++ p.freelist, Taken capacity full.length k slot
  nodup : (h.live ++ p.freelist).Nodup
  count : (h.live ++ p.freelist).length = full.length * capacity + k
  peak : h.peak = (h.live ++ p.freelist).length

theorem not_full {mem : Option ℕ} (hk : k < capacity) :
    ¬ (⟨mem, k⟩ : ListNode).full capacity := by
  simp only [ListNode.full]
  omega

theorem allocate_node {block i : ℕ} (hi : i < capacity) (hmax : i < 2 ^ 31 - 1) :
    (⟨some block, i⟩ : ListNode).allocate capacity =
      .ok (⟨some block, (i + 1 : ℕ)⟩, (block, i)) := by
  have hint : (i : ℤ) ≠ intMax := by
    rw [intMax]
    omega
  rw [ListNode.allocate, ok_bind (assert_of (not_full hi))]
  simp only [if_neg hint]
  rfl

theorem allocate_nil (hfree : p.freelist = []) : allocate capacity realloc p = (do
    let last ← p.back
    let p := if last.full capacity then emplaceBack capacity realloc p else p
    let last ← p.back
    let (node, slot) ← last.allocate capacity
    pure ({ p with memNodeList := p.memNodeList.dropLast ++ [node] }, slot)) := by
  rw [allocate, hfree]

theorem back_of {nodes : List ListNode} {node : ListNode} (hp : p.memNodeList = nodes ++ [node]) :
    p.back = .ok node := by
  rw [back, hp, List.getLast?_concat]
  rfl

theorem emplaceBack_nodes : (emplaceBack capacity realloc p).memNodeList =
    p.memNodeList ++ [⟨some p.fresh, 0⟩] := by
  cases realloc with
  | false => rfl
  | true => exact congrArg (· ++ _) (List.map_id _)

theorem emplaceBack_freelist : (emplaceBack capacity realloc p).freelist = p.freelist := by
  cases realloc <;> rfl

theorem emplaceBack_fresh : (emplaceBack capacity realloc p).fresh = p.fresh + 1 := by
  cases realloc <;> rfl

namespace Sound

theorem construct : Sound capacity ⟨[], 0⟩ (construct capacity) [] 0 := by
  constructor <;> simp [ListPool.construct, emplaceBack]

theorem of_perm {h' : History} (hs : Sound capacity h p full k)
    (hnodes : p'.memNodeList = p.memNodeList) (hfresh : p'.fresh = p.fresh)
    (hpeak : h'.peak = h.peak) (hperm : (h'.live ++ p'.freelist).Perm (h.live ++ p.freelist)) :
    Sound capacity h' p' full k where
  nodes := hnodes.trans hs.nodes
  full_idx := hs.full_idx
  fresh := hfresh.trans hs.fresh
  le := hs.le
  pos := hs.pos
  taken slot hslot := hs.taken slot (hperm.mem_iff.mp hslot)
  nodup := hperm.nodup_iff.mpr hs.nodup
  count := hperm.length_eq.trans hs.count
  peak := by rw [hpeak, hs.peak, hperm.length_eq]

theorem reuse {rest : List Slot} (hs : Sound capacity h p full k) (realloc : Bool)
    (hfree : p.freelist = slot :: rest) :
    allocate capacity realloc p = .ok ({ p with freelist := rest }, slot) ∧
    ∀ log, Sound capacity (h.record (.new realloc (some slot)))
      { p with freelist := rest, log := log } full k := by
  constructor
  · rw [allocate, hfree]
    rfl
  · intro log
    have hpeak := hs.peak
    rw [hfree, List.length_append, List.length_cons] at hpeak
    refine hs.of_perm rfl rfl ?_ ?_
    · simp only [History.record]
      omega
    · rw [hfree]
      exact List.perm_middle.symm

theorem release (hs : Sound capacity h p full k) (hslot : slot ∈ h.live) :
    Sound capacity (h.record (.release slot)) (p.release slot) full k := by
  refine hs.of_perm rfl rfl rfl ?_
  have hmove : (h.live.erase slot ++ (p.freelist ++ [slot])).Perm
      (slot :: h.live.erase slot ++ p.freelist) := by
    rw [← List.append_assoc]
    exact List.perm_append_singleton _ _
  exact hmove.trans ((List.perm_cons_erase hslot).symm.append_right _)

theorem take {full' : List ListNode} {k' : ℕ} (hs : Sound capacity h p full k)
    (hfree : p.freelist = []) (hfree' : p'.freelist = [])
    (hnodes : p'.memNodeList = full' ++ [⟨some full'.length, k'⟩])
    (hfresh : p'.fresh = full'.length + 1) (hfull : ∀ node ∈ full', node.curFreeIdx = capacity)
    (hle : k' ≤ capacity) (hpos : 1 ≤ k')
    (hcount : full'.length * capacity + k' = full.length * capacity + k + 1)
    (hmono : ∀ s, Taken capacity full.length k s → Taken capacity full'.length k' s)
    (hnew : Taken capacity full'.length k' slot) (hold : ¬ Taken capacity full.length k slot) :
    Sound capacity (h.record (.new realloc (some slot))) p' full' k' := by
  have hpeak := hs.peak
  have hlen := hs.count
  have hnodup := hs.nodup
  rw [hfree, List.append_nil] at hpeak hlen hnodup
  have hlive : slot ∉ h.live := by
    intro hmem
    exact hold (hs.taken slot (List.mem_append_left _ hmem))
  refine ⟨hnodes, hfull, hfresh, hle, fun _ => hpos, ?_, ?_, ?_, ?_⟩
  · intro s hmem
    rw [hfree', List.append_nil] at hmem
    rcases List.mem_cons.mp hmem with rfl | hmem
    · exact hnew
    · exact hmono s (hs.taken s (List.mem_append_left _ hmem))
  · rw [hfree', List.append_nil]
    exact List.nodup_cons.mpr ⟨hlive, hnodup⟩
  · rw [hfree', List.append_nil, hcount, ← hlen]
    rfl
  · rw [hfree', List.append_nil]
    simp only [History.record, List.length_cons]
    omega

theorem bump (hs : Sound capacity h p full k) (realloc : Bool) (hfree : p.freelist = [])
    (hk : k < capacity) (hmax : k < 2 ^ 31 - 1) :
    ∃ p' slot, allocate capacity realloc p = .ok (p', slot) ∧
      ∀ log, Sound capacity (h.record (.new realloc (some slot))) { p' with log := log }
        full (k + 1) := by
  refine ⟨{ p with memNodeList := full ++ [⟨some full.length, (k + 1 : ℕ)⟩] },
    (full.length, k), ?_, ?_⟩
  · rw [allocate_nil hfree, ok_bind (back_of hs.nodes)]
    simp only [if_neg (not_full hk)]
    rw [ok_bind (back_of hs.nodes), ok_bind (allocate_node hk hmax), hs.nodes,
      List.dropLast_concat]
    rfl
  · intro log
    refine hs.take hfree hfree rfl hs.fresh hs.full_idx hk (Nat.succ_pos k) (by omega) ?_
      (.inr ⟨rfl, Nat.lt_succ_self k⟩) ?_
    · intro s hs
      rcases hs with hs | ⟨hs, hlt⟩
      · exact .inl hs
      · exact .inr ⟨hs, by omega⟩
    · intro htaken
      rcases htaken with ⟨hlt, _⟩ | ⟨_, hlt⟩ <;> exact absurd hlt (Nat.lt_irrefl _)

theorem grow (hs : Sound capacity h p full capacity) (realloc : Bool) (hfree : p.freelist = [])
    (hcap : 1 ≤ capacity) : ∃ p' slot, allocate capacity realloc p = .ok (p', slot) ∧
      ∀ log, Sound capacity (h.record (.new realloc (some slot))) { p' with log := log }
        (full ++ [⟨some full.length, capacity⟩]) 1 := by
  have hfull : (⟨some full.length, capacity⟩ : ListNode).full capacity := Int.le_refl _
  have hnodes : (emplaceBack capacity realloc p).memNodeList =
      full ++ [⟨some full.length, capacity⟩] ++ [⟨some (full.length + 1), (0 : ℕ)⟩] := by
    rw [emplaceBack_nodes, hs.nodes, hs.fresh]
    rfl
  refine ⟨{ emplaceBack capacity realloc p with memNodeList :=
    full ++ [⟨some full.length, capacity⟩] ++ [⟨some (full.length + 1), (1 : ℕ)⟩] },
    (full.length + 1, 0), ?_, ?_⟩
  · rw [allocate_nil hfree, ok_bind (back_of hs.nodes)]
    simp only [if_pos hfull]
    rw [ok_bind (back_of hnodes), ok_bind (allocate_node hcap (by omega)), hnodes,
      List.dropLast_concat]
    rfl
  · intro log
    have hlen : (full ++ [(⟨some full.length, capacity⟩ : ListNode)]).length = full.length + 1 := by
      simp
    refine hs.take hfree (emplaceBack_freelist.trans hfree) ?_ ?_ ?_ hcap (Nat.le_refl 1) ?_ ?_
      ?_ ?_
    · rw [hlen]
    · rw [hlen]
      exact emplaceBack_fresh.trans (by rw [hs.fresh])
    · intro node hnode
      rcases List.mem_append.mp hnode with hnode | hnode
      · exact hs.full_idx node hnode
      · rw [List.mem_singleton.mp hnode]
    · rw [hlen, Nat.add_mul]
      omega
    · intro s hs
      rw [hlen]
      rcases hs with ⟨hlt, hidx⟩ | ⟨heq, hidx⟩
      · exact .inl ⟨by omega, hidx⟩
      · exact .inl ⟨by omega, hidx⟩
    · rw [hlen]
      exact .inr ⟨rfl, Nat.one_pos⟩
    · intro htaken
      rcases htaken with ⟨hlt, _⟩ | ⟨heq, _⟩
      · exact absurd hlt (by simp)
      · exact absurd heq (by simp)

/-- The last slot that the `int` index can count is never taken. -/
theorem overflow {throws : Bool} (hs : Sound capacity h p full k) (hfree : p.freelist = [])
    (hk : k < capacity) (hmax : k = 2 ^ 31 - 1) :
    new capacity realloc throws p = .error (.undefined "int overflow") := by
  have hint : (k : ℤ) = intMax := by
    rw [intMax]
    omega
  have hnode : (⟨some full.length, k⟩ : ListNode).allocate capacity =
      .error (.undefined "int overflow") := by
    rw [ListNode.allocate, ok_bind (assert_of (not_full hk))]
    simp only [if_pos hint]
    rfl
  rw [new, allocate_nil hfree, ok_bind (back_of hs.nodes)]
  simp only [if_neg (not_full hk)]
  rw [ok_bind (back_of hs.nodes), hnode]
  rfl

end Sound

def IsSound (capacity : ℕ) (h : History) (p : ListPool) : Prop :=
  ∃ full k, Sound capacity h p full k

theorem IsSound.new_ok (hs : IsSound capacity h p) (realloc : Bool) (hcap : 1 ≤ capacity)
    (hmax : capacity < 2 ^ 31 ∨ h.peak < 2 ^ 31 - 1) :
    ∃ p' slot, new capacity realloc false p = .ok (p', some slot) ∧
      IsSound capacity (h.record (.new realloc (some slot))) p' := by
  obtain ⟨full, k, hs⟩ := hs
  have halloc : ∃ q slot full' k', allocate capacity realloc p = .ok (q, slot) ∧ ∀ log,
      Sound capacity (h.record (.new realloc (some slot))) { q with log := log } full' k' := by
    cases hfree : p.freelist with
    | cons slot rest =>
      obtain ⟨hcall, hs'⟩ := hs.reuse realloc hfree
      exact ⟨_, slot, full, k, hcall, hs'⟩
    | nil =>
      have hle := hs.le
      have hpeak := hs.peak.trans hs.count
      by_cases hk : k < capacity
      · obtain ⟨q, slot, hcall, hs'⟩ := hs.bump realloc hfree hk (by omega)
        exact ⟨q, slot, _, _, hcall, hs'⟩
      · obtain rfl : k = capacity := by omega
        obtain ⟨q, slot, hcall, hs'⟩ := hs.grow realloc hfree hcap
        exact ⟨q, slot, _, _, hcall, hs'⟩
  obtain ⟨q, slot, full', k', hcall, hs'⟩ := halloc
  exact ⟨_, slot, ok_bind hcall, full', k', hs' _⟩

theorem IsSound.release (hs : IsSound capacity h p) (hslot : slot ∈ h.live) :
    IsSound capacity (h.record (.release slot)) (p.release slot) := by
  obtain ⟨full, k, hs⟩ := hs
  exact ⟨full, k, hs.release hslot⟩

end ModCpp.ListPool
