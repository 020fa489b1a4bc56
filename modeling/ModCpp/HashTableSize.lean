import ModCpp.HashTableRuns
import Mathlib.Algebra.BigOperators.Fin

/-!
# The size of a hash table

`len` is counted up where `operator[]` makes a node and by nothing else; `erase` takes a node
out and leaves it alone.
-/

namespace ModCpp.HashTable
open KeyedList
variable {Key Value : Type} {DefaultSize : ℕ} {hash_func : Key → ℕ}
  {t t' : HashTable Key Value DefaultSize} {key : Key} {l : List (Key × Value)}

def nodes (t : HashTable Key Value DefaultSize) : ℕ := ∑ b, (t.table b).length

theorem nodes_setList {b : Fin DefaultSize} :
    (t.setList b l).nodes + (t.table b).length = t.nodes + l.length := by
  have hsplit : t.nodes = _ :=
    (Finset.add_sum_erase _ (fun c => (t.table c).length) (Finset.mem_univ b)).symm
  have hsplit' : (t.setList b l).nodes = _ :=
    (Finset.add_sum_erase _ (fun c => ((t.setList b l).table c).length) (Finset.mem_univ b)).symm
  have hrest : ∑ c ∈ Finset.univ.erase b, ((t.setList b l).table c).length =
      ∑ c ∈ Finset.univ.erase b, (t.table c).length := by
    refine Finset.sum_congr rfl ?_
    intro c hc
    rw [setList_table, Function.update_of_ne (Finset.ne_of_mem_erase hc)]
  have hnew : ((t.setList b l).table b).length = l.length := by
    rw [setList_table, Function.update_self]
  rw [hsplit, hsplit', hrest, hnew]
  omega

def nodeList (t : HashTable Key Value DefaultSize) : List (Key × Value) :=
  (List.finRange DefaultSize).flatMap t.table

theorem length_nodeList : t.nodeList.length = t.nodes := by
  rw [nodeList, List.length_flatMap, nodes, Fin.sum_univ_def]

variable [BEq Key]

def countedKeys (hash_func : Key → ℕ) (t : HashTable Key Value DefaultSize) : Set Key :=
  {k | count hash_func t k = .ok true}

section calls
variable (hb : ∀ k, hash_func k < DefaultSize)

theorem count_iff : count hash_func t key = .ok true ↔
    position key (t.table (bucket hb key)) ≠ (t.table (bucket hb key)).length := by
  have hcall : count hash_func t key = .ok (decide
      (position key (t.table (bucket hb key)) ≠ (t.table (bucket hb key)).length)) := by
    rw [count, ok_bind (getHash_eq hb)]
    rfl
  rw [hcall, Except.ok.injEq, decide_eq_true_iff]

include hb

theorem erase_nodes {res : Ret Value} [Inhabited Value]
    (h : invoke hash_func t (.erase key) = .ok (res, t')) : t'.len = t.len ∧
      if count hash_func t key = .ok true then t'.nodes + 1 = t.nodes else t'.nodes = t.nodes := by
  obtain ⟨t₁, herase, h⟩ := bind_ok h
  cases h
  rw [HashTable.erase, ok_bind (getHash_eq hb)] at herase
  by_cases hfound : position key (t.table (bucket hb key)) = (t.table (bucket hb key)).length
  · rw [if_pos hfound] at herase
    cases herase
    rw [if_neg (mt (count_iff hb).mp (not_not.mpr hfound))]
    exact ⟨rfl, rfl⟩
  · rw [if_neg hfound] at herase
    cases herase
    rw [if_pos ((count_iff hb).mpr hfound)]
    have hlt : position key (t.table (bucket hb key)) < (t.table (bucket hb key)).length :=
      lt_of_le_of_ne position_le hfound
    have hnodes := nodes_setList (t := t) (b := bucket hb key)
      (l := (t.table (bucket hb key)).eraseIdx (position key (t.table (bucket hb key))))
    rw [List.length_eraseIdx_of_lt hlt] at hnodes
    exact ⟨rfl, by omega⟩

theorem index_nodes {ref : Fin DefaultSize × ℕ} [Inhabited Value]
    (h : index hash_func t key = .ok (ref, t')) :
      if count hash_func t key = .ok true then t' = t
      else t'.len = add64 t.len 1 ∧ t'.nodes = t.nodes + 1 := by
  rw [index, ok_bind (getHash_eq hb)] at h
  by_cases hfound : position key (t.table (bucket hb key)) = (t.table (bucket hb key)).length
  · rw [if_neg (mt (count_iff hb).mp (not_not.mpr hfound))]
    simp only [hfound, ne_eq, not_true_eq_false, if_false] at h
    cases h
    have hnodes := nodes_setList (t := { t with len := add64 t.len 1 }) (b := bucket hb key)
      (l := t.table (bucket hb key) ++ [(key, default)])
    rw [List.length_append, List.length_singleton] at hnodes
    refine ⟨rfl, ?_⟩
    change _ + (t.table (bucket hb key)).length = t.nodes + _ at hnodes
    omega
  · rw [if_pos ((count_iff hb).mpr hfound)]
    simp only [hfound, ne_eq, not_false_eq_true, if_true] at h
    cases h
    rfl

omit [BEq Key] hb in
theorem store_nodes {ref : Fin DefaultSize × ℕ} {value : Value}
    (h : t.store ref value = .ok t') : t'.len = t.len ∧ t'.nodes = t.nodes := by
  rw [store] at h
  split at h
  · cases h
  · cases h
    have hnodes := nodes_setList (t := t) (b := ref.1)
      (l := (t.table ref.1).modify ref.2 fun node => (node.1, value))
    rw [List.length_modify] at hnodes
    exact ⟨rfl, by omega⟩

omit hb in
theorem Placed.distinct_nodeList (hp : Placed hash_func t)
    (heq : ∀ k k', k == k' → hash_func k = hash_func k') : DistinctKeys t.nodeList := by
  rw [DistinctKeys, nodeList, List.map_flatMap, List.pairwise_flatMap]
  refine ⟨fun b _ => hp.distinct b, (List.nodup_finRange _).imp ?_⟩
  intro b c hbc x hx y hy
  obtain ⟨node, hnode, rfl⟩ := List.mem_map.mp hx
  obtain ⟨node', hnode', rfl⟩ := List.mem_map.mp hy
  -- two buckets have keys with different hashes
  refine Bool.eq_false_iff.mpr fun hsame => hbc (Fin.ext ?_)
  rw [← hp.home b node hnode, heq _ _ hsame, hp.home c node' hnode']

theorem mem_countedKeys (hp : Placed hash_func t)
    (heq : ∀ k k', k == k' → hash_func k = hash_func k') :
    key ∈ countedKeys hash_func t ↔ ∃ node ∈ t.nodeList, node.1 == key := by
  have hfind : position key (t.table (bucket hb key)) ≠ (t.table (bucket hb key)).length ↔
      ∃ node ∈ t.table (bucket hb key), node.1 == key := by
    rw [position, ne_eq, List.findIdx_eq_length]
    push Not
    simp only [Bool.not_eq_false]
  rw [countedKeys, Set.mem_ofPred_eq, count_iff hb, hfind, nodeList]
  constructor
  · intro hmem
    obtain ⟨node, hnode, hkey⟩ := hmem
    exact ⟨node, List.mem_flatMap.mpr ⟨_, List.mem_finRange _, hnode⟩, hkey⟩
  · intro hmem
    obtain ⟨node, hnode, hkey⟩ := hmem
    obtain ⟨b, _, hnode⟩ := List.mem_flatMap.mp hnode
    have hhome : b = bucket hb key := by
      refine Fin.ext ?_
      rw [← hp.home b node hnode]
      exact heq _ _ hkey
    exact ⟨node, hhome ▸ hnode, hkey⟩

end calls

/-- An erasure finds no node, and a node that is made can still be counted. -/
def Counts (hash_func : Key → ℕ) (t : HashTable Key Value DefaultSize) : Call Key Value → Prop
  | .index key | .assign key _ => count hash_func t key = .ok true ∨ t.len + 1 < 2 ^ 64
  | .erase key => count hash_func t key ≠ .ok true
  | .count _ => True

section calls
variable [Inhabited Value] (hb : ∀ k, hash_func k < DefaultSize)
include hb

theorem index_agrees {ref : Fin DefaultSize × ℕ} (h : index hash_func t key = .ok (ref, t'))
    (hn : t.len = t.nodes) :
    t'.len = t'.nodes ↔ count hash_func t key = .ok true ∨ t.len + 1 < 2 ^ 64 := by
  have hcall := index_nodes hb h
  split_ifs at hcall with hfound
  · rw [hcall]
    exact ⟨fun _ => .inl hfound, fun _ => hn⟩
  · obtain ⟨hlen, hnodes⟩ := hcall
    rw [or_iff_right hfound, hlen, hnodes, ← hn, add64]
    constructor
    · intro hsame
      omega
    · exact Nat.mod_eq_of_lt

theorem invoke_agrees {c : Call Key Value} {res : Ret Value}
    (h : invoke hash_func t c = .ok (res, t')) (hn : t.len = t.nodes) :
    t'.len = t'.nodes ↔ Counts hash_func t c := by
  cases c with
  | index key =>
    obtain ⟨⟨ref, t₁⟩, hindex, h⟩ := bind_ok h
    obtain ⟨v, _, h⟩ := bind_ok h
    cases h
    exact index_agrees hb hindex hn
  | assign key value =>
    obtain ⟨⟨ref, t₁⟩, hindex, h⟩ := bind_ok h
    obtain ⟨t₂, hstore, h⟩ := bind_ok h
    cases h
    obtain ⟨hlen, hnodes⟩ := store_nodes hstore
    rw [hlen, hnodes]
    exact index_agrees hb hindex hn
  | erase key =>
    obtain ⟨hlen, hnodes⟩ := erase_nodes hb h
    rw [hlen, Counts]
    split_ifs at hnodes with hfound
    · exact ⟨fun _ => by omega, fun hno => absurd hfound hno⟩
    · exact ⟨fun _ => hfound, fun _ => by omega⟩
  | count key =>
    obtain ⟨b, _, h⟩ := bind_ok h
    cases h
    exact ⟨fun _ => trivial, fun _ => hn⟩

end calls

section runs

structure Tallied (hash_func : Key → ℕ) (t : HashTable Key Value DefaultSize) : Prop where
  placed : Placed hash_func t
  len : t.len = t.nodes

theorem empty_tallied : Tallied hash_func (empty : HashTable Key Value DefaultSize) := by
  refine ⟨⟨fun _ => .nil, fun _ node hnode => absurd hnode List.not_mem_nil⟩, ?_⟩
  simp [empty, nodes]

variable [EquivBEq Key]

/-- `size()` is the number of nodes and the number of keys, equals counted as one, that `count`
finds. -/
def SizeRight (hash_func : Key → ℕ) (t : HashTable Key Value DefaultSize) : Prop :=
  t.size = t.nodes ∧
    t.size = (Quotient.mk (keyClasses Key) '' countedKeys hash_func t).ncard

variable (hb : ∀ k, hash_func k < DefaultSize)
  (heq : ∀ k k', k == k' → hash_func k = hash_func k')
include hb heq

theorem Placed.sizeRight_iff (hp : Placed hash_func t) :
    SizeRight hash_func t ↔ t.len = t.nodes := by
  have hset : countedKeys hash_func t = {k | ∃ node ∈ t.nodeList, node.1 == k} :=
    Set.ext fun _ => mem_countedKeys hb hp heq
  rw [SizeRight, hset, ncard_keys (hp.distinct_nodeList heq), length_nodeList, and_self, size]

variable [Inhabited Value]

theorem Tallied.step {e : Call Key Value × Ret Value} (ht : Tallied hash_func t)
    (hstep : (tableSystem hash_func).step t e t') :
    Placed hash_func t' ∧ (t'.len = t'.nodes ↔ Counts hash_func t e.1) := by
  obtain ⟨t₁, hcall, hp, _⟩ := ht.placed.invoke hb heq e.1
  obtain ⟨_, rfl⟩ := Prod.mk.inj (Except.ok.inj (hcall.symm.trans hstep))
  exact ⟨hp, invoke_agrees hb hcall ht.len⟩

/-- `size()` is right in all states along a run if and only if no call of the run erases a node
or makes one that `len` cannot count. -/
theorem size_counts {tr : List (Call Key Value × Ret Value)} :
    (tableSystem hash_func).Throughout System.always (SizeRight hash_func) tr t ↔
      ((tableSystem hash_func).restrict fun t e => Counts hash_func t e.1).Run System.always
        tr t := by
  have hinit : ∀ t : HashTable Key Value DefaultSize, t = empty → Tallied hash_func t :=
    fun _ ht => ht ▸ empty_tallied
  refine System.throughout_iff hinit ?_ ?_ ?_
  · intro t ht
    exact (ht.placed.sizeRight_iff hb heq).mpr ht.len
  · intro tr t e t' ht _ hstep hc
    obtain ⟨hp, hlen⟩ := ht.step hb heq hstep
    exact ⟨hp, hlen.mpr hc⟩
  · intro tr t e t' ht _ hstep hc hright
    obtain ⟨hp, hlen⟩ := ht.step hb heq hstep
    exact hc (hlen.mp ((hp.sizeRight_iff hb heq).mp hright))

end runs

/-- An assignment, a search and an erasure that finds nothing. -/
theorem size_counts_sample : ∃ (tr : List (Call ℕ ℕ × Ret ℕ)) (t : HashTable ℕ ℕ 2),
    tr.length = 3 ∧ (tableSystem (· % 2)).Throughout System.always (SizeRight (· % 2)) tr t ∧
    t.size = 1 := by
  have h₀ : ((tableSystem (· % 2)).restrict fun t e => Counts (· % 2) t e.1).Run System.always []
      (empty : HashTable ℕ ℕ 2) := .start rfl
  have h₁ := h₀.step (e := (Call.assign 1 5, Ret.done)) trivial ⟨.inr (by decide), by exact rfl⟩
  have h₂ := h₁.step (e := (Call.index 1, Ret.value 5)) trivial ⟨.inl rfl, by exact rfl⟩
  have h₃ := h₂.step (e := (Call.erase 3, Ret.done)) trivial ⟨nofun, by exact rfl⟩
  have hlt : ∀ k : ℕ, k % 2 < 2 := fun k => Nat.mod_lt k (by decide)
  exact ⟨_, _, rfl, (size_counts hlt fun k k' h => by rw [eq_of_beq h]).mpr h₃, rfl⟩

/-- The erasure of the only node leaves the size 1. -/
theorem size_counts_fails : ¬ ∀ (tr : List (Call ℕ ℕ × Ret ℕ)) (t : HashTable ℕ ℕ 2),
    (tableSystem (· % 2)).Run System.always tr t → SizeRight (· % 2) t := by
  intro hall
  have h₀ : (tableSystem (· % 2)).Run System.always [] (empty : HashTable ℕ ℕ 2) := .start rfl
  have h₁ := h₀.step (e := (Call.assign 1 5, Ret.done)) trivial (by exact rfl)
  have h₂ := h₁.step (e := (Call.erase 1, Ret.done)) trivial (by exact rfl)
  have hsize := (hall _ _ h₂).1
  have hnodes : (1 : ℕ) = 0 := hsize
  cases hnodes

end ModCpp.HashTable
