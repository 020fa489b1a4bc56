import Mathlib.Data.List.Basic
import Mathlib.Data.Set.Card
import Mathlib.Tactic.Common

/-!
# Lists of keyed values

A list of pairs is searched from the front for a key, where keys are compared by an equivalence
that need not be equality. In a list with distinct keys the search answers for all the list.
-/

namespace ModCpp.KeyedList
variable {κ β : Type*} [BEq κ] {l l' : List (κ × β)} {k k₀ : κ} {v : β}

def position (k : κ) (l : List (κ × β)) : ℕ := l.findIdx fun node => node.1 == k

def valueAt (k : κ) (l : List (κ × β)) : Option β := l[position k l]?.map Prod.snd

def DistinctKeys (l : List (κ × β)) : Prop :=
  (l.map Prod.fst).Pairwise fun a b => (a == b) = false

@[simp] theorem position_nil : position k ([] : List (κ × β)) = 0 := rfl

@[simp] theorem position_cons {a : κ} {b : β} :
    position k ((a, b) :: l) = if a == k then 0 else position k l + 1 := by
  rw [position, List.findIdx_cons]
  cases a == k <;> rfl

@[simp] theorem valueAt_nil : valueAt k ([] : List (κ × β)) = none := rfl

@[simp] theorem valueAt_cons {a : κ} {b : β} :
    valueAt k ((a, b) :: l) = if a == k then some b else valueAt k l := by
  rw [valueAt, position_cons]
  split_ifs <;> rfl

theorem position_le : position k l ≤ l.length := List.findIdx_le_length

theorem valueAt_eq_none : valueAt k l = none ↔ position k l = l.length := by
  rw [valueAt, Option.map_eq_none_iff, List.getElem?_eq_none_iff]
  exact ⟨fun h => Nat.le_antisymm position_le h, fun h => Nat.le_of_eq h.symm⟩

theorem key_ne (h : position k l = l.length) : ∀ a ∈ l.map Prod.fst, (a == k) = false := by
  rw [position, List.findIdx_eq_length] at h
  intro a ha
  obtain ⟨node, hnode, rfl⟩ := List.mem_map.mp ha
  exact h node hnode

theorem valueAt_append :
    valueAt k (l ++ [(k₀, v)]) = (valueAt k l).or (if k₀ == k then some v else none) := by
  induction l with
  | nil => simp
  | cons node l ih =>
    obtain ⟨a, b⟩ := node
    rw [List.cons_append, valueAt_cons, valueAt_cons, ih]
    split_ifs <;> rfl

theorem distinct_append (hd : DistinctKeys l) (h : position k l = l.length) :
    DistinctKeys (l ++ [(k, v)]) := by
  rw [DistinctKeys, List.map_append, List.pairwise_append]
  refine ⟨hd, List.pairwise_singleton .., ?_⟩
  intro a ha b hb
  obtain rfl := List.mem_singleton.mp hb
  exact key_ne h a ha

theorem position_append_self [ReflBEq κ] (h : position k l = l.length) :
    position k (l ++ [(k, v)]) = l.length := by
  induction l with
  | nil => simp
  | cons node l ih =>
    obtain ⟨a, b⟩ := node
    rw [position_cons, List.length_cons] at h
    split_ifs at h with ha
    rw [List.cons_append, position_cons, if_neg ha, ih (by omega), List.length_cons]

section equivalence
variable [EquivBEq κ]

theorem valueAt_congr (h : k == k₀) : valueAt k l = valueAt k₀ l := by
  induction l with
  | nil => rfl
  | cons node l ih =>
    obtain ⟨a, b⟩ := node
    rw [valueAt_cons, valueAt_cons, ih, BEq.congr_right h]

theorem valueAt_modify : valueAt k (l.modify (position k₀ l) fun node => (node.1, v)) =
    if k₀ == k then (valueAt k₀ l).map fun _ => v else valueAt k l := by
  induction l with
  | nil => simp
  | cons node l ih =>
    obtain ⟨a, b⟩ := node
    rw [position_cons, valueAt_cons, valueAt_cons]
    by_cases ha : a == k₀
    · rw [if_pos ha, if_pos ha, List.modify_zero_cons, valueAt_cons, BEq.congr_left ha]
      split_ifs <;> rfl
    · rw [if_neg ha, if_neg ha, List.modify_succ_cons, valueAt_cons, ih]
      split_ifs with hak hk
      · exact absurd (BEq.trans hak (BEq.symm hk)) ha
      · rfl
      · rfl
      · rfl

theorem valueAt_eraseIdx (hd : DistinctKeys l) : valueAt k (l.eraseIdx (position k₀ l)) =
    if k₀ == k then none else valueAt k l := by
  induction l with
  | nil => simp
  | cons node l ih =>
    obtain ⟨a, b⟩ := node
    obtain ⟨hne, hrest⟩ := List.pairwise_cons.mp hd
    rw [position_cons, valueAt_cons]
    by_cases ha : a == k₀
    · rw [if_pos ha, List.eraseIdx_cons_zero, ← BEq.congr_left ha]
      split_ifs with hk
      · -- no other pair has this key
        rw [valueAt_eq_none, position, List.findIdx_eq_length]
        intro node hnode
        have hn := hne node.1 (List.mem_map_of_mem hnode)
        rw [BEq.congr_left hk, BEq.comm] at hn
        exact hn
      · rfl
    · rw [if_neg ha, List.eraseIdx_cons_succ, valueAt_cons, ih hrest]
      split_ifs with hak hk
      · exact absurd (BEq.trans hak (BEq.symm hk)) ha
      · rfl
      · rfl
      · rfl

/-- Keys with equals counted as one. -/
def keyClasses (κ : Type*) [BEq κ] [EquivBEq κ] : Setoid κ where
  r a b := a == b
  iseqv := ⟨fun _ => BEq.rfl, BEq.symm, BEq.trans⟩

theorem ncard_keys (hd : DistinctKeys l) :
    (Quotient.mk (keyClasses κ) '' {k | ∃ node ∈ l, node.1 == k}).ncard = l.length := by
  classical
  let keys := l.map fun node => Quotient.mk (keyClasses κ) node.1
  have hset : Quotient.mk (keyClasses κ) '' {k | ∃ node ∈ l, node.1 == k} =
      (keys.toFinset : Set (Quotient (keyClasses κ))) := by
    ext q
    simp only [Set.mem_image, Set.mem_ofPred_eq, List.coe_toFinset, keys, List.mem_map]
    constructor
    · intro hmem
      obtain ⟨k, ⟨node, hnode, hk⟩, hq⟩ := hmem
      exact ⟨node, hnode, (Quotient.sound hk).trans hq⟩
    · intro hmem
      obtain ⟨node, hnode, hq⟩ := hmem
      exact ⟨node.1, ⟨node, hnode, BEq.rfl⟩, hq⟩
  have hnodup : keys.Nodup := by
    rw [DistinctKeys, List.pairwise_map] at hd
    refine List.pairwise_map.mpr (hd.imp ?_)
    intro a b hab heq
    have hsame : (a.1 == b.1) = true := Quotient.exact heq
    rw [hab] at hsame
    cases hsame
  rw [hset, Set.ncard_coe_finset, List.toFinset_card_of_nodup hnodup, List.length_map]

end equivalence

omit [BEq κ] in
theorem keys_modify (i : ℕ) :
    (l.modify i fun node => (node.1, v)).map Prod.fst = l.map Prod.fst := by
  induction l generalizing i with
  | nil => simp
  | cons node l ih =>
    cases i with
    | zero => rfl
    | succ i => rw [List.modify_succ_cons, List.map_cons, List.map_cons, ih]

theorem distinct_modify (hd : DistinctKeys l) (i : ℕ) :
    DistinctKeys (l.modify i fun node => (node.1, v)) := by
  rwa [DistinctKeys, keys_modify]

theorem distinct_eraseIdx (hd : DistinctKeys l) (i : ℕ) : DistinctKeys (l.eraseIdx i) :=
  List.Pairwise.sublist ((List.eraseIdx_sublist l i).map Prod.fst) hd

end ModCpp.KeyedList
