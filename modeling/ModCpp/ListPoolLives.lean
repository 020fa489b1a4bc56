import Mathlib.Data.List.Chain
import Mathlib.Data.List.Nodup
import ModCpp.ListPool

/-!
# Lives of the objects in the pool

A node constructs all its objects when it is made, and `New` constructs another one in
the slot that it takes.
-/

namespace ModCpp.ListPool
variable {capacity : ℕ} {p p' : ListPool} {tr : List Op} {e : Op} {slot : Slot}
  {log log' : List (Slot × Life)}

def livesOf (slot : Slot) (log : List (Slot × Life)) : List Life :=
  (log.filter fun entry => entry.1 = slot).map Prod.snd

def Alternates (log : List (Slot × Life)) (slot : Slot) : Prop :=
  (livesOf slot log).head? ≠ some .destroy ∧ (livesOf slot log).IsChain (· ≠ ·)

theorem livesOf_append : livesOf slot (log ++ log') = livesOf slot log ++ livesOf slot log' := by
  rw [livesOf, List.filter_append, List.map_append]
  rfl

theorem Alternates.mono (h : Alternates log' slot) (hp : log <+: log') :
    Alternates log slot := by
  obtain ⟨rest, rfl⟩ := hp
  obtain ⟨hhead, hchain⟩ := h
  rw [livesOf_append] at hhead hchain
  refine ⟨?_, hchain.left_of_append⟩
  intro hd
  rw [List.head?_append, hd] at hhead
  exact hhead rfl

theorem emplaceBack_log {realloc : Bool} : p.log <+: (emplaceBack capacity realloc p).log := by
  cases realloc with
  | false => exact List.prefix_append _ _
  | true => exact (List.prefix_append _ _).trans (List.prefix_append _ _)

theorem allocate_log {realloc : Bool} (h : allocate capacity realloc p = .ok (p', slot)) :
    p.log <+: p'.log := by
  rw [allocate] at h
  split at h
  · cases h
    exact List.prefix_rfl
  · obtain ⟨last, _, h⟩ := bind_ok h
    obtain ⟨last', _, h⟩ := bind_ok h
    obtain ⟨⟨node, taken⟩, _, h⟩ := bind_ok h
    cases h
    split_ifs
    · exact emplaceBack_log
    · exact List.prefix_rfl

theorem next_log (h : next capacity p e = some p') : p.log <+: p'.log := by
  cases e with
  | release obj =>
    cases h
    exact List.prefix_append _ _
  | new realloc res =>
    rw [next] at h
    split at h
    · rename_i q r hnew
      obtain ⟨⟨q', rawMem⟩, halloc, hnew⟩ := bind_ok hnew
      cases hnew
      split_ifs at h
      all_goals
        cases h
        exact (allocate_log halloc).trans (List.prefix_append _ _)
    · cases h

theorem livesOf_array {block b k : ℕ} {life : Life} {l : List ℕ} (hl : l.Nodup) :
    livesOf (b, k) (l.map fun i => ((block, i), life)) =
      if b = block ∧ k ∈ l then [life] else [] := by
  induction l with
  | nil => simp [livesOf]
  | cons i l ih =>
    obtain ⟨hi, hl⟩ := List.nodup_cons.mp hl
    have ih := ih hl
    rw [List.map_cons, ← List.singleton_append, livesOf_append, ih]
    by_cases hk : b = block ∧ k = i
    · obtain ⟨rfl, rfl⟩ := hk
      simp [livesOf, hi]
    · have hne : ¬ (block = b ∧ i = k) := fun h => hk ⟨h.1.symm, h.2.symm⟩
      have hmem : (b = block ∧ (k = i ∨ k ∈ l)) ↔ b = block ∧ k ∈ l := by tauto
      simp [livesOf, hne, hmem]

theorem construct_log : (construct capacity).log = ListNode.constructAll capacity 0 := rfl

theorem livesOf_construct {b k : ℕ} : livesOf (b, k) (construct capacity).log =
    if b = 0 ∧ k < capacity then [.construct] else [] := by
  rw [construct_log, ListNode.constructAll, livesOf_array List.nodup_range]
  simp only [List.mem_range]

theorem destroy_construct (b k : ℕ) :
    Alternates ((construct capacity).destroy capacity) (b, k) := by
  have hlog : (construct capacity).destroy capacity = (construct capacity).log ++
      (List.range capacity).reverse.map fun i => ((0, i), .destroy) := by
    simp [destroy, construct, emplaceBack, ListNode.destroyAll]
  have hlives : livesOf (b, k) ((construct capacity).destroy capacity) =
      if b = 0 ∧ k < capacity then [.construct, .destroy] else [] := by
    rw [hlog, livesOf_append, livesOf_construct,
      livesOf_array (List.nodup_reverse.mpr List.nodup_range)]
    simp only [List.mem_reverse, List.mem_range]
    split_ifs <;> rfl
  rw [Alternates, hlives]
  split_ifs <;> decide

theorem allocate_construct {realloc : Bool} (hcap : 1 ≤ capacity) :
    allocate capacity realloc (construct capacity) =
      .ok ({ construct capacity with memNodeList := [⟨some 0, 1⟩] }, (0, 0)) := by
  have hfull : ¬ (⟨some 0, 0⟩ : ListNode).full capacity := by
    simp only [ListNode.full]
    omega
  have hnode : (⟨some 0, 0⟩ : ListNode).allocate capacity = .ok (⟨some 0, 1⟩, (0, 0)) := by
    rw [ListNode.allocate, ok_bind (assert_of hfull)]
    rfl
  have hback : (construct capacity).back = .ok ⟨some 0, 0⟩ := rfl
  have hfree : (construct capacity).freelist = [] := rfl
  rw [allocate, hfree]
  simp only
  rw [ok_bind hback]
  simp only [if_neg hfull]
  rw [ok_bind hback, ok_bind hnode]
  rfl

theorem new_construct {realloc throws : Bool} {r : Option Slot} (hcap : 1 ≤ capacity)
    (h : new capacity realloc throws (construct capacity) = .ok (p', r)) :
    ¬ Alternates p'.log (0, 0) := by
  obtain ⟨⟨q, rawMem⟩, halloc, h⟩ := bind_ok h
  cases h
  rw [allocate_construct hcap] at halloc
  cases halloc
  intro halt
  have hlives : livesOf (0, 0) ((construct capacity).log ++ [((0, 0), .construct)]) =
      [.construct, .construct] := by
    rw [livesOf_append, livesOf_construct, if_pos ⟨rfl, hcap⟩]
    rfl
  have hchain := halt.2
  rw [hlives] at hchain
  simp at hchain

/-- A run without `New` has no calls at all; the first `New` already breaks the alternation. -/
theorem run_lives (hcap : 1 ≤ capacity) (hr : (system capacity).Run permitted tr p) :
    (tr = [] ∧ p = construct capacity) ∨
      (∃ realloc res, Op.new realloc res ∈ tr) ∧ ∃ slot, ¬ Alternates p.log slot := by
  refine System.run_invariant (P := fun tr p => (tr = [] ∧ p = construct capacity) ∨
    (∃ realloc res, Op.new realloc res ∈ tr) ∧ ∃ slot, ¬ Alternates p.log slot) ?_ ?_ hr
  · intro p hp
    exact .inl ⟨rfl, hp⟩
  · intro tr p e p' _ h hok hstep
    have hnext : next capacity p e = some p' := hstep
    rcases h with ⟨rfl, rfl⟩ | ⟨⟨realloc, res, hmem⟩, slot, hslot⟩
    · cases e with
      | release obj => exact absurd hok (List.not_mem_nil (a := obj))
      | new realloc res =>
        refine .inr ⟨⟨realloc, res, by simp⟩, (0, 0), ?_⟩
        rw [next] at hnext
        split at hnext
        · rename_i q r hnew
          split_ifs at hnext
          cases hnext
          exact new_construct hcap hnew
        · cases hnext
    · refine .inr ⟨⟨realloc, res, List.mem_append_left _ hmem⟩, slot, ?_⟩
      intro halt
      exact hslot (halt.mono (next_log hnext))

/-- Of a pool with its destruction at the end of the run. -/
theorem lives_alternate (hcap : 1 ≤ capacity) (hr : (system capacity).Run permitted tr p) :
    (∀ slot, Alternates (p.destroy capacity) slot) ↔ ∀ realloc res, Op.new realloc res ∉ tr := by
  rcases run_lives hcap hr with ⟨rfl, rfl⟩ | ⟨⟨realloc, res, hmem⟩, slot, hslot⟩
  · exact ⟨fun _ _ _ => List.not_mem_nil, fun _ slot => destroy_construct slot.1 slot.2⟩
  · constructor
    · intro hall
      exact absurd ((hall slot).mono (List.prefix_append _ _)) hslot
    · intro hno
      exact absurd hmem (hno realloc res)

theorem lives_alternate_sample : ∃ tr p, (system 2).Run permitted tr p ∧ tr.length = 4 ∧
    ((∀ slot, Alternates (p.destroy 2) slot) ↔ ∀ realloc res, Op.new realloc res ∉ tr) := by
  have hr : ∃ p, (system 2).Run permitted [.new false (some (0, 0)), .new false (some (0, 1)),
      .release (0, 0), .new true (some (0, 0))] p :=
    ⟨_, System.run_of_exec (fun _ _ _ h => h) rfl rfl⟩
  obtain ⟨p, hr⟩ := hr
  exact ⟨_, p, hr, rfl, lives_alternate (by decide) hr⟩

theorem lives_alternate_fails : ¬ ∀ capacity, 1 ≤ capacity → ∀ tr p,
    (system capacity).Run permitted tr p → ∀ slot, Alternates (p.destroy capacity) slot := by
  intro hall
  have hr : ∃ p, (system 4).Run permitted [.new false (some (0, 0))] p ∧
      livesOf (0, 0) (p.destroy 4) = [.construct, .construct, .destroy] :=
    ⟨_, System.run_of_exec (fun _ _ _ h => h) rfl rfl, rfl⟩
  obtain ⟨p, hr, hlives⟩ := hr
  have hchain := (hall 4 (by decide) _ p hr (0, 0)).2
  rw [hlives] at hchain
  simp at hchain

end ModCpp.ListPool
