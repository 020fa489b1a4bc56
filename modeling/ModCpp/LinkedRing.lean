import Mathlib.Data.List.Chain
import Mathlib.Data.List.Nodup
import Mathlib.Logic.Function.Basic

/-!
# Doubly linked paths

Consecutive cells of a path are linked both ways. A path may end where it starts, so a cell
occurs at most once among the cells a link leaves and at most once among those it enters.
-/

namespace ModCpp
variable {κ : Type*} {next prev next' prev' : κ → Option κ} {l l₁ l₂ : List κ} {p q r new : κ}

def Link (next prev : κ → Option κ) (p q : κ) : Prop := next p = some q ∧ prev q = some p

structure Path (next prev : κ → Option κ) (l : List κ) : Prop where
  chain : l.IsChain (Link next prev)
  sources : l.dropLast.Nodup
  targets : l.tail.Nodup

namespace Path

theorem mk_chain (h : l.IsChain (Link next prev))
    (hl : ∀ p ∈ l.dropLast, ∀ q ∈ l.tail, Link next prev p q → Link next' prev' p q) :
    l.IsChain (Link next' prev') := by
  induction l with
  | nil => exact .nil
  | cons a l ih =>
    cases l with
    | nil => exact .singleton a
    | cons b l =>
      obtain ⟨hab, hrest⟩ := List.isChain_cons_cons.mp h
      refine List.isChain_cons_cons.mpr ⟨hl a (by simp) b (by simp) hab, ih hrest ?_⟩
      intro x hx y hy
      exact hl x (by simp [hx]) y (by simp [List.mem_of_mem_tail hy])

theorem of_ne (hnext : ∀ x ∈ l.dropLast, next' x = next x) (hprev : ∀ y ∈ l.tail, prev' y = prev y)
    (h : l.IsChain (Link next prev)) : l.IsChain (Link next' prev') := by
  refine mk_chain h ?_
  intro x hx y hy hxy
  exact ⟨(hnext x hx).trans hxy.1, (hprev y hy).trans hxy.2⟩

theorem source_ne (h : Path next prev (l₁ ++ p :: q :: l₂)) :
    (∀ x ∈ l₁, x ≠ p) ∧ ∀ x ∈ (q :: l₂).dropLast, x ≠ p := by
  have hs := h.sources
  rw [List.dropLast_append_of_ne_nil (by simp), List.dropLast_cons_cons, List.nodup_append] at hs
  obtain ⟨_, hp, hne⟩ := hs
  refine ⟨fun x hx => hne x hx p (by simp), ?_⟩
  intro x hx he
  exact (List.nodup_cons.mp hp).1 (he ▸ hx)

theorem target_ne (h : Path next prev (l₁ ++ p :: q :: l₂)) :
    (∀ y ∈ (l₁ ++ [p]).tail, y ≠ q) ∧ ∀ y ∈ l₂, y ≠ q := by
  have ht := h.targets
  have hsplit : (l₁ ++ p :: q :: l₂).tail = (l₁ ++ [p]).tail ++ q :: l₂ := by
    cases l₁ <;> simp
  rw [hsplit, List.nodup_append] at ht
  obtain ⟨_, hq, hne⟩ := ht
  refine ⟨fun y hy => hne y hy q (by simp), ?_⟩
  intro y hy he
  exact (List.nodup_cons.mp hq).1 (he ▸ hy)

variable [DecidableEq κ]

theorem insert (h : Path next prev (l₁ ++ p :: q :: l₂)) (hnew : new ∉ l₁ ++ p :: q :: l₂) :
    (l₁ ++ p :: new :: q :: l₂).IsChain (Link
      (Function.update (Function.update next p (some new)) new (some q))
      (Function.update (Function.update prev new (some p)) q (some new))) := by
  obtain ⟨hleft, hlink, hright⟩ := List.isChain_append_cons_cons.mp h.chain
  have hne : ∀ x ∈ l₁ ++ p :: q :: l₂, x ≠ new := fun x hx he => hnew (he ▸ hx)
  have hpn : p ≠ new := hne p (by simp)
  have hqn : q ≠ new := hne q (by simp)
  refine List.isChain_append_cons_cons.mpr ⟨?_, ⟨?_, ?_⟩, List.isChain_cons_cons.mpr ⟨⟨?_, ?_⟩, ?_⟩⟩
  · refine of_ne ?_ ?_ hleft
    · intro x hx
      rw [List.dropLast_concat] at hx
      rw [Function.update_of_ne (hne x (by simp [hx])), Function.update_of_ne (h.source_ne.1 x hx)]
    · intro y hy
      have hmem := List.mem_of_mem_tail hy
      rw [Function.update_of_ne (h.target_ne.1 y hy), Function.update_of_ne (hne y ?_)]
      simp only [List.mem_append, List.mem_singleton] at hmem
      rcases hmem with hmem | rfl <;> simp [*]
  · rw [Function.update_of_ne hpn, Function.update_self]
  · rw [Function.update_of_ne hqn.symm, Function.update_self]
  · rw [Function.update_self]
  · rw [Function.update_self]
  · refine of_ne ?_ ?_ hright
    · intro x hx
      have hmem := List.dropLast_subset _ hx
      rw [Function.update_of_ne (hne x ?_), Function.update_of_ne (h.source_ne.2 x hx)]
      simp only [List.mem_cons] at hmem
      rcases hmem with rfl | hmem <;> simp [*]
    · intro y hy
      rw [Function.update_of_ne (h.target_ne.2 y hy), Function.update_of_ne (hne y ?_)]
      simp only [List.tail_cons] at hy
      simp [hy]

theorem remove (h : Path next prev (l₁ ++ p :: q :: r :: l₂)) :
    (l₁ ++ p :: r :: l₂).IsChain (Link (Function.update next p (some r))
      (Function.update prev r (some p))) := by
  have h' : Path next prev ((l₁ ++ [p]) ++ q :: r :: l₂) := by simpa using h
  obtain ⟨hleft, _, hrest⟩ := List.isChain_append_cons_cons.mp h.chain
  obtain ⟨_, hright⟩ := List.isChain_cons_cons.mp hrest
  refine List.isChain_append_cons_cons.mpr ⟨?_, ⟨?_, ?_⟩, ?_⟩
  · refine of_ne ?_ ?_ hleft
    · intro x hx
      rw [List.dropLast_concat] at hx
      rw [Function.update_of_ne (h.source_ne.1 x hx)]
    · intro y hy
      rw [Function.update_of_ne (h'.target_ne.1 y ?_)]
      cases l₁ with
      | nil => simp at hy
      | cons a l₁ => exact List.mem_append_left _ hy
  · rw [Function.update_self]
  · rw [Function.update_self]
  · refine of_ne ?_ ?_ hright
    · intro x hx
      rw [Function.update_of_ne (h.source_ne.2 x ?_)]
      rw [List.dropLast_cons_cons]
      exact List.mem_cons_of_mem _ hx
    · intro y hy
      rw [Function.update_of_ne (h'.target_ne.2 y hy)]

end Path

end ModCpp
