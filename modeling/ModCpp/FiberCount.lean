import Mathlib.Data.Finset.Card
import Mathlib.Logic.Function.Basic

/-!
# Counting holders

Each member of a finite set holds at most one resource. How many hold a resource changes by
one when a holder comes, goes or turns to another resource.
-/

namespace ModCpp
variable {σ κ : Type*} [DecidableEq κ] {A : Finset σ} {f g : σ → Option κ} {t : σ} {b : κ}
  {v : Option κ}

def holderCount (A : Finset σ) (f : σ → Option κ) (b : κ) : ℕ :=
  (A.filter fun t => f t = some b).card

theorem holderCount_pos : 0 < holderCount A f b ↔ ∃ t ∈ A, f t = some b := by
  rw [holderCount, Finset.card_pos]
  simp [Finset.Nonempty]

theorem holderCount_congr (h : ∀ t ∈ A, g t = f t) : holderCount A g b = holderCount A f b := by
  rw [holderCount, holderCount, Finset.filter_congr fun t ht => by rw [h t ht]]

theorem holderCount_eq_zero : holderCount A f b = 0 ↔ ∀ t ∈ A, f t ≠ some b := by
  rw [holderCount, Finset.card_eq_zero, Finset.filter_eq_empty_iff]

theorem holderCount_eq_card (h : ∀ t ∈ A, f t = some b) : holderCount A f b = A.card := by
  rw [holderCount, Finset.filter_true_of_mem h]

variable [DecidableEq σ]

theorem holderCount_insert (ht : t ∉ A) :
    holderCount (insert t A) f b = holderCount A f b + if f t = some b then 1 else 0 := by
  rw [holderCount, Finset.filter_insert]
  split_ifs with hft
  · rw [Finset.card_insert_of_notMem (by simp [ht])]
    rfl
  · rfl

theorem holderCount_erase (ht : t ∈ A) :
    holderCount (A.erase t) f b + (if f t = some b then 1 else 0) = holderCount A f b := by
  rw [← holderCount_insert (Finset.notMem_erase t A), Finset.insert_erase ht]

theorem holderCount_update (ht : t ∉ A) :
    holderCount A (Function.update f t v) b = holderCount A f b :=
  holderCount_congr fun _ hu => Function.update_of_ne (ne_of_mem_of_not_mem hu ht) ..

theorem holderCount_update_mem (ht : t ∈ A) :
    holderCount A (Function.update f t v) b + (if f t = some b then 1 else 0) =
      holderCount A f b + if v = some b then 1 else 0 := by
  rw [← holderCount_erase (f := f) ht, ← holderCount_erase (f := Function.update f t v) ht,
    holderCount_update (Finset.notMem_erase t A), Function.update_self]
  omega

theorem holderCount_insert_update (ht : t ∉ A) :
    holderCount (insert t A) (Function.update f t v) b =
      holderCount A f b + if v = some b then 1 else 0 := by
  rw [holderCount_insert ht, holderCount_update ht, Function.update_self]

theorem holderCount_move {u : σ} (ht : t ∉ A) (hu : u ∈ A) :
    holderCount (insert t A) (Function.update (Function.update f t (f u)) u none) b =
      holderCount A f b := by
  have htu : t ≠ u := fun he => ht (he ▸ hu)
  have hrest : holderCount A (Function.update (Function.update f t (f u)) u none) b =
      holderCount (A.erase u) f b := by
    rw [← Finset.insert_erase hu, holderCount_insert_update (Finset.notMem_erase u A),
      holderCount_update fun h => ht (Finset.mem_of_mem_erase h), Finset.insert_erase hu]
    simp
  rw [holderCount_insert ht, hrest, Function.update_of_ne htu, Function.update_self,
    holderCount_erase hu]

section counters
variable {c : κ → Option ℤ} {n n' : κ → ℕ}

theorem counter_up (hc : ∀ b, c b = if n b = 0 then none else some (n b : ℤ))
    (hn : ∀ b', n' b' = n b' + if b = b' then 1 else 0) (b' : κ) :
    Function.update c b (some ((n b : ℤ) + 1)) b' =
      if n' b' = 0 then none else some (n' b' : ℤ) := by
  rw [hn]
  by_cases hbb : b = b'
  · subst hbb
    rw [Function.update_self, if_pos rfl, if_neg (Nat.succ_ne_zero _)]
    rfl
  · rw [Function.update_of_ne (Ne.symm hbb), if_neg hbb, Nat.add_zero, hc]

theorem counter_down (hc : ∀ b, c b = if n b = 0 then none else some (n b : ℤ))
    (hn : ∀ b', n' b' + (if b = b' then 1 else 0) = n b') (b' : κ) :
    Function.update c b (if n b = 1 then none else some ((n b : ℤ) - 1)) b' =
      if n' b' = 0 then none else some (n' b' : ℤ) := by
  have hb' := hn b'
  by_cases hbb : b = b'
  · subst hbb
    rw [if_pos rfl] at hb'
    rw [Function.update_self]
    by_cases hone : n b = 1
    · rw [if_pos hone, if_pos (by omega)]
    · rw [if_neg hone, if_neg (by omega), Option.some_inj]
      omega
  · rw [if_neg hbb, Nat.add_zero] at hb'
    rw [Function.update_of_ne (Ne.symm hbb), hc, hb']

theorem count_last (hn : ∀ b', n' b' + (if b = b' then 1 else 0) = n b') (hone : n b = 1)
    (b' : κ) : [b].count b' = if 0 < n b' ∧ n' b' = 0 then 1 else 0 := by
  have hb' := hn b'
  rw [List.count_singleton]
  by_cases hbb : b = b'
  · subst hbb
    rw [if_pos rfl, hone] at hb'
    rw [hone, if_pos (by simp), if_pos (by omega)]
  · rw [if_neg hbb] at hb'
    rw [if_neg (by simpa using hbb), if_neg (by omega)]

end counters
end ModCpp
