import Mathlib.Data.Multiset.Replicate
import ModCpp.OrderedSet
import ModCpp.Runs

/-!
# Best fit

Free lengths that are served from the least one that is enough, and from a fresh one of a fixed
size where none is. Which of several equal lengths is taken makes no difference to the lengths.
Fresh lengths that lie ready are touched only where the search would have had to get one.
-/

namespace ModCpp.BestFit
variable {size n c d m : ℕ} {free : Multiset ℕ} {ns : List ℕ}

def remainder (n k : ℕ) : Multiset ℕ := if n = k then 0 else {k - n}

/-- The free lengths and how many fresh ones were used, after `n` has been served. -/
def serve (size : ℕ) (s : Multiset ℕ × ℕ) (n : ℕ) : Multiset ℕ × ℕ :=
  match lowerBound s.1.toFinset n with
  | some k => (s.1.erase k + remainder n k, s.2)
  | none => (s.1 + remainder n size, s.2 + 1)

theorem serve_fit {k : ℕ} (hk : k ∈ free) (hn : n ≤ k) (hleast : ∀ j ∈ free, n ≤ j → k ≤ j) :
    serve size (free, c) n = (free.erase k + remainder n k, c) := by
  have hbound : lowerBound free.toFinset n = some k := by
    apply lowerBound_eq_some.mpr
    constructor
    · exact ⟨Multiset.mem_toFinset.mpr hk, hn⟩
    · rintro j ⟨hj, hnj⟩
      exact hleast j (Multiset.mem_toFinset.mp hj) hnj
  rw [serve, hbound]

theorem serve_fresh (hnone : ∀ j ∈ free, j < n) :
    serve size (free, c) n = (free + remainder n size, c + 1) := by
  have hbound : lowerBound free.toFinset n = none := by
    apply lowerBound_eq_none.mpr
    intro j hj
    exact hnone j (Multiset.mem_toFinset.mp hj)
  rw [serve, hbound]

theorem serve_cases (size : ℕ) (free : Multiset ℕ) (n c : ℕ) :
    (∃ k ∈ free, n ≤ k ∧ (∀ j ∈ free, n ≤ j → k ≤ j) ∧
      serve size (free, c) n = (free.erase k + remainder n k, c)) ∨
    (∀ j ∈ free, j < n) ∧ serve size (free, c) n = (free + remainder n size, c + 1) := by
  cases hbound : lowerBound free.toFinset n with
  | some k =>
    obtain ⟨⟨hk, hnk⟩, hleast⟩ := lowerBound_eq_some.mp hbound
    have hk' := Multiset.mem_toFinset.mp hk
    have hleast' : ∀ j ∈ free, n ≤ j → k ≤ j :=
      fun j hj hnj => hleast ⟨Multiset.mem_toFinset.mpr hj, hnj⟩
    exact .inl ⟨k, hk', hnk, hleast', serve_fit hk' hnk hleast'⟩
  | none =>
    have hnone : ∀ j ∈ free, j < n :=
      fun j hj => lowerBound_eq_none.mp hbound j (Multiset.mem_toFinset.mpr hj)
    exact .inr ⟨hnone, serve_fresh hnone⟩

theorem le_of_mem_remainder {j k : ℕ} (hj : j ∈ remainder n k) : j ≤ k := by
  rw [remainder] at hj
  split_ifs at hj
  · exact absurd hj (Multiset.notMem_zero j)
  · rw [Multiset.mem_singleton.mp hj]
    exact Nat.sub_le k n

theorem serve_le (hle : ∀ k ∈ free, k ≤ size) : ∀ k ∈ (serve size (free, c) n).1, k ≤ size := by
  intro j hj
  rcases serve_cases size free n c with ⟨k, hk, -, -, he⟩ | ⟨-, he⟩
  · rw [he] at hj
    rcases Multiset.mem_add.mp hj with hj | hj
    · exact hle j (Multiset.mem_of_mem_erase hj)
    · exact (le_of_mem_remainder hj).trans (hle k hk)
  · rw [he] at hj
    rcases Multiset.mem_add.mp hj with hj | hj
    · exact hle j hj
    · exact le_of_mem_remainder hj

theorem serve_count_le (size : ℕ) (free : Multiset ℕ) (n c : ℕ) :
    c ≤ (serve size (free, c) n).2 := by
  rcases serve_cases size free n c with ⟨k, -, -, -, he⟩ | ⟨-, he⟩
  · rw [he]
  · rw [he]
    exact Nat.le_succ c

/-- Fresh lengths that lie ready take the place of those that would be used. -/
theorem serve_spare (hle : ∀ k ∈ free, k ≤ size) (hn : n ≤ size)
    (hm : (serve size (free, c) n).2 ≤ m) :
    serve size (free + Multiset.replicate (m - c) size, d) n =
      ((serve size (free, c) n).1 +
        Multiset.replicate (m - (serve size (free, c) n).2) size, d) := by
  rcases serve_cases size free n c with ⟨k, hk, hnk, hleast, he⟩ | ⟨hnone, he⟩
  · rw [he, serve_fit (Multiset.mem_add.mpr (.inl hk)) hnk, Multiset.erase_add_left_pos _ hk,
      add_right_comm]
    intro j hj hnj
    rcases Multiset.mem_add.mp hj with hj | hj
    · exact hleast j hj hnj
    · rw [Multiset.eq_of_mem_replicate hj]
      exact hle k hk
  · rw [he] at hm ⊢
    dsimp only at hm ⊢
    obtain ⟨j, hj⟩ : ∃ j, m - c = j + 1 := ⟨m - c - 1, by omega⟩
    have hmem : size ∈ free + Multiset.replicate (m - c) size := by
      rw [hj, Multiset.replicate_succ]
      exact Multiset.mem_add.mpr (.inr (Multiset.mem_cons_self _ _))
    have hnot : size ∉ free := fun h => absurd (hnone size h) (not_lt.mpr hn)
    rw [serve_fit hmem hn, Multiset.erase_add_right_neg _ hnot, hj, Multiset.replicate_succ,
      Multiset.erase_cons_head, show m - (c + 1) = j by omega, add_right_comm]
    intro i hi hni
    rcases Multiset.mem_add.mp hi with hi | hi
    · exact absurd (hnone i hi) (not_lt.mpr hni)
    · exact (Multiset.eq_of_mem_replicate hi).ge

def serveAll (size : ℕ) (s : Multiset ℕ × ℕ) (ns : List ℕ) : Multiset ℕ × ℕ :=
  history (serve size) s ns

theorem serveAll_concat (s : Multiset ℕ × ℕ) :
    serveAll size s (ns ++ [n]) = serve size (serveAll size s ns) n := history_concat ..

theorem serveAll_le (hle : ∀ k ∈ free, k ≤ size) :
    ∀ k ∈ (serveAll size (free, c) ns).1, k ≤ size := by
  induction ns using List.reverseRecOn with
  | nil => exact hle
  | append_singleton ns n ih =>
    rw [serveAll_concat]
    exact serve_le ih

/-- What has been served with no more than `m` fresh lengths can be served without getting any
where as many lie ready. -/
theorem serveAll_spare (hle : ∀ k ∈ free, k ≤ size) (hn : ∀ n ∈ ns, n ≤ size)
    (hm : (serveAll size (free, c) ns).2 ≤ m) :
    serveAll size (free + Multiset.replicate (m - c) size, d) ns =
      ((serveAll size (free, c) ns).1 +
        Multiset.replicate (m - (serveAll size (free, c) ns).2) size, d) := by
  induction ns using List.reverseRecOn with
  | nil => rfl
  | append_singleton ns n ih =>
    rw [serveAll_concat] at hm
    have hcount := serve_count_le size (serveAll size (free, c) ns).1 n
      (serveAll size (free, c) ns).2
    have hserved := ih (fun k hk => hn k (List.mem_append_left _ hk)) (hcount.trans hm)
    rw [serveAll_concat, serveAll_concat, hserved]
    exact serve_spare (serveAll_le hle) (hn n (by simp)) hm

end ModCpp.BestFit
