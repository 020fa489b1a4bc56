import ModCpp.MinHeapRuns

/-!
# `MinHeap` over a wide type

The elements are 64-bit integers and `min_val` is an `int`, so that `down` compares the children
of a position with the low 32 bits of the element there.
-/

namespace ModCpp.MinHeap
variable {M : ℕ} {h : Heap} {tr : List (Call × Except String (Option ℤ))}

/-- Conversion to `int`, which keeps the low 32 bits. -/
def narrow (x : ℤ) : ℤ := Int.bmod x (2 ^ 32)

/-- What `pop` moves to the root sinks to a place in order, and `last` stays an `int`. -/
def Sifts (M : ℕ) (h : Heap) : Call → Prop
  | .push _ => full M h ∨ h.last + 1 < 2 ^ 31
  | .top => True
  | .pop => PopSinks narrow h

instance (M : ℕ) (h : Heap) : ∀ c, Decidable (Sifts M h c)
  | .push _ => inferInstanceAs (Decidable (_ ∨ _))
  | .top => .isTrue trivial
  | .pop => inferInstanceAs (Decidable (_ → Sinks ..))

theorem sifts_served (hM : 1 ≤ M) (hs : Sound M h) {c : Call} (hc : Sifts M h c) :
    ServedBy narrow M h c := by
  cases c with
  | push val => exact push_served hM hs hc val
  | top => exact top_served hs
  | pop => exact pop_served hs hc

structure RefinesWide (M : ℕ) (tr : List (Call × Except String (Option ℤ))) (h : Heap) : Prop where
  queue : (priorityQueue (M - 1)).Run System.always tr h.contents
  serves : ∀ c, Sifts M h c → ∃ res h', invoke narrow M h c = pure (res, h') ∧
    Serves (M - 1) h.contents c res h'.contents ∧ (∀ what, res = .error what → h' = h)

/-- A heap of wide elements is a priority queue in every run in which each element that sinks
comes to a place in order. -/
theorem wide_refines (hM : 1 ≤ M)
    (hr : ((heapSystem narrow M).restrict fun h e => Sifts M h e.1).Run System.always tr h) :
    RefinesWide M tr h := by
  obtain ⟨hs, hq⟩ := run_served (fun _ _ hs hc => sifts_served hM hs hc) hr
  refine ⟨hq, ?_⟩
  intro c hc
  obtain ⟨res, h', hcall, hserves, hsame, _⟩ := sifts_served hM hs hc
  exact ⟨res, h', hcall, hserves, hsame⟩

def heapExec (conv : ℤ → ℤ) (M : ℕ) (h : Heap) (e : Call × Except String (Option ℤ)) :
    Option Heap :=
  match (invoke conv M h e.1).run with
  | some (.ok (res, h')) => if res = e.2 then some h' else none
  | _ => none

theorem heapExec_step {conv : ℤ → ℤ} (h : Heap) (e : Call × Except String (Option ℤ)) (h' : Heap)
    (hexec : heapExec conv M h e = some h') : (heapSystem conv M).step h e h' := by
  rw [heapExec] at hexec
  split at hexec
  · rename_i res h'' hcall
    split_ifs at hexec with hres
    cases hexec
    subst hres
    exact hcall
  · cases hexec

theorem wide_refines_sample : ∃ tr h,
    ((heapSystem narrow 1000).restrict fun h e => Sifts 1000 h e.1).Run System.always tr h ∧
      h.last = 1 ∧ h.data 1 = 2 ^ 33 ∧ RefinesWide 1000 tr h := by
  have hr : ∃ tr h, ((heapSystem narrow 1000).restrict fun h e => Sifts 1000 h e.1).Run
      System.always tr h ∧ h.last = 1 ∧ h.data 1 = 2 ^ 33 := by
    refine ⟨[(.push (2 ^ 33), .ok none), (.push 5, .ok none), (.pop, .ok none)], _,
      System.run_of_exec (System.restrictExec_step heapExec_step) (s := ⟨fun _ => 0, 0⟩) rfl rfl,
      ?_, ?_⟩
    all_goals decide
  obtain ⟨tr, h, hr, hlast, hroot⟩ := hr
  exact ⟨tr, h, hr, hlast, hroot, wide_refines (by decide) hr⟩

theorem Serves.top_least {cap : ℕ} {s s' : Multiset ℤ} {x : ℤ}
    (h : Serves cap s .top (.ok (some x)) s') : ∀ y ∈ s, x ≤ y := by
  cases h with
  | top _ hleast => exact hleast

/-- The low 32 bits of `2 ^ 32` are below 1, so that it stays at the root. -/
theorem wide_refines_fails : ¬ ∀ M, 1 ≤ M → ∀ tr h, (heapSystem narrow M).Run System.always tr h →
    ∀ res h', invoke narrow M h .top = pure (res, h') →
      Serves (M - 1) h.contents .top res h'.contents := by
  intro hall
  have hr : ∃ tr h, (heapSystem narrow 1000).Run System.always tr h ∧ h.last = 2 ∧
      h.data 1 = 2 ^ 32 ∧ h.data 2 = 1 := by
    refine ⟨[(.push 0, .ok none), (.push 1, .ok none), (.push (2 ^ 32), .ok none),
      (.pop, .ok none)], _, System.run_of_exec heapExec_step (s := ⟨fun _ => 0, 0⟩) rfl rfl,
      ?_, ?_, ?_⟩
    all_goals decide
  obtain ⟨tr, h, hr, hlast, hroot, hchild⟩ := hr
  have htop : invoke narrow 1000 h .top = pure (.ok (some (h.data 1)), h) := by
    have hempty : ¬ empty h := by
      intro h0
      rw [empty, hlast] at h0
      cases h0
    simp only [invoke, top, if_neg hempty]
    rw [get_of le_rfl (by decide), pure_bind]
  have hleast := (hall 1000 (by decide) tr h hr _ _ htop).top_least
  have hle := hleast 1 (mem_contents.mpr ⟨2, by decide, by omega, hchild⟩)
  rw [hroot] at hle
  exact absurd hle (by decide)

end ModCpp.MinHeap
