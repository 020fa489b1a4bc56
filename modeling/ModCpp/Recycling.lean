import ModCpp.Runs
import Mathlib.Data.List.Perm.Basic

/-!
# Items that are used again

Items are taken and given back. An item is made only when none is free, and where a returned item
is put among the free ones decides which is used again first.
-/

namespace ModCpp
variable {κ : Type*}

inductive Turnover (κ : Type*)
  | take (x : κ)
  | give (x : κ)

namespace Turnover

def taken : Turnover κ → Option κ
  | .take x => some x
  | .give _ => none

def given : Turnover κ → Option κ
  | .take _ => none
  | .give x => some x

end Turnover

structure Stock (κ : Type*) where
  free : List κ
  live : List κ

variable [BEq κ]

inductive Recycles (put : κ → List κ → List κ) : Stock κ → Turnover κ → Stock κ → Prop
  | reuse {x : κ} {rest live : List κ} : Recycles put ⟨x :: rest, live⟩ (.take x) ⟨rest, x :: live⟩
  | make {x : κ} {live : List κ} : x ∉ live → Recycles put ⟨[], live⟩ (.take x) ⟨[], x :: live⟩
  | give {x : κ} {free live : List κ} : x ∈ live →
      Recycles put ⟨free, live⟩ (.give x) ⟨put x free, live.erase x⟩

def recycler (put : κ → List κ → List κ) : System (Stock κ) (Turnover κ) where
  init s := s = ⟨[], []⟩
  step := Recycles put

/-- The item given back last is used again first. -/
def lifo : κ → List κ → List κ := List.cons

/-- The item given back first is used again first. -/
def fifo (x : κ) (free : List κ) : List κ := free ++ [x]

section runs
variable {put : κ → List κ → List κ} {tr : List (Turnover κ)} {s : Stock κ}

theorem recycler_keeps [LawfulBEq κ] (hput : ∀ x l, (put x l).Perm (x :: l))
    (hr : (recycler put).Run System.always tr s) {x : κ} (hx : .take x ∈ tr) :
    x ∈ s.live ∨ x ∈ s.free := by
  induction hr with
  | start _ => cases hx
  | step _ _ hs ih =>
    rw [List.mem_append, List.mem_singleton] at hx
    cases hs with
    | @reuse y rest live =>
      rcases hx with hx | hx
      · rcases ih hx with hlive | hfree
        · exact .inl (List.mem_cons_of_mem _ hlive)
        · rcases List.mem_cons.mp hfree with rfl | hrest
          · exact .inl List.mem_cons_self
          · exact .inr hrest
      · cases hx
        exact .inl List.mem_cons_self
    | make _ =>
      rcases hx with hx | hx
      · rcases ih hx with hlive | hfree
        · exact .inl (List.mem_cons_of_mem _ hlive)
        · exact absurd hfree List.not_mem_nil
      · cases hx
        exact .inl List.mem_cons_self
    | @give y free live _ =>
      rcases hx with hx | hx
      · rw [(hput y free).mem_iff, List.mem_cons]
        rcases ih hx with hlive | hfree
        · by_cases he : x = y
          · exact .inr (.inl he)
          · exact .inl ((List.mem_erase_of_ne he).mpr hlive)
        · exact .inr (.inr hfree)
      · cases hx

theorem lifo_order (hr : (recycler lifo).Run System.always tr s) :
    s.free.reverse.Sublist (tr.filterMap Turnover.given) := by
  induction hr with
  | start hi =>
    rw [hi]
    exact List.Sublist.refl _
  | step _ _ hs ih =>
    rw [List.filterMap_append]
    cases hs with
    | reuse =>
      rw [List.reverse_cons] at ih
      exact ((List.sublist_append_left _ _).trans ih).trans (List.sublist_append_left _ _)
    | make _ => exact ih.trans (List.sublist_append_left _ _)
    | give _ =>
      rw [lifo, List.reverse_cons]
      exact ih.append (List.Sublist.refl _)

theorem fifo_order (hr : (recycler fifo).Run System.always tr s) :
    ∃ reused, reused.Sublist (tr.filterMap Turnover.taken) ∧
      reused ++ s.free = tr.filterMap Turnover.given := by
  induction hr with
  | start hi =>
    rw [hi]
    exact ⟨[], List.Sublist.refl _, rfl⟩
  | step _ _ hs ih =>
    obtain ⟨reused, hsub, hgiven⟩ := ih
    rw [List.filterMap_append, List.filterMap_append, ← hgiven]
    cases hs with
    | @reuse x rest live =>
      refine ⟨reused ++ [x], hsub.append (List.Sublist.refl _), ?_⟩
      simp [Turnover.given]
    | make _ =>
      refine ⟨reused, hsub.trans (List.sublist_append_left _ _), ?_⟩
      simp [Turnover.given]
    | give _ =>
      refine ⟨reused, hsub.trans (List.sublist_append_left _ _), ?_⟩
      simp [Turnover.given, fifo]

end runs
end ModCpp
