import Mathlib.Data.List.Nodup
import Mathlib.Data.List.Infix
import Mathlib.Logic.Function.Basic

/-!
# Chains of links

A cell holds at most one link to another cell. Following the links from a start either
goes on for ever or visits a finite list of cells, which the start determines and in which
no cell occurs twice.
-/

namespace ModCpp
variable {κ : Type*} {link link' : κ → Option κ} {p : Option κ} {a : κ} {l l' : List κ}

/-- Following the links from `p` visits the cells of `l` and ends. -/
def Linked (link : κ → Option κ) : Option κ → List κ → Prop
  | p, [] => p = none
  | p, a :: l => p = some a ∧ Linked link (link a) l

@[simp] theorem linked_nil : Linked link p [] ↔ p = none := Iff.rfl

@[simp] theorem linked_cons : Linked link p (a :: l) ↔ p = some a ∧ Linked link (link a) l :=
  Iff.rfl

namespace Linked

theorem eq_nil (h : Linked link none l) : l = [] := by
  cases l with
  | nil => rfl
  | cons a l => cases h.1

theorem exists_cons (h : Linked link (some a) l) :
    ∃ rest, l = a :: rest ∧ Linked link (link a) rest := by
  cases l with
  | nil => cases h
  | cons b l =>
    obtain ⟨hab, hl⟩ := h
    cases hab
    exact ⟨l, rfl, hl⟩

theorem unique (h : Linked link p l) (h' : Linked link p l') : l = l' := by
  induction l generalizing p l' with
  | nil =>
    cases h
    exact h'.eq_nil.symm
  | cons a l ih =>
    obtain ⟨rfl, hl⟩ := h
    obtain ⟨rest, rfl, hrest⟩ := h'.exists_cons
    rw [ih hl hrest]

theorem suffix {pre : List κ} (h : Linked link p (pre ++ l)) : ∃ p', Linked link p' l := by
  induction pre generalizing p with
  | nil => exact ⟨p, h⟩
  | cons a pre ih => exact ih h.2

/-- A cell met twice would start the same chain at two lengths. -/
theorem nodup (h : Linked link p l) : l.Nodup := by
  induction l generalizing p with
  | nil => exact List.nodup_nil
  | cons a l ih =>
    rw [List.nodup_cons]
    refine ⟨fun ha => ?_, ih h.2⟩
    obtain ⟨pre, post, rfl⟩ := List.append_of_mem ha
    obtain ⟨p', hp'⟩ := suffix h.2
    have hlen := congrArg List.length (unique hp'.2 h.2)
    simp only [List.length_append, List.length_cons] at hlen
    omega

theorem congr (h : Linked link p l) (hl : ∀ a ∈ l, link' a = link a) : Linked link' p l := by
  induction l generalizing p with
  | nil => exact h
  | cons a l ih =>
    refine ⟨h.1, ?_⟩
    rw [hl a List.mem_cons_self]
    exact ih h.2 fun b hb => hl b (List.mem_cons_of_mem _ hb)

end Linked
end ModCpp
