import Mathlib.Data.List.Count
import Mathlib.Data.List.Perm.Basic
import Mathlib.Tactic.Common

/-!
# Ledgers of acquired and released resources

A ledger lists which resource was acquired or released, oldest first. A resource is settled
when each acquisition was followed by one release before the next one, and held when this
is so up to a last acquisition. An owner's list names the resources held.
-/

namespace ModCpp

inductive Use
  | acquire
  | release
  deriving DecidableEq, Repr

abbrev Ledger (ρ : Type*) := List (ρ × Use)

namespace Ledger
variable {ρ : Type*} {log : Ledger ρ} {r r' : ρ} {u : Use} {uses₁ uses₂ : List Use}
  {own own' : List ρ}

def Paired : List Use → Prop
  | [] => True
  | .acquire :: .release :: rest => Paired rest
  | _ => False

theorem Paired.append (h : Paired uses₁) (h' : Paired uses₂) : Paired (uses₁ ++ uses₂) := by
  induction uses₁ using Paired.induct with
  | case1 => exact h'
  | case2 rest ih => exact ih h
  | case3 uses h1 h2 => simp [Paired] at h

theorem Paired.count_eq (h : Paired uses₁) : uses₁.count .release = uses₁.count .acquire := by
  induction uses₁ using Paired.induct with
  | case1 => rfl
  | case2 rest ih =>
    rw [List.count_cons_of_ne (by decide), List.count_cons_self, List.count_cons_self,
      List.count_cons_of_ne (by decide), ih h]
  | case3 uses h1 h2 => simp [Paired] at h

variable [DecidableEq ρ]

def uses (log : Ledger ρ) (r : ρ) : List Use :=
  (log.filter fun entry => entry.1 = r).map Prod.snd

@[simp] theorem uses_nil : uses ([] : Ledger ρ) r = [] := rfl

@[simp] theorem uses_concat_self : uses (log ++ [(r, u)]) r = uses log r ++ [u] := by
  simp [uses]

theorem uses_concat_of_ne (h : r' ≠ r) : uses (log ++ [(r', u)]) r = uses log r := by
  simp [uses, h]

def Settled (log : Ledger ρ) (r : ρ) : Prop := Paired (uses log r)

def Held (log : Ledger ρ) (r : ρ) : Prop := ∃ past, uses log r = past ++ [.acquire] ∧ Paired past

theorem settled_nil : Settled ([] : Ledger ρ) r := trivial

theorem Settled.acquire (h : Settled log r) : Held (log ++ [(r, .acquire)]) r :=
  ⟨uses log r, uses_concat_self, h⟩

theorem Held.release (h : Held log r) : Settled (log ++ [(r, .release)]) r := by
  obtain ⟨past, hpast, hpaired⟩ := h
  rw [Settled, uses_concat_self, hpast, List.append_assoc]
  exact hpaired.append trivial

/-- The resources held are those on the list, each there once. -/
structure Owns (log : Ledger ρ) (own : List ρ) : Prop where
  nodup : own.Nodup
  held : ∀ r ∈ own, Held log r
  settled : ∀ r, r ∉ own → Settled log r

theorem owns_nil : Owns ([] : Ledger ρ) [] := ⟨List.nodup_nil, by simp, fun _ _ => settled_nil⟩

theorem Owns.acquire (h : Owns log own) (hr : r ∉ own) :
    Owns (log ++ [(r, .acquire)]) (r :: own) := by
  refine ⟨List.nodup_cons.mpr ⟨hr, h.nodup⟩, ?_, ?_⟩
  · intro x hx
    rcases List.mem_cons.mp hx with rfl | hx
    · exact (h.settled x hr).acquire
    · have hne : r ≠ x := fun he => hr (he ▸ hx)
      rw [Held, uses_concat_of_ne hne]
      exact h.held x hx
  · intro x hx
    rw [List.mem_cons, not_or] at hx
    rw [Settled, uses_concat_of_ne (Ne.symm hx.1)]
    exact h.settled x hx.2

theorem Owns.release (h : Owns log (r :: own)) : Owns (log ++ [(r, .release)]) own := by
  obtain ⟨hr, hnodup⟩ := List.nodup_cons.mp h.nodup
  refine ⟨hnodup, ?_, ?_⟩
  · intro x hx
    have hne : r ≠ x := fun he => hr (he ▸ hx)
    rw [Held, uses_concat_of_ne hne]
    exact h.held x (List.mem_cons_of_mem _ hx)
  · intro x hx
    by_cases he : r = x
    · subst he
      exact (h.held r (List.mem_cons_self ..)).release
    · rw [Settled, uses_concat_of_ne he]
      exact h.settled x (by simp [Ne.symm he, hx])

theorem Owns.perm (h : Owns log own) (hp : own.Perm own') : Owns log own' := by
  refine ⟨hp.nodup_iff.mp h.nodup, ?_, ?_⟩
  · exact fun x hx => h.held x (hp.mem_iff.mpr hx)
  · exact fun x hx => h.settled x fun hm => hx (hp.mem_iff.mp hm)

end Ledger

end ModCpp
