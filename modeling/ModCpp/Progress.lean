import ModCpp.Runs
import Mathlib.Algebra.BigOperators.Group.Finset.Basic
import Mathlib.Algebra.Order.BigOperators.Group.Finset
import Mathlib.Data.Fintype.Card

/-!
# Progress of a system

Some labels do a piece of the work at hand, some pay for new work, and the others wait. A rank that
work lowers, that waiting does not raise and that a payment raises by a fixed price at most bounds
the work of a run. Where there is some work to do as long as the system is busy, it can be done
with.
-/

namespace ModCpp
namespace System
variable {σ ε : Type*} {S : System σ ε} {ok : List ε → ε → Prop} {tr rest : List ε} {s t : σ}

/-- The system taken up again in the state `s`. -/
def resumed (S : System σ ε) (s : σ) : System σ ε where
  init t := t = s
  step := S.step

/-- What is admitted once `done` has happened. -/
def after (ok : List ε → ε → Prop) (done : List ε) : List ε → ε → Prop := fun tr => ok (done ++ tr)

instance (done tr : List ε) (e : ε) [∀ tr e, Decidable (ok tr e)] :
    Decidable (after ok done tr e) := inferInstanceAs (Decidable (ok (done ++ tr) e))

theorem run_resumed (hr : S.Run ok tr s) (hr' : (S.resumed s).Run (after ok tr) rest t) :
    S.Run ok (tr ++ rest) t := by
  induction hr' with
  | start hi =>
    cases hi
    rwa [List.append_nil]
  | step _ hok hs ih =>
    rw [← List.append_assoc]
    exact .step ih hok hs

theorem resumed_cons {e : ε} (hs : S.step s e t) {u : σ}
    (hr : (S.resumed t).Run always rest u) : (S.resumed s).Run always (e :: rest) u := by
  have hfirst : (S.resumed s).Run always [e] t := .step (.start rfl) trivial hs
  exact run_resumed hfirst hr

theorem resumed_of_run (hr : S.Run ok tr t) :
    ∃ s, S.init s ∧ (S.resumed s).Run (after ok []) tr t := by
  induction hr with
  | start hi => exact ⟨_, hi, .start rfl⟩
  | step _ hok hs ih =>
    obtain ⟨s, hi, hr⟩ := ih
    exact ⟨s, hi, .step hr hok hs⟩

section rank
variable (rank : σ → ℕ) (pays works : ε → Prop)

theorem filter_concat_length (p : ε → Prop) [DecidablePred p] (l : List ε) (e : ε) :
    ((l ++ [e]).filter p).length = (l.filter p).length + if p e then 1 else 0 := by
  rw [List.filter_append, List.length_append, List.filter_singleton]
  by_cases he : p e
  · rw [decide_eq_true he, if_pos he]
    rfl
  · rw [decide_eq_false he, if_neg he]
    rfl

/-- What the work of a whole run costs at most. -/
theorem work_le [DecidablePred pays] [DecidablePred works] (start price : ℕ)
    (hinit : ∀ s, S.init s → rank s ≤ start)
    (hpays : ∀ s e t, S.step s e t → pays e → ¬ works e ∧ rank t ≤ rank s + price)
    (hworks : ∀ s e t, S.step s e t → works e → rank t < rank s)
    (hwaits : ∀ s e t, S.step s e t → ¬ pays e → ¬ works e → rank t ≤ rank s)
    (hr : S.Run ok tr s) :
    (tr.filter works).length + rank s ≤ start + price * (tr.filter pays).length := by
  induction hr with
  | start hi =>
    rw [List.filter_nil, List.length_nil, Nat.zero_add]
    exact (hinit _ hi).trans (Nat.le_add_right _ _)
  | @step tr s t e _ _ hs ih =>
    rw [filter_concat_length, filter_concat_length, Nat.mul_add]
    by_cases hp : pays e
    · obtain ⟨hw, hle⟩ := hpays _ _ _ hs hp
      rw [if_neg hw, if_pos hp]
      omega
    · by_cases hw : works e
      · have hlt := hworks _ _ _ hs hw
        rw [if_pos hw, if_neg hp]
        omega
      · have hle := hwaits _ _ _ hs hp hw
        rw [if_neg hw, if_neg hp]
        omega

/-- A system with work to do whenever it is busy can be done with, in as many steps as the rank
allows. -/
theorem exists_done (busy : σ → Prop)
    (hworks : ∀ s e t, S.step s e t → works e → rank t < rank s)
    (hbusy : ∀ tr s, S.Run ok tr s → busy s → ∃ e t, works e ∧ ok tr e ∧ S.step s e t)
    (hr : S.Run ok tr s) : ∃ rest t, (S.resumed s).Run (after ok tr) rest t ∧
      (∀ e ∈ rest, works e) ∧ rest.length ≤ rank s ∧ ¬ busy t := by
  have hdone : ∀ n rest t, (S.resumed s).Run (after ok tr) rest t → (∀ e ∈ rest, works e) →
      rest.length + rank t ≤ rank s → rank t ≤ n →
      ∃ rest t, (S.resumed s).Run (after ok tr) rest t ∧ (∀ e ∈ rest, works e) ∧
        rest.length ≤ rank s ∧ ¬ busy t := by
    intro n
    induction n with
    | zero =>
      intro rest t hrest hall hlen hrank
      refine ⟨rest, t, hrest, hall, by omega, ?_⟩
      intro hb
      obtain ⟨e, u, he, _, hs⟩ := hbusy _ t (run_resumed hr hrest) hb
      have := hworks _ _ _ hs he
      omega
    | succ n ih =>
      intro rest t hrest hall hlen hrank
      by_cases hb : busy t
      · obtain ⟨e, u, he, hok, hs⟩ := hbusy _ t (run_resumed hr hrest) hb
        have hlt := hworks _ _ _ hs he
        apply ih (rest ++ [e]) u (.step hrest hok hs)
        · intro x hx
          rcases List.mem_append.mp hx with hx | hx
          · exact hall x hx
          · rwa [List.mem_singleton.mp hx]
        · rw [List.length_append, List.length_singleton]
          omega
        · omega
      · exact ⟨rest, t, hrest, hall, by omega, hb⟩
  exact hdone (rank s) [] s (.start rfl) (by simp) (by simp) le_rfl

end rank
end System

section weights
variable {τ : Type*} [Fintype τ] {f g : τ → ℕ} {t : τ} {d : ℕ}

theorem sum_le_card_mul (hf : ∀ u, f u ≤ d) : ∑ u, f u ≤ Fintype.card τ * d := by
  calc ∑ u, f u
      ≤ ∑ _u : τ, d := Finset.sum_le_sum fun u _ => hf u
    _ = Fintype.card τ * d := Finset.sum_const_nat fun _ _ => rfl

variable [DecidableEq τ]

/-- One member gives up more than all of the others can gain. -/
theorem sum_lt_of_drop (hothers : ∀ u, u ≠ t → g u ≤ f u + d)
    (ht : g t + Fintype.card τ * d < f t) : ∑ u, g u < ∑ u, f u := by
  have hsum : ∑ u ∈ Finset.univ.erase t, g u ≤
      ∑ u ∈ Finset.univ.erase t, f u + Fintype.card τ * d := by
    calc ∑ u ∈ Finset.univ.erase t, g u
        ≤ ∑ u ∈ Finset.univ.erase t, (f u + d) :=
          Finset.sum_le_sum fun u hu => hothers u (Finset.ne_of_mem_erase hu)
      _ = ∑ u ∈ Finset.univ.erase t, f u + (Finset.univ.erase t).card * d := by
          rw [Finset.sum_add_distrib, Finset.sum_const_nat fun _ _ => rfl]
      _ ≤ ∑ u ∈ Finset.univ.erase t, f u + Fintype.card τ * d :=
          Nat.add_le_add_left (Nat.mul_le_mul_right d (Finset.card_le_univ _)) _
  rw [← Finset.sum_erase_add _ g (Finset.mem_univ t),
    ← Finset.sum_erase_add _ f (Finset.mem_univ t)]
  omega

theorem sum_step (hothers : ∀ u, u ≠ t → g u = f u) : ∑ u, g u + f t = ∑ u, f u + g t := by
  have hsum : ∑ u ∈ Finset.univ.erase t, g u = ∑ u ∈ Finset.univ.erase t, f u :=
    Finset.sum_congr rfl fun u hu => hothers u (Finset.ne_of_mem_erase hu)
  rw [← Finset.sum_erase_add _ g (Finset.mem_univ t),
    ← Finset.sum_erase_add _ f (Finset.mem_univ t), hsum]
  omega

theorem sum_le_of_zero (hg : ∀ u, g u ≤ d) (ht : g t = 0) :
    ∑ u, g u ≤ (Fintype.card τ - 1) * d := by
  calc ∑ u, g u
      = ∑ u ∈ Finset.univ.erase t, g u := (Finset.sum_erase _ ht).symm
    _ ≤ ∑ _u ∈ Finset.univ.erase t, d := Finset.sum_le_sum fun u _ => hg u
    _ = (Fintype.card τ - 1) * d := by
        rw [Finset.sum_const_nat fun _ _ => rfl, Finset.card_erase_of_mem (Finset.mem_univ t)]
        rfl

end weights
end ModCpp
