import Mathlib.Control.Monad.Writer
import ModCpp.MachineWord

/-!
# Computations with a log

A computation that may leave abnormally or still be running, with a list of what it did if it
returns.
-/

namespace ModCpp

abbrev Traced (ε : Type) := WriterT (List ε) Loop

namespace Traced
variable {ε α β : Type} {x : Traced ε α} {f : α → Traced ε β} {a : α} {b : β} {c : Loop α}
  {log log' : List ε}

def value (x : Traced ε α) : Loop α := Prod.fst <$> x.run

def record (log : List ε) (c : Loop α) : Traced ε α := WriterT.mk ((fun a => (a, log)) <$> c)

theorem value_pure : (pure a : Traced ε α).value = pure a := rfl

theorem value_record : (record log c).value = c := by
  rw [value, record, WriterT.run_mk, Functor.map_map]
  exact id_map c

theorem value_bind : (x >>= f).value = x.value >>= fun a => (f a).value := by
  rw [value, value, WriterT.run_bind, map_bind, bind_map_left]
  refine bind_congr fun p => ?_
  rw [Functor.map_map]
  rfl

theorem value_of_run (h : x.run = pure (a, log)) : x.value = pure a := by
  rw [value, h, map_pure]

theorem run_of_value (h : x.value = pure a) : ∃ log, x.run = pure (a, log) := by
  rw [value, ← bind_pure_comp] at h
  obtain ⟨p, hrun, hp⟩ := loop_bind_pure h
  cases hp
  exact ⟨p.2, hrun⟩

theorem bind_run (h : (x >>= f).run = pure (b, log)) : ∃ a log₁ log₂,
    x.run = pure (a, log₁) ∧ (f a).run = pure (b, log₂) ∧ log = log₁ ++ log₂ := by
  rw [WriterT.run_bind] at h
  obtain ⟨⟨a, log₁⟩, hx, hrest⟩ := loop_bind_pure h
  simp only [← bind_pure_comp] at hrest
  obtain ⟨q, hf, hq⟩ := loop_bind_pure hrest
  cases hq
  exact ⟨a, log₁, q.2, hx, hf, rfl⟩

/-- `P` holds of the value that the computation returns and of the log that it leaves. -/
def Logs (x : Traced ε α) (P : α → List ε → Prop) : Prop :=
  ∀ a log, x.run = pure (a, log) → P a log

section logs
variable {P : α → List ε → Prop} {Q : β → List ε → Prop}

theorem Logs.pure (h : P a []) : Logs (Pure.pure a) P := by
  intro a' log hrun
  cases hrun
  exact h

theorem Logs.record (h : ∀ a, c = Pure.pure a → P a log) : (record log c).Logs P := by
  intro a log' hrun
  rw [Traced.record, WriterT.run_mk, ← bind_pure_comp] at hrun
  obtain ⟨a', hc, hpair⟩ := loop_bind_pure hrun
  cases hpair
  exact h a hc

theorem Logs.bind (hx : x.Logs P)
    (hf : ∀ a log, x.value = Pure.pure a → P a log → (f a).Logs fun b log' => Q b (log ++ log')) :
    (x >>= f).Logs Q := by
  intro b log hrun
  obtain ⟨a, log₁, log₂, hxrun, hfrun, rfl⟩ := bind_run hrun
  exact hf a log₁ (value_of_run hxrun) (hx a log₁ hxrun) b log₂ hfrun

theorem Logs.and {P' : α → List ε → Prop} (hx : x.Logs P) (hx' : x.Logs P') :
    x.Logs fun a log => P a log ∧ P' a log :=
  fun a log hrun => ⟨hx a log hrun, hx' a log hrun⟩

theorem Logs.returns (hx : x.Logs P) (h : x.value = Pure.pure a) :
    ∃ log, x.run = Pure.pure (a, log) ∧ P a log := by
  obtain ⟨log, hrun⟩ := run_of_value h
  exact ⟨log, hrun, hx a log hrun⟩

end logs
end Traced
end ModCpp
