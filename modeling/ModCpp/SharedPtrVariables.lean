import ModCpp.WeakPtrLinks

/-!
# What a program says of its variables

Which variables live, what each `shared_pointer` holds and which of them each `weak_pointer`
looks at can be read off the steps of a program, with no state. The state agrees with this as
long as no `weak_pointer` is copied from another.
-/

namespace ModCpp.SharedPtr
variable {σ ω ι κ : Type*} {s : State σ ω ι κ} {t u : σ} {w : ω} {p : Option ι × Option κ}
  {e : Event σ ω ι κ}

structure Variables (σ ω ι κ : Type*) where
  living : Finset σ
  held : σ → Option ι × Option κ
  livingWeak : Finset ω
  target : ω → Option σ

namespace Variables
variable [DecidableEq σ] [DecidableEq ω] (m : Variables σ ω ι κ)

def make (t : σ) (p : Option ι × Option κ) : Variables σ ω ι κ :=
  { m with living := insert t m.living, held := Function.update m.held t p }

def give (t : σ) (p : Option ι × Option κ) : Variables σ ω ι κ :=
  { m with held := Function.update m.held t p }

/-- A destroyed variable holds nothing, and no `weak_pointer` looks at it any more. -/
def destroy (t : σ) : Variables σ ω ι κ where
  living := m.living.erase t
  held := Function.update m.held t (none, none)
  livingWeak := m.livingWeak
  target w := if m.target w = some t then none else m.target w

def aim (w : ω) (target : Option σ) : Variables σ ω ι κ :=
  { m with
    livingWeak := insert w m.livingWeak
    target := Function.update m.target w target }

def forget (w : ω) : Variables σ ω ι κ := { m with livingWeak := m.livingWeak.erase w }

def record : Event σ ω ι κ → Variables σ ω ι κ
  | .default t => m.make t (none, none)
  | .fromRaw t data block => m.make t (data, some block)
  | .copy t u => m.make t (m.held u)
  | .copyAssign t u => m.give t (m.held u)
  | .move t u => (m.make t (m.held u)).give u (none, none)
  | .moveAssign t u => (m.give t (m.held u)).give u (none, none)
  | .destroy t => m.destroy t
  | .weakDefault w => m.aim w none
  | .weakFrom w t | .weakAssign w t => m.aim w (some t)
  | .weakCopy w w' | .weakCopyAssign w w' => m.aim w (m.target w')
  | .weakDestroy w => m.forget w
  | .lock w t => m.make t ((m.target w).elim (none, none) m.held)

end Variables

def recorded [DecidableEq σ] [DecidableEq ω] (tr : List (Event σ ω ι κ)) : Variables σ ω ι κ :=
  history (fun m e => m.record e) ⟨∅, fun _ => (none, none), ∅, fun _ => none⟩ tr

/-- A `weak_pointer` that was destroyed may keep any address. -/
structure Shows (v : View σ ω ι κ) (m : Variables σ ω ι κ) : Prop where
  living : v.living = m.living
  held : v.held = m.held
  livingWeak : v.livingWeak = m.livingWeak
  target : ∀ w ∈ v.livingWeak, v.target w = m.target w

namespace Shows
variable [DecidableEq σ] {v : View σ ω ι κ} {m : Variables σ ω ι κ}

theorem create (hs : Shows v m) : Shows (v.create t p) (m.make t p) where
  living := congrArg (insert t) hs.living
  held := by simp only [View.create, Variables.make, hs.held]
  livingWeak := hs.livingWeak
  target := hs.target

theorem hold (hs : Shows v m) : Shows (v.hold t p) (m.give t p) where
  living := hs.living
  held := by simp only [View.hold, Variables.give, hs.held]
  livingWeak := hs.livingWeak
  target := hs.target

variable [DecidableEq ω]

/-- Registered with `t` are exactly those that look at it. -/
theorem destroy (hs : Shows v m) (hl : Linked v) (ht : t ∈ v.living) :
    Shows (v.destroy t) (m.destroy t) where
  living := congrArg (Finset.erase · t) hs.living
  held := by simp only [View.destroy, Variables.destroy, hs.held]
  livingWeak := hs.livingWeak
  target := by
    intro w hw
    have hiff : v.target w = some t ↔ w ∈ v.subscribers t := by
      rw [hl.target w hw t]
      exact and_iff_right ht
    simp only [View.destroy, Variables.destroy]
    rw [← hs.target w hw]
    exact if_congr hiff.symm rfl rfl

omit [DecidableEq σ] in
theorem aim {target : Option σ} (hs : Shows v m) : Shows (v.aim w target) (m.aim w target) where
  living := hs.living
  held := hs.held
  livingWeak := congrArg (insert w) hs.livingWeak
  target := by
    intro w' hw'
    by_cases hne : w' = w
    · subst hne
      simp [View.aim, Variables.aim]
    · simp only [View.aim, Variables.aim, Function.update_of_ne hne]
      exact hs.target w' (Finset.mem_of_mem_insert_of_ne hw' hne)

theorem subscribe (hs : Shows v m) : Shows (v.subscribe t w) m :=
  ⟨hs.living, hs.held, hs.livingWeak, hs.target⟩

theorem cancel (hs : Shows v m) : Shows (v.cancel w) m := by
  rw [View.cancel]
  split
  · exact hs
  · exact ⟨hs.living, hs.held, hs.livingWeak, hs.target⟩

omit [DecidableEq σ] in
theorem forget (hs : Shows v m) : Shows (v.forget w) (m.forget w) where
  living := hs.living
  held := hs.held
  livingWeak := congrArg (Finset.erase · w) hs.livingWeak
  target w' hw' := hs.target w' (Finset.mem_of_mem_erase hw')

theorem after (hs : Shows s.view m) (hl : Linked s.view) (ha : Declared s e) (hr : e.Registers) :
    Shows (s.view.after e) (m.record e) := by
  have hheld : ∀ u, s.view.held u = m.held u := fun u => congrFun hs.held u
  cases e with
  | default t => exact hs.create
  | fromRaw t data block => exact hs.create
  | copy t u =>
    rw [View.after, hheld]
    exact hs.create
  | copyAssign t u =>
    rw [View.after, hheld]
    exact hs.hold
  | move t u =>
    rw [View.after, hheld]
    exact hs.create.hold
  | moveAssign t u =>
    rw [View.after, hheld]
    exact hs.hold.hold
  | destroy t => exact hs.destroy hl ha
  | weakDefault w => exact hs.aim
  | weakFrom w t => exact hs.aim.subscribe
  | weakCopy w w' => exact hr.elim
  | weakAssign w t => exact hs.cancel.aim.subscribe
  | weakCopyAssign w w' => exact hr.elim
  | weakDestroy w => exact hs.cancel.forget
  | lock w t =>
    rw [View.after, hs.held, hs.target w ha.1]
    exact hs.create

end Shows

theorem run_shows [DecidableEq σ] [DecidableEq ω] [DecidableEq ι] [DecidableEq κ]
    {tr : List (Event σ ω ι κ)}
    (hr : (system fun s e => Declared s e ∧ e.Registers).Run System.always tr s) :
    Shows s.view (recorded tr) := by
  refine System.run_invariant (P := fun tr s => Shows s.view (recorded tr)) ?_ ?_ hr
  · intro s hs
    obtain ⟨ptr, sharedPtr, rfl⟩ := hs
    exact ⟨rfl, by simp [State.view, recorded], rfl, by simp [State.view]⟩
  · intro tr s e s' hr hs _ hstep
    obtain ⟨⟨ha, hreg⟩, hok⟩ := hstep
    rw [view_next ha hok, recorded, history_concat]
    exact hs.after (run_linked hr) ha hreg

end ModCpp.SharedPtr
