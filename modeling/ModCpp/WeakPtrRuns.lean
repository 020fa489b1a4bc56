import ModCpp.WeakPtrLinks

/-!
# What `lock()` gives

A `weak_pointer` follows the variable it was taken from and not the object. It answers for
the object as long as nobody moves from that variable, makes it own something else, or ends
its life before the object's.
-/

namespace ModCpp.SharedPtr
variable {σ ω ι κ : Type*} {s s' : State σ ω ι κ} {f : ω → Option ι} {t u : σ} {w : ω} {b : κ}
  {x : ι} {v v' : View σ ω ι κ} {p : Option ι × Option κ} {e : Event σ ω ι κ}

/-- `operator bool` -/
def SharedPointer.toBool (p : SharedPointer ω ι κ) : Bool := p.data.isSome && p.metadata.isSome

/-- Assigning from `u` keeps `x` with `t`, or leaves `t` without an object when nobody else
owns `x`. -/
def Suits (s : State σ ω ι κ) (t : σ) (x : ι) (u : σ) : Prop :=
  (s.ptr u).data = some x ∨ ((s.ptr u).data = none ∧ (s.ptr u).metadata ≠ none ∧
    ∀ v ∈ s.living, v ≠ t → (s.ptr v).data ≠ some x)

/-- What a step may do to a variable `t` that a `weak_pointer` taken for `x` looks at. -/
def Spares (s : State σ ω ι κ) (t : σ) (x : ι) : Event σ ω ι κ → Prop
  | .copyAssign v u => v = t → Suits s t x u
  | .move _ u => u ≠ t
  | .moveAssign v u => u ≠ t ∧ (v = t → Suits s t x u)
  | .destroy v => v = t → ∀ u ∈ s.living, u ≠ t → (s.ptr u).data ≠ some x
  | _ => True

def Spared (s : State σ ω ι κ) (f : ω → Option ι) (e : Event σ ω ι κ) : Prop :=
  ∀ w ∈ s.livingWeak, ∀ t ∈ s.sharedPtr w, ∀ x ∈ f w, Spares s t x e

instance [DecidableEq σ] [DecidableEq ι] [DecidableEq κ] (s : State σ ω ι κ) (t : σ) (x : ι)
    (u : σ) : Decidable (Suits s t x u) := inferInstanceAs (Decidable (_ ∨ _))

instance [DecidableEq σ] [DecidableEq ι] [DecidableEq κ] (s : State σ ω ι κ) (t : σ) (x : ι) :
    ∀ e, Decidable (Spares s t x e)
  | .copyAssign v u => inferInstanceAs (Decidable (v = t → Suits s t x u))
  | .move _ u => inferInstanceAs (Decidable (u ≠ t))
  | .moveAssign v u => inferInstanceAs (Decidable (u ≠ t ∧ (v = t → Suits s t x u)))
  | .destroy v => inferInstanceAs
      (Decidable (v = t → ∀ u ∈ s.living, u ≠ t → (s.ptr u).data ≠ some x))
  | .default _ | .fromRaw .. | .copy .. | .weakDefault _ | .weakFrom .. | .weakCopy ..
  | .weakAssign .. | .weakCopyAssign .. | .weakDestroy _ | .lock .. => .isTrue trivial

instance [DecidableEq σ] [DecidableEq ι] [DecidableEq κ] (s : State σ ω ι κ) (f : ω → Option ι)
    (e : Event σ ω ι κ) : Decidable (Spared s f e) :=
  inferInstanceAs (Decidable (∀ w ∈ s.livingWeak, ∀ t ∈ s.sharedPtr w, ∀ x ∈ f w, Spares s t x e))

def Unowned (v : View σ ω ι κ) (x : ι) : Prop := ∀ t, (v.held t).1 ≠ some x

/-- What a `weak_pointer` taken for `x` may look at. -/
def Sees (v : View σ ω ι κ) (x : ι) : Option σ → Prop
  | none => Unowned v x
  | some t => (v.held t).1 = some x ∨
      ((v.held t).1 = none ∧ (v.held t).2 ≠ none ∧ Unowned v x)

theorem Sees.of_held {target : Option σ} (hs : Sees v x target)
    (hheld : ∀ t, target = some t → v'.held t = v.held t)
    (hu : Unowned v x → Unowned v' x) : Sees v' x target := by
  cases target with
  | none => exact hu hs
  | some t =>
    rw [Sees, hheld t rfl]
    rcases hs with hx | ⟨hd, hm, hun⟩
    · exact .inl hx
    · exact .inr ⟨hd, hm, hu hun⟩

def Event.Retargets (w : ω) : Event σ ω ι κ → Prop
  | .weakDefault w' | .weakFrom w' _ | .weakCopy w' _ | .weakAssign w' _ | .weakCopyAssign w' _ =>
    w' = w
  | _ => False

/-- The object that the `shared_pointer` owned from which a `weak_pointer` was last taken. -/
def taken [DecidableEq ω] (s : State σ ω ι κ) (f : ω → Option ι) : Event σ ω ι κ → ω → Option ι
  | .weakDefault w => Function.update f w none
  | .weakFrom w t | .weakAssign w t => Function.update f w (s.ptr t).data
  | _ => f

theorem taken_of_kept [DecidableEq ω] (h : ¬ e.Retargets w) : taken s f e w = f w := by
  cases e with
  | weakDefault w' => exact Function.update_of_ne (Ne.symm h) ..
  | weakFrom w' t => exact Function.update_of_ne (Ne.symm h) ..
  | weakAssign w' t => exact Function.update_of_ne (Ne.symm h) ..
  | _ => rfl

section views
variable [DecidableEq σ]

theorem unowned_of_rest (hrest : ∀ u ∈ s.living, u ≠ t → (s.ptr u).data ≠ some x)
    (ht : (v.held t).1 ≠ some x) (hheld : ∀ u, u ≠ t → v.held u = s.view.held u) :
    Unowned v x := by
  intro u
  by_cases hut : u = t
  · exact hut ▸ ht
  · rw [hheld u hut]
    by_cases hu : u ∈ s.living
    · rw [held_of_mem hu]
      exact hrest u hu hut
    · rw [State.view]
      simp [hu]

theorem Unowned.hold (hu : Unowned v x) (hp : p.1 ≠ some x) : Unowned (v.hold t p) x := by
  intro u
  by_cases hut : u = t
  · subst hut
    simpa [View.hold] using hp
  · rw [View.hold_held hut]
    exact hu u

theorem Unowned.create (hu : Unowned v x) (hp : p.1 ≠ some x) : Unowned (v.create t p) x := by
  intro u
  by_cases hut : u = t
  · subst hut
    simpa [View.create] using hp
  · rw [View.create_held hut]
    exact hu u

theorem Owned.unowned [DecidableEq ι] (ho : Owned s.living s) (hx : x ∈ s.deletedData) :
    Unowned s.view x := by
  intro t
  by_cases ht : t ∈ s.living
  · rw [held_of_mem ht]
    intro hd
    have hpair := pair_mem_pairs (s := s) ht
    rw [show (s.ptr t).data = some x from hd] at hpair
    exact ho.gone x hx (ho.mem_objects hpair)
  · simp [State.view, ht]

theorem Suits.sees (hsuit : Suits s t x u) (hu : u ∈ s.living) :
    Sees (s.view.hold t (s.view.held u)) x (some t) := by
  have hself : (s.view.hold t (s.view.held u)).held t = ((s.ptr u).data, (s.ptr u).metadata) :=
    (Function.update_self ..).trans (held_of_mem hu)
  rw [Sees, hself]
  rcases hsuit with hx | ⟨hd, hm, hrest⟩
  · exact .inl hx
  · refine .inr ⟨hd, hm, unowned_of_rest hrest ?_ fun _ => View.hold_held⟩
    rw [hself, hd]
    simp

variable [DecidableEq ω]

theorem View.cancel_held : (v.cancel w).held = v.held := by
  rw [View.cancel]
  split <;> rfl

theorem View.cancel_target : (v.cancel w).target = v.target := by
  rw [View.cancel]
  split <;> rfl

theorem View.cancel_livingWeak : (v.cancel w).livingWeak = v.livingWeak := by
  rw [View.cancel]
  split <;> rfl

theorem View.livingWeak_kept (hkeep : ¬ e.Retargets w) (hw : w ∈ (v.after e).livingWeak) :
    w ∈ v.livingWeak := by
  cases e with
  | weakDefault w' => exact Finset.mem_of_mem_insert_of_ne hw (Ne.symm hkeep)
  | weakFrom w' t => exact Finset.mem_of_mem_insert_of_ne hw (Ne.symm hkeep)
  | weakCopy w' w₀ => exact Finset.mem_of_mem_insert_of_ne hw (Ne.symm hkeep)
  | weakAssign w' t =>
    rw [← View.cancel_livingWeak (w := w')]
    exact Finset.mem_of_mem_insert_of_ne hw (Ne.symm hkeep)
  | weakCopyAssign w' w₀ => exact Finset.mem_of_mem_insert_of_ne hw (Ne.symm hkeep)
  | weakDestroy w' =>
    rw [← View.cancel_livingWeak (w := w')]
    exact Finset.mem_of_mem_erase hw
  | _ => exact hw

theorem View.target_kept (hkeep : ¬ e.Retargets w)
    (hreg : ∀ t, e = .destroy t → w ∉ v.subscribers t) : (v.after e).target w = v.target w := by
  cases e with
  | default t => rfl
  | fromRaw t data block => rfl
  | copy t u => rfl
  | copyAssign t u => rfl
  | move t u => rfl
  | moveAssign t u => rfl
  | destroy t => exact if_neg (hreg t rfl)
  | weakDefault w' => exact Function.update_of_ne (Ne.symm hkeep) ..
  | weakFrom w' t => exact Function.update_of_ne (Ne.symm hkeep) ..
  | weakCopy w' w₀ => exact Function.update_of_ne (Ne.symm hkeep) ..
  | weakAssign w' t =>
    exact (Function.update_of_ne (Ne.symm hkeep) ..).trans (congrFun View.cancel_target w)
  | weakCopyAssign w' w₀ => exact Function.update_of_ne (Ne.symm hkeep) ..
  | weakDestroy w' => exact congrFun View.cancel_target w
  | lock w' t => rfl

theorem taken_of_retargets (hr : e.Registers) (hw : e.Retargets w) (ha : Admitted s e)
    (hx : taken s f e w = some x) : ∃ t ∈ s.living, (s.ptr t).data = some x ∧
      (s.view.after e).target w = some t ∧ (s.view.after e).held t = s.view.held t := by
  cases e with
  | weakDefault w' =>
    obtain rfl : w' = w := hw
    simp [taken] at hx
  | weakFrom w' t =>
    obtain rfl : w' = w := hw
    refine ⟨t, ha.2, ?_, Function.update_self .., rfl⟩
    rwa [taken, Function.update_self] at hx
  | weakAssign w' t =>
    obtain rfl : w' = w := hw
    refine ⟨t, ha.2, ?_, Function.update_self .., congrFun View.cancel_held t⟩
    rwa [taken, Function.update_self] at hx
  | weakCopy w' w₀ => exact hr.elim
  | weakCopyAssign w' w₀ => exact hr.elim
  | _ => exact hw.elim

theorem Unowned.cancel (hu : Unowned v x) : Unowned (v.cancel w) x := by
  rw [Unowned, View.cancel_held]
  exact hu

theorem Unowned.after (hu : Unowned s.view x) (ha : Admitted s e) (hm : Made s x) :
    Unowned (s.view.after e) x := by
  cases e with
  | default t => exact hu.create (by simp)
  | fromRaw t data block =>
    refine hu.create ?_
    intro hx
    obtain ⟨hobj, hdel⟩ := ha.2.2 x hx
    exact hm.elim hobj hdel
  | copy t u => exact hu.create (hu u)
  | copyAssign t u => exact hu.hold (hu u)
  | move t u => exact (hu.create (hu u)).hold (by simp)
  | moveAssign t u => exact (hu.hold (hu u)).hold (by simp)
  | destroy t => exact hu.hold (t := t) (p := (none, none)) (by simp)
  | weakDefault w => exact hu
  | weakFrom w t => exact hu
  | weakCopy w w' => exact hu
  | weakAssign w t => exact hu.cancel
  | weakCopyAssign w w' => exact hu
  | weakDestroy w => exact hu.cancel
  | lock w t =>
    refine hu.create ?_
    cases s.view.target w with
    | none => simp
    | some u => exact hu u

theorem Sees.after (hs : Sees s.view x (s.view.target w)) (hl : Linked s.view) (ha : Admitted s e)
    (hm : Made s x) (hw : w ∈ s.livingWeak)
    (hsp : ∀ t, s.view.target w = some t → Spares s t x e) (hkeep : ¬ e.Retargets w) :
    Sees (s.view.after e) x ((s.view.after e).target w) := by
  have hu : Unowned s.view x → Unowned (s.view.after e) x := fun hu => hu.after ha hm
  have hnew : ∀ t₀ ∉ s.living, ∀ t, s.view.target w = some t → t ≠ t₀ := by
    intro t₀ ht₀ t ht he
    exact ht₀ (he ▸ ((hl.target w hw t).mp ht).1)
  cases e with
  | default t₀ => exact hs.of_held (fun t ht => View.create_held (hnew t₀ ha t ht)) hu
  | fromRaw t₀ data block => exact hs.of_held (fun t ht => View.create_held (hnew t₀ ha.1 t ht)) hu
  | copy t₀ u => exact hs.of_held (fun t ht => View.create_held (hnew t₀ ha.1 t ht)) hu
  | copyAssign t₀ u =>
    have hsame : (s.view.after (.copyAssign t₀ u)).target w = s.view.target w := rfl
    rw [hsame]
    by_cases htarget : s.view.target w = some t₀
    · rw [htarget]
      exact Suits.sees (hsp t₀ htarget rfl) ha.2
    · exact hs.of_held (fun t ht => View.hold_held fun he => htarget (he ▸ ht)) hu
  | move t₀ u =>
    refine hs.of_held (fun t ht => ?_) hu
    rw [View.after, View.hold_held (Ne.symm (hsp t ht)), View.create_held (hnew t₀ ha.1 t ht)]
  | moveAssign t₀ u =>
    have hsame : (s.view.after (.moveAssign t₀ u)).target w = s.view.target w := rfl
    rw [hsame]
    by_cases htarget : s.view.target w = some t₀
    · obtain ⟨hut, hsuit⟩ := hsp t₀ htarget
      rw [htarget]
      refine Sees.of_held (Suits.sees (hsuit rfl) ha.2) ?_ fun hun => hun.hold (by simp)
      intro t ht
      cases ht
      exact View.hold_held hut.symm
    · refine hs.of_held (fun t ht => ?_) hu
      have htt₀ : t ≠ t₀ := fun he => htarget (he ▸ ht)
      rw [View.after, View.hold_held (Ne.symm (hsp t ht).1), View.hold_held htt₀]
  | destroy t₀ =>
    by_cases hmem : w ∈ s.view.subscribers t₀
    · have htarget := (hl.target w hw t₀).mpr ⟨ha, hmem⟩
      have hnone : (s.view.after (.destroy t₀)).target w = none := if_pos hmem
      rw [hnone]
      refine unowned_of_rest (hsp t₀ htarget rfl) ?_ ?_
      · simp [View.after, View.destroy]
      · exact fun u hut => Function.update_of_ne hut ..
    · have hsame : (s.view.after (.destroy t₀)).target w = s.view.target w := if_neg hmem
      rw [hsame]
      refine hs.of_held (fun t ht => Function.update_of_ne (fun he => hmem ?_) ..) hu
      exact he ▸ ((hl.target w hw t).mp ht).2
  | weakDefault w' =>
    rw [View.target_kept hkeep (by simp)]
    exact hs.of_held (fun _ _ => rfl) hu
  | weakFrom w' t₀ =>
    rw [View.target_kept hkeep (by simp)]
    exact hs.of_held (fun _ _ => rfl) hu
  | weakCopy w' w₀ =>
    rw [View.target_kept hkeep (by simp)]
    exact hs.of_held (fun _ _ => rfl) hu
  | weakAssign w' t₀ =>
    rw [View.target_kept hkeep (by simp)]
    exact hs.of_held (fun t _ => congrFun View.cancel_held t) hu
  | weakCopyAssign w' w₀ =>
    rw [View.target_kept hkeep (by simp)]
    exact hs.of_held (fun _ _ => rfl) hu
  | weakDestroy w' =>
    rw [View.target_kept hkeep (by simp)]
    exact hs.of_held (fun t _ => congrFun View.cancel_held t) hu
  | lock w' t₀ => exact hs.of_held (fun t ht => View.create_held (hnew t₀ ha.2 t ht)) hu

theorem Sees.spares (hs : Sees (s.view.after e) x ((s.view.after e).target w))
    (hl : Linked s.view) (ha : Admitted s e) (hw : w ∈ s.livingWeak)
    (ht : s.view.target w = some t) : Spares s t x e := by
  have hrest : ∀ {v : View σ ω ι κ} {u : σ}, Unowned v x → u ∈ s.living →
      v.held u = s.view.held u → (s.ptr u).data ≠ some x := by
    intro v u hun hu hheld
    have hne := hun u
    rwa [hheld, held_of_mem hu] at hne
  cases e with
  | copyAssign v u =>
    intro hv
    subst hv
    have hself : (s.view.after (.copyAssign v u)).held v =
        ((s.ptr u).data, (s.ptr u).metadata) := (Function.update_self ..).trans (held_of_mem ha.2)
    have hsame : (s.view.after (.copyAssign v u)).target w = s.view.target w := rfl
    rw [hsame, ht, Sees, hself] at hs
    rcases hs with hx | ⟨hd, hm, hun⟩
    · exact .inl hx
    · exact .inr ⟨hd, hm, fun y hy hyv => hrest hun hy (View.hold_held hyv)⟩
  | move v u =>
    intro hut
    subst hut
    have hself : (s.view.after (.move v u)).held u = (none, none) := Function.update_self ..
    have hsame : (s.view.after (.move v u)).target w = s.view.target w := rfl
    rw [hsame, ht, Sees, hself] at hs
    simp at hs
  | moveAssign v u =>
    have hsame : (s.view.after (.moveAssign v u)).target w = s.view.target w := rfl
    rw [hsame, ht, Sees] at hs
    have hut : u ≠ t := by
      intro he
      subst he
      have hself : (s.view.after (.moveAssign v u)).held u = (none, none) :=
        Function.update_self ..
      rw [hself] at hs
      simp at hs
    refine ⟨hut, fun hv => ?_⟩
    subst hv
    have hself : (s.view.after (.moveAssign v u)).held v =
        ((s.ptr u).data, (s.ptr u).metadata) :=
      (View.hold_held hut.symm).trans ((Function.update_self ..).trans (held_of_mem ha.2))
    rw [hself] at hs
    rcases hs with hx | ⟨hd, hm, hun⟩
    · exact .inl hx
    · refine .inr ⟨hd, hm, fun y hy hyv => ?_⟩
      by_cases hyu : y = u
      · rw [hyu, show (s.ptr u).data = none from hd]
        simp
      · exact hrest hun hy ((View.hold_held hyu).trans (View.hold_held hyv))
  | destroy v =>
    intro hv
    subst hv
    have hmem := ((hl.target w hw v).mp ht).2
    have hnone : (s.view.after (.destroy v)).target w = none := if_pos hmem
    rw [hnone] at hs
    exact fun y hy hyv => hrest hs hy (Function.update_of_ne hyv ..)
  | _ => trivial

end views

variable [DecidableEq σ] [DecidableEq ω] [DecidableEq ι] [DecidableEq κ]

def watchSystem (allowed : State σ ω ι κ → (ω → Option ι) → Event σ ω ι κ → Prop) :
    System (State σ ω ι κ × (ω → Option ι)) (Event σ ω ι κ) where
  init p := (system fun s e => allowed s p.2 e).init p.1 ∧ p.2 = fun _ => none
  step p e p' := allowed p.1 p.2 e ∧ next p.1 e = .ok p'.1 ∧ p'.2 = taken p.1 p.2 e

def watchExec (allowed : State σ ω ι κ → (ω → Option ι) → Event σ ω ι κ → Prop)
    [∀ s f e, Decidable (allowed s f e)] (p : State σ ω ι κ × (ω → Option ι))
    (e : Event σ ω ι κ) : Option (State σ ω ι κ × (ω → Option ι)) :=
  if allowed p.1 p.2 e then (next p.1 e).toOption.map fun s => (s, taken p.1 p.2 e) else none

theorem watchExec_step {allowed : State σ ω ι κ → (ω → Option ι) → Event σ ω ι κ → Prop}
    [∀ s f e, Decidable (allowed s f e)] (p : State σ ω ι κ × (ω → Option ι))
    (e : Event σ ω ι κ) (p' : State σ ω ι κ × (ω → Option ι))
    (h : watchExec allowed p e = some p') : (watchSystem allowed).step p e p' := by
  rw [watchExec] at h
  split_ifs at h with ha
  cases hn : next p.1 e with
  | ok s =>
    rw [hn] at h
    cases h
    exact ⟨ha, hn, rfl⟩
  | error f =>
    rw [hn] at h
    cases h

theorem watch_init {allowed : State σ ω ι κ → (ω → Option ι) → Event σ ω ι κ → Prop} :
    (watchSystem allowed).init (⟨∅, fun _ => ⟨∅, none, none⟩, ∅, fun _ => none, fun _ => none, ∅,
      [], []⟩, fun _ => none) := ⟨⟨_, _, rfl⟩, rfl⟩

/-- What `lock()` owes a `weak_pointer` taken from an owner of `x`. -/
structure Follows (s : State σ ω ι κ) (w : ω) (x : ι) : Prop where
  owned : 0 < owners s.living s x → ∀ t ∉ s.living, ∃ s', next s (.lock w t) = .ok s' ∧
    (s'.ptr t).toBool = true ∧ (s'.ptr t).data = some x
  deleted : x ∈ s.deletedData → ∀ t ∉ s.living, ∃ s', next s (.lock w t) = .ok s' ∧
    (s'.ptr t).toBool = false

/-- Every living `weak_pointer` looks at the object it was taken for, if that has an owner. -/
structure Watched (s : State σ ω ι κ) (f : ω → Option ι) : Prop where
  made : ∀ w x, f w = some x → Made s x
  sees : ∀ w ∈ s.livingWeak, ∀ x, f w = some x → Sees s.view x (s.view.target w)

theorem Watched.next (hwatch : Watched s f) (ho : Owned s.living s) (hl : Linked s.view)
    (ha : Admitted s e) (hr : e.Registers) (hsp : Spared s f e) (h : next s e = .ok s') :
    Watched s' (taken s f e) := by
  constructor
  · intro w x hx
    refine Made.next ?_ h
    by_cases hw : e.Retargets w
    · obtain ⟨t, ht, hd, _⟩ := taken_of_retargets hr hw ha hx
      have hpair := pair_mem_pairs (s := s) ht
      rw [hd] at hpair
      exact .inl (ho.mem_objects hpair)
    · rw [taken_of_kept hw] at hx
      exact hwatch.made w x hx
  · intro w hw x hx
    rw [view_next ha.declared h]
    have hw' : w ∈ (s.view.after e).livingWeak := by
      rw [← view_next ha.declared h]
      exact hw
    by_cases hret : e.Retargets w
    · obtain ⟨t, ht, hd, htarget, hheld⟩ := taken_of_retargets hr hret ha hx
      rw [htarget]
      left
      rw [hheld, held_of_mem ht]
      exact hd
    · have hliving := View.livingWeak_kept hret hw'
      rw [taken_of_kept hret] at hx
      refine (hwatch.sees w hliving x hx).after hl ha (hwatch.made w x hx) hliving ?_ hret
      exact fun t ht => hsp w hliving t ht x hx

theorem lock_ok {n : ℤ} (htarget : s.sharedPtr w = some u) (hu : u ∈ s.living)
    (ht : t ∉ s.living) (hb : (s.ptr u).metadata = some b) (hn : s.refcnt b = some n)
    (hpos : 0 < n) (hmax : n < intMax) : ∃ s', next s (.lock w t) = .ok s' ∧
      (s'.ptr t).data = (s.ptr u).data ∧ (s'.ptr t).metadata = some b := by
  have hut : u ≠ t := fun he => ht (he ▸ hu)
  have hb' : ((s.create t).ptr u).metadata = some b := by rw [create_ptr ht u hu, hb]
  let s₁ := (s.create t).setPtr t
    { (s.create t).ptr t with data := ((s.create t).ptr u).data, metadata := some b }
  have hn₁ : s₁.refcnt b = some n := hn
  have hcall : next s (.lock w t) = .ok
      { s₁ with refcnt := Function.update s₁.refcnt b (some (n + 1)) } := by
    have hcopy : s.lock w t = (s.create t).share t u := by
      rw [State.lock, htarget]
      exact if_pos hu
    rw [next, hcopy, share_eq hb', ok_bind (addRefcnt_ok hn₁ (by omega) (by omega))]
    rfl
  refine ⟨_, hcall, ?_, ?_⟩
  · simp [s₁, State.setPtr, create_ptr ht u hu]
  · simp [s₁, State.setPtr]

theorem lock_none (htarget : s.sharedPtr w = none) : ∃ s', next s (.lock w t) = .ok s' ∧
    (s'.ptr t).toBool = false := by
  refine ⟨s.create t, ?_, ?_⟩
  · rw [next, State.lock, htarget]
    rfl
  · simp [State.create, State.setPtr, SharedPointer.toBool]

theorem Watched.follows (hwatch : Watched s f) (ho : Owned s.living s) (hl : Linked s.view)
    (hw : w ∈ s.livingWeak) (hf : f w = some x)
    (hmax : ∀ u b, s.sharedPtr w = some u → (s.ptr u).metadata = some b →
      s.refcnt b ≠ some intMax) : Follows s w x := by
  have hsees := hwatch.sees w hw x hf
  have hlock : ∀ u, s.sharedPtr w = some u → (s.ptr u).metadata ≠ none → ∀ t ∉ s.living,
      ∃ s', SharedPtr.next s (.lock w t) = .ok s' ∧ (s'.ptr t).data = (s.ptr u).data ∧
        (s'.ptr t).metadata ≠ none := by
    intro u htarget hm t ht
    have hu := ((hl.target w hw u).mp htarget).1
    obtain ⟨b, hb⟩ := Option.ne_none_iff_exists'.mp hm
    have hpair := pair_mem_pairs (s := s) hu
    rw [hb] at hpair
    obtain ⟨n, hn, hpos, hle⟩ := ho.block _ b hpair
    have hne : n ≠ intMax := fun he => hmax u b htarget hb (by rw [hn, he])
    obtain ⟨s', hok, hd, hb'⟩ := lock_ok htarget hu ht hb hn hpos (by omega)
    exact ⟨s', hok, hd, by simp [hb']⟩
  constructor
  · intro hown t ht
    obtain ⟨v, hv, hvx⟩ := holderCount_pos.mp hown
    have hheld : ¬ Unowned s.view x := fun hun => hun v (by rw [held_of_mem hv, hvx])
    cases htarget : s.sharedPtr w with
    | none =>
      rw [show s.view.target w = none from htarget] at hsees
      exact absurd hsees hheld
    | some u =>
      have hu := ((hl.target w hw u).mp htarget).1
      rw [show s.view.target w = some u from htarget] at hsees
      rcases hsees with hx | ⟨_, _, hun⟩
      · rw [held_of_mem hu] at hx
        have hpair := pair_mem_pairs (s := s) hu
        rw [show (s.ptr u).data = some x from hx] at hpair
        obtain ⟨b, hb⟩ := ho.metadata hpair
        obtain ⟨s', hok, hd, hm⟩ := hlock u htarget (by simp [hb]) t ht
        rw [show (s.ptr u).data = some x from hx] at hd
        refine ⟨s', hok, ?_, hd⟩
        simp [SharedPointer.toBool, hd, Option.isSome_iff_ne_none, hm]
      · exact absurd hun hheld
  · intro hx t ht
    have hun := ho.unowned hx
    cases htarget : s.sharedPtr w with
    | none => exact lock_none htarget
    | some u =>
      have hu := ((hl.target w hw u).mp htarget).1
      rw [show s.view.target w = some u from htarget] at hsees
      rcases hsees with hux | ⟨hd, hm, _⟩
      · exact absurd hux (hun u)
      · rw [held_of_mem hu] at hd hm
        obtain ⟨s', hok, hd', _⟩ := hlock u htarget hm t ht
        refine ⟨s', hok, ?_⟩
        rw [show (s.ptr u).data = none from hd] at hd'
        simp [SharedPointer.toBool, hd']

theorem Follows.sees (hfollows : Follows s w x) (ho : Owned s.living s) (hl : Linked s.view)
    (hm : Made s x) (hw : w ∈ s.livingWeak) (ht : t ∉ s.living) :
    Sees s.view x (s.view.target w) := by
  have hcases : (∃ s', SharedPtr.next s (.lock w t) = .ok s' ∧ (s'.ptr t).toBool = true ∧
      (s'.ptr t).data = some x) ∨ (Unowned s.view x ∧ ∃ s', SharedPtr.next s (.lock w t) = .ok s' ∧
        (s'.ptr t).toBool = false) := by
    by_cases hx : x ∈ s.objects
    · exact .inl (hfollows.owned ((ho.objects x).mp hx) t ht)
    · have hdel := hm.resolve_left hx
      exact .inr ⟨ho.unowned hdel, hfollows.deleted hdel t ht⟩
  cases htarget : s.sharedPtr w with
  | none =>
    rw [show s.view.target w = none from htarget]
    rcases hcases with ⟨s', hok, hbool, _⟩ | ⟨hun, _⟩
    · rw [next, State.lock, htarget] at hok
      cases hok
      simp [State.create, State.setPtr, SharedPointer.toBool] at hbool
    · exact hun
  | some u =>
    have hu := ((hl.target w hw u).mp htarget).1
    rw [show s.view.target w = some u from htarget, Sees, held_of_mem hu]
    have hheld : ∀ s', SharedPtr.next s (.lock w t) = .ok s' →
        (s'.ptr t).data = (s.ptr u).data ∧ (s'.ptr t).metadata = (s.ptr u).metadata ∧
          (s.ptr u).metadata ≠ none := by
      intro s' hok
      have hcopy : s.lock w t = (s.create t).share t u := by
        rw [State.lock, htarget]
        exact if_pos hu
      rw [next, hcopy] at hok
      obtain ⟨b, n, hb, _, _, rfl⟩ := share_cases hok
      rw [create_ptr ht u hu] at hb ⊢
      exact ⟨by simp, by simp, by simp [hb]⟩
    rcases hcases with ⟨s', hok, _, hd⟩ | ⟨hun, s', hok, hbool⟩
    · left
      rw [← (hheld s' hok).1]
      exact hd
    · obtain ⟨hd, hmeta, hne⟩ := hheld s' hok
      refine .inr ⟨?_, hne, hun⟩
      rw [SharedPointer.toBool, hd, hmeta] at hbool
      simpa [Option.isSome_iff_ne_none, hne] using hbool

theorem run_projects {allowed : State σ ω ι κ → (ω → Option ι) → Event σ ω ι κ → Prop}
    {allowed' : State σ ω ι κ → Event σ ω ι κ → Prop} {tr : List (Event σ ω ι κ)}
    {p : State σ ω ι κ × (ω → Option ι)} (ha : ∀ s f e, allowed s f e → allowed' s e)
    (hr : (watchSystem allowed).Run System.always tr p) :
    (system allowed').Run System.always tr p.1 := by
  induction hr with
  | start hi => exact .start hi.1
  | step _ hok hs ih => exact ih.step hok ⟨ha _ _ _ hs.1, hs.2.1⟩

def Faithful (s : State σ ω ι κ) (f : ω → Option ι) (e : Event σ ω ι κ) : Prop :=
  Admitted s e ∧ e.Registers ∧ Spared s f e

instance (s : State σ ω ι κ) (f : ω → Option ι) (e : Event σ ω ι κ) : Decidable (Faithful s f e) :=
  inferInstanceAs (Decidable (_ ∧ _ ∧ _))

theorem run_watched {tr : List (Event σ ω ι κ)} {p : State σ ω ι κ × (ω → Option ι)}
    (hr : (watchSystem Faithful).Run System.always tr p) :
    Watched p.1 p.2 ∧ Owned p.1.living p.1 ∧ Linked p.1.view := by
  have hboth : ∀ {tr : List (Event σ ω ι κ)} {p : State σ ω ι κ × (ω → Option ι)},
      (watchSystem Faithful).Run System.always tr p → Owned p.1.living p.1 ∧ Linked p.1.view := by
    intro tr p hr
    exact ⟨Owned.run (run_projects (fun _ _ _ h => h.1) hr),
      run_linked (run_projects (fun _ _ _ h => ⟨h.1.declared, h.2.1⟩) hr)⟩
  refine ⟨?_, hboth hr⟩
  refine System.run_invariant (P := fun _ p => Watched p.1 p.2) ?_ ?_ hr
  · intro p hp
    refine ⟨?_, ?_⟩
    · intro w x hx
      rw [hp.2] at hx
      cases hx
    · intro w _ x hx
      rw [hp.2] at hx
      cases hx
  · intro tr p e p' hr hwatch _ hstep
    obtain ⟨⟨ha, hreg, hsp⟩, hok, htaken⟩ := hstep
    obtain ⟨ho, hl⟩ := hboth hr
    rw [htaken]
    exact hwatch.next ho hl ha hreg hsp hok

theorem Watched.fails (hwatch : Watched s f) (ho : Owned s.living s) (hl : Linked s.view)
    (ha : Admitted s e) (hr : e.Registers) (hsp : ¬ Spared s f e)
    (h : SharedPtr.next s e = .ok s') (hfresh : ∃ t, t ∉ s'.living) :
    ∃ w ∈ s'.livingWeak, ∃ x, taken s f e w = some x ∧ ¬ Follows s' w x := by
  simp only [Spared, not_forall] at hsp
  obtain ⟨w, hw, t, ht, x, hx, hns⟩ := hsp
  have hret : ¬ e.Retargets w := by
    intro hret
    cases e with
    | copyAssign v u => exact hret
    | move v u => exact hret
    | moveAssign v u => exact hret
    | destroy v => exact hret
    | _ => exact hns trivial
  have hliving : s'.livingWeak = s.livingWeak := by
    have hview : s'.livingWeak = (s.view.after e).livingWeak :=
      congrArg View.livingWeak (view_next ha.declared h)
    rw [hview]
    cases e with
    | copyAssign v u => rfl
    | move v u => rfl
    | moveAssign v u => rfl
    | destroy v => rfl
    | _ => exact absurd trivial hns
  refine ⟨w, hliving ▸ hw, x, (taken_of_kept hret).trans hx, ?_⟩
  intro hfollows
  obtain ⟨t', ht'⟩ := hfresh
  have hl' : Linked s'.view := by
    rw [view_next ha.declared h]
    exact hl.after ha.declared hr
  have hsees := hfollows.sees (ho.next ha h) hl' ((hwatch.made w x hx).next h) (hliving ▸ hw) ht'
  rw [view_next ha.declared h] at hsees
  exact hns (hsees.spares hl ha hw ht)

/-- In every run that spares the variables looked at, a `weak_pointer` answers for the object it
was taken for. A next step that does not spare them breaks an answer. -/
theorem lock_follows {tr : List (Event σ ω ι κ)} {p : State σ ω ι κ × (ω → Option ι)}
    (hr : (watchSystem Faithful).Run System.always tr p) :
    (∀ w ∈ p.1.livingWeak, ∀ x, p.2 w = some x →
      (∀ u b, p.1.sharedPtr w = some u → (p.1.ptr u).metadata = some b →
        p.1.refcnt b ≠ some intMax) → Follows p.1 w x) ∧
    ∀ e s', Admitted p.1 e → e.Registers → ¬ Spared p.1 p.2 e → next p.1 e = .ok s' →
      (∃ t, t ∉ s'.living) → ∃ w ∈ s'.livingWeak, ∃ x, taken p.1 p.2 e w = some x ∧
        ¬ Follows s' w x := by
  obtain ⟨hwatch, ho, hl⟩ := run_watched hr
  refine ⟨fun w hw x hf hmax => hwatch.follows ho hl hw hf hmax, ?_⟩
  intro e s' ha hreg hsp hok hfresh
  exact hwatch.fails ho hl ha hreg hsp hok hfresh

theorem lock_follows_sample : ∃ tr p, (watchSystem Faithful :
      System (State ℕ ℕ ℕ ℕ × (ℕ → Option ℕ)) (Event ℕ ℕ ℕ ℕ)).Run System.always tr p ∧
    p.2 0 = some 7 ∧ Follows p.1 0 7 ∧ ∃ w ∈ p.1.livingWeak, ∃ x, p.2 w = some x ∧
      ∃ s', next p.1 (.move 3 0) = .ok s' ∧ ¬ Follows s' w x := by
  have hr : ∃ p : State ℕ ℕ ℕ ℕ × (ℕ → Option ℕ), (watchSystem Faithful).Run System.always
      [.fromRaw 0 (some 7) 0, .weakFrom 0 0, .copy 1 0, .destroy 1, .fromRaw 2 (some 8) 1] p ∧
      p.1.livingWeak = {0} ∧ p.2 0 = some 7 ∧ p.1.sharedPtr 0 = some 0 ∧
      (p.1.ptr 0).metadata = some 0 ∧ p.1.refcnt 0 = some 1 ∧ p.1.living = {0, 2} := by
    refine ⟨_, System.run_of_exec watchExec_step watch_init rfl, ?_, ?_, ?_, ?_, ?_, ?_⟩
    all_goals decide
  obtain ⟨p, hr, hweak, hf, htarget, hb, hn, hliving⟩ := hr
  obtain ⟨hfollows, hfails⟩ := lock_follows hr
  refine ⟨_, p, hr, hf, hfollows 0 (by simp [hweak]) 7 hf ?_, ?_⟩
  · intro u b hu hub
    rw [htarget] at hu
    cases hu
    rw [hb] at hub
    cases hub
    rw [hn]
    decide
  · have hspared : ¬ Spared p.1 p.2 (.move 3 0) := by
      intro hsp
      exact hsp 0 (by simp [hweak]) 0 (by simp [htarget]) 7 (by simp [hf]) rfl
    obtain ⟨w, hw, x, hx, hfail⟩ := hfails (.move 3 0) _ (by simp [Admitted, hliving]) trivial
      hspared rfl ⟨1, by simp [State.move, State.take, State.create, State.setPtr, hliving]⟩
    exact ⟨w, hw, x, hx, _, rfl, hfail⟩

/-- The variable that was watched dies first. -/
theorem lock_follows_fails : ¬ ∀ (tr : List (Event ℕ ℕ ℕ ℕ)) (p : State ℕ ℕ ℕ ℕ × (ℕ → Option ℕ)),
    (watchSystem fun s _ e => Admitted s e ∧ e.Registers).Run System.always tr p →
      ∀ w ∈ p.1.livingWeak, ∀ x, p.2 w = some x → Follows p.1 w x := by
  intro hall
  have hr : ∃ p : State ℕ ℕ ℕ ℕ × (ℕ → Option ℕ),
      (watchSystem fun s _ e => Admitted s e ∧ e.Registers).Run System.always
        [.fromRaw 0 (some 7) 0, .copy 1 0, .weakFrom 0 0, .destroy 0] p ∧ 0 ∈ p.1.livingWeak ∧
      p.2 0 = some 7 ∧ 0 < owners p.1.living p.1 7 ∧ 2 ∉ p.1.living ∧ p.1.sharedPtr 0 = none := by
    refine ⟨_, System.run_of_exec watchExec_step watch_init rfl, ?_, ?_, ?_, ?_, ?_⟩
    all_goals decide
  obtain ⟨p, hr, hw, hf, hown, hfree, hnone⟩ := hr
  obtain ⟨s', hok, hbool, _⟩ := (hall _ p hr 0 hw 7 hf).owned hown 2 hfree
  rw [next, State.lock, hnone] at hok
  cases hok
  simp [State.create, State.setPtr, SharedPointer.toBool] at hbool

end ModCpp.SharedPtr
