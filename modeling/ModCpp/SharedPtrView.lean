import ModCpp.SharedPtrCounts

/-!
# What the pointers hold

A step changes what the living pointers hold, where the weak pointers look and who is
registered where in a way that needs no counts: the counts decide only whether the step goes
wrong. A view is a state without its counts, objects and logs.
-/

namespace ModCpp.SharedPtr
variable {σ ω ι κ : Type*} {s s' : State σ ω ι κ} {t u v : σ} {b : κ} {x : ι}

section inversion
variable [DecidableEq κ]

theorem addRefcnt_cases {d m : ℤ} (h : s.addRefcnt b d = .ok (s', m)) :
    ∃ n, s.refcnt b = some n ∧ m = n + d ∧ n + d ≤ intMax ∧
      s' = { s with refcnt := Function.update s.refcnt b (some (n + d)) } := by
  cases hb : s.refcnt b with
  | none =>
    rw [State.addRefcnt, hb] at h
    cases h
  | some n =>
    rw [State.addRefcnt, hb] at h
    simp only at h
    split_ifs at h with hrange
    cases h
    exact ⟨n, rfl, rfl, by omega, rfl⟩

theorem share_cases [DecidableEq σ] (h : s.share t u = .ok s') :
    ∃ b n, (s.ptr u).metadata = some b ∧ s.refcnt b = some n ∧ n + 1 ≤ intMax ∧
      s' = { s with
        ptr := Function.update s.ptr t
          { s.ptr t with data := (s.ptr u).data, metadata := (s.ptr u).metadata }
        refcnt := Function.update s.refcnt b (some (n + 1)) } := by
  cases hm : (s.ptr u).metadata with
  | none =>
    rw [State.share] at h
    simp only [setPtr_self, hm] at h
    cases h
  | some b =>
    rw [share_eq hm] at h
    obtain ⟨r, hadd, hr⟩ := bind_ok h
    cases hr
    obtain ⟨n, hn, _, hmax, hs⟩ := addRefcnt_cases hadd
    exact ⟨b, n, rfl, hn, hmax, hs⟩

variable [DecidableEq σ] [DecidableEq ι]

theorem decrease_cases (h : s.decreaseCurrentRefcnt t = .ok s') :
    ((s.ptr t).data = none ∧ s' = s) ∨
    ∃ x b n, (s.ptr t).data = some x ∧ (s.ptr t).metadata = some b ∧ s.refcnt b = some n ∧
      ((n ≠ 1 ∧ s' = { s with refcnt := Function.update s.refcnt b (some (n - 1)) }) ∨
        (n = 1 ∧ s' = { s with
          ptr := Function.update s.ptr t ⟨(s.ptr t).weakPtrSet, none, none⟩
          refcnt := Function.update s.refcnt b none
          objects := s.objects.erase x
          deletedData := s.deletedData ++ [x]
          deletedMetadata := s.deletedMetadata ++ [b] })) := by
  cases hd : (s.ptr t).data with
  | none =>
    rw [State.decreaseCurrentRefcnt, hd] at h
    cases h
    exact .inl ⟨rfl, rfl⟩
  | some x =>
    cases hm : (s.ptr t).metadata with
    | none =>
      rw [State.decreaseCurrentRefcnt, hd, hm] at h
      cases h
    | some b =>
      rw [State.decreaseCurrentRefcnt, hd, hm] at h
      obtain ⟨⟨s₁, m⟩, hadd, h⟩ := bind_ok h
      obtain ⟨n, hn, rfl, _, rfl⟩ := addRefcnt_cases hadd
      refine .inr ⟨x, b, n, rfl, rfl, hn, ?_⟩
      simp only at h
      by_cases hone : n = 1
      · subst hone
        rw [if_pos (by omega)] at h
        by_cases hx : x ∈ s.objects
        · rw [State.deleteData, if_pos hx] at h
          simp only [State.setPtr, State.deleteMetadata, Function.update_self,
            Function.update_idem, pure_bind] at h
          cases h
          exact .inr ⟨rfl, rfl⟩
        · rw [State.deleteData, if_neg hx] at h
          cases h
      · rw [if_neg (by omega)] at h
        cases h
        exact .inl ⟨hone, rfl⟩

end inversion

@[ext] structure View (σ ω ι κ : Type*) where
  living : Finset σ
  held : σ → Option ι × Option κ
  livingWeak : Finset ω
  target : ω → Option σ
  subscribers : σ → Finset ω

section views
variable [DecidableEq σ]

def State.view (s : State σ ω ι κ) : View σ ω ι κ where
  living := s.living
  held t := if t ∈ s.living then ((s.ptr t).data, (s.ptr t).metadata) else (none, none)
  livingWeak := s.livingWeak
  target := s.sharedPtr
  subscribers t := (s.ptr t).weakPtrSet

theorem held_of_mem (ht : t ∈ s.living) :
    s.view.held t = ((s.ptr t).data, (s.ptr t).metadata) := if_pos ht

namespace View
variable (v : View σ ω ι κ)

def create (t : σ) (p : Option ι × Option κ) : View σ ω ι κ :=
  { v with
    living := insert t v.living
    held := Function.update v.held t p
    subscribers := Function.update v.subscribers t ∅ }

def hold (t : σ) (p : Option ι × Option κ) : View σ ω ι κ :=
  { v with held := Function.update v.held t p }

variable [DecidableEq ω]

def destroy (t : σ) : View σ ω ι κ :=
  { v with
    living := v.living.erase t
    held := Function.update v.held t (none, none)
    target := fun w => if w ∈ v.subscribers t then none else v.target w
    subscribers := Function.update v.subscribers t ∅ }

def aim (w : ω) (target : Option σ) : View σ ω ι κ :=
  { v with
    livingWeak := insert w v.livingWeak
    target := Function.update v.target w target }

def subscribe (t : σ) (w : ω) : View σ ω ι κ :=
  { v with subscribers := Function.update v.subscribers t (insert w (v.subscribers t)) }

def cancel (w : ω) : View σ ω ι κ :=
  match v.target w with
  | none => v
  | some t => { v with subscribers := Function.update v.subscribers t ((v.subscribers t).erase w) }

def forget (w : ω) : View σ ω ι κ := { v with livingWeak := v.livingWeak.erase w }

/-- What a step leaves, if it goes well. -/
def after : Event σ ω ι κ → View σ ω ι κ
  | .default t => v.create t (none, none)
  | .fromRaw t data block => v.create t (data, some block)
  | .copy t u => v.create t (v.held u)
  | .copyAssign t u => v.hold t (v.held u)
  | .move t u => (v.create t (v.held u)).hold u (none, none)
  | .moveAssign t u => (v.hold t (v.held u)).hold u (none, none)
  | .destroy t => v.destroy t
  | .weakDefault w => v.aim w none
  | .weakFrom w t => (v.aim w (some t)).subscribe t w
  | .weakCopy w w' => v.aim w (v.target w')
  | .weakAssign w t => ((v.cancel w).aim w (some t)).subscribe t w
  | .weakCopyAssign w w' => v.aim w (v.target w')
  | .weakDestroy w => (v.cancel w).forget w
  | .lock w t => v.create t ((v.target w).elim (none, none) v.held)

end View

theorem view_hold {d : Option ι} {m : Option κ} (ht : t ∈ s.living)
    (hptr : s'.ptr = Function.update s.ptr t ⟨(s.ptr t).weakPtrSet, m, d⟩)
    (hliving : s'.living = s.living) (hweak : s'.livingWeak = s.livingWeak)
    (htarget : s'.sharedPtr = s.sharedPtr) : s'.view = s.view.hold t (d, m) := by
  refine View.ext hliving (funext fun v => ?_) hweak htarget (funext fun v => ?_)
  · by_cases hv : v = t
    · subst hv
      simp [State.view, View.hold, hliving, hptr, ht]
    · simp [State.view, View.hold, hliving, hptr, hv]
  · by_cases hv : v = t
    · subst hv
      simp [State.view, View.hold, hptr]
    · simp [State.view, View.hold, hptr, hv]

theorem view_setSubscribers {W : Finset ω} :
    (s.setPtr t { s.ptr t with weakPtrSet := W }).view =
      { s.view with subscribers := Function.update s.view.subscribers t W } := by
  refine View.ext rfl (funext fun v => ?_) rfl rfl (funext fun v => ?_)
  · by_cases hv : v = t
    · subst hv
      simp [State.view, State.setPtr]
    · simp [State.view, State.setPtr, hv]
  · by_cases hv : v = t
    · subst hv
      simp [State.view, State.setPtr]
    · simp [State.view, State.setPtr, hv]

theorem view_create : (s.create t).view = s.view.create t (none, none) := by
  refine View.ext rfl (funext fun v => ?_) rfl rfl (funext fun v => ?_)
  · by_cases hv : v = t
    · subst hv
      simp [State.view, State.create, State.setPtr, View.create]
    · simp [State.view, State.create, State.setPtr, View.create, hv]
  · by_cases hv : v = t
    · subst hv
      simp [State.view, State.create, State.setPtr, View.create]
    · simp [State.view, State.create, State.setPtr, View.create, hv]

theorem view_take (ht : t ∈ s.living) (hu : u ∈ s.living) :
    (s.take t u).view = (s.view.hold t (s.view.held u)).hold u (none, none) := by
  let s₁ := s.setPtr t { s.ptr t with data := (s.ptr u).data, metadata := (s.ptr u).metadata }
  have hfirst : s₁.view = s.view.hold t (s.view.held u) := by
    rw [held_of_mem hu]
    exact view_hold ht rfl rfl rfl rfl
  have hu₁ : u ∈ s₁.living := hu
  rw [← hfirst]
  exact view_hold hu₁ rfl rfl rfl rfl

theorem view_share [DecidableEq κ] (ht : t ∈ s.living) (hu : u ∈ s.living)
    (h : s.share t u = .ok s') : s'.view = s.view.hold t (s.view.held u) := by
  obtain ⟨b, n, _, _, _, rfl⟩ := share_cases h
  rw [held_of_mem hu]
  exact view_hold ht rfl rfl rfl rfl

theorem view_decrease [DecidableEq κ] [DecidableEq ι] (ht : t ∈ s.living)
    (h : s.decreaseCurrentRefcnt t = .ok s') :
    s'.view = s.view ∨ ((s'.ptr t).metadata = none ∧ s'.view = s.view.hold t (none, none)) := by
  rcases decrease_cases h with ⟨_, rfl⟩ | ⟨x, b, n, _, _, _, ⟨_, rfl⟩ | ⟨_, rfl⟩⟩
  · exact .inl rfl
  · exact .inl rfl
  · refine .inr ⟨by simp, ?_⟩
    exact view_hold ht rfl rfl rfl rfl

end views

/-- The names in a step: a variable is declared once and used while it lives, an object and a
block that are made are new, and no object is made again. -/
def Admitted (s : State σ ω ι κ) : Event σ ω ι κ → Prop
  | .default t => t ∉ s.living
  | .fromRaw t data block => t ∉ s.living ∧ s.refcnt block = none ∧
      ∀ x ∈ data, x ∉ s.objects ∧ x ∉ s.deletedData
  | .copy t u | .move t u => t ∉ s.living ∧ u ∈ s.living
  | .copyAssign t u | .moveAssign t u => t ∈ s.living ∧ u ∈ s.living
  | .destroy t => t ∈ s.living
  | .weakDefault w => w ∉ s.livingWeak
  | .weakFrom w t => w ∉ s.livingWeak ∧ t ∈ s.living
  | .weakCopy w w' => w ∉ s.livingWeak ∧ w' ∈ s.livingWeak
  | .weakAssign w t => w ∈ s.livingWeak ∧ t ∈ s.living
  | .weakCopyAssign w w' => w ∈ s.livingWeak ∧ w' ∈ s.livingWeak
  | .weakDestroy w => w ∈ s.livingWeak
  | .lock w t => w ∈ s.livingWeak ∧ t ∉ s.living

instance [DecidableEq σ] [DecidableEq ω] [DecidableEq ι] :
    ∀ (s : State σ ω ι κ) (e : Event σ ω ι κ), Decidable (Admitted s e)
  | s, .default t => inferInstanceAs (Decidable (t ∉ s.living))
  | s, .fromRaw t data block => inferInstanceAs (Decidable (t ∉ s.living ∧
      s.refcnt block = none ∧ ∀ x ∈ data, x ∉ s.objects ∧ x ∉ s.deletedData))
  | s, .copy t u | s, .move t u => inferInstanceAs (Decidable (t ∉ s.living ∧ u ∈ s.living))
  | s, .copyAssign t u | s, .moveAssign t u =>
    inferInstanceAs (Decidable (t ∈ s.living ∧ u ∈ s.living))
  | s, .destroy t => inferInstanceAs (Decidable (t ∈ s.living))
  | s, .weakDefault w => inferInstanceAs (Decidable (w ∉ s.livingWeak))
  | s, .weakFrom w t => inferInstanceAs (Decidable (w ∉ s.livingWeak ∧ t ∈ s.living))
  | s, .weakCopy w w' => inferInstanceAs (Decidable (w ∉ s.livingWeak ∧ w' ∈ s.livingWeak))
  | s, .weakAssign w t => inferInstanceAs (Decidable (w ∈ s.livingWeak ∧ t ∈ s.living))
  | s, .weakCopyAssign w w' => inferInstanceAs (Decidable (w ∈ s.livingWeak ∧ w' ∈ s.livingWeak))
  | s, .weakDestroy w => inferInstanceAs (Decidable (w ∈ s.livingWeak))
  | s, .lock w t => inferInstanceAs (Decidable (w ∈ s.livingWeak ∧ t ∉ s.living))

/-- The names of the variables and blocks only: a raw pointer may point anywhere. -/
def Declared (s : State σ ω ι κ) : Event σ ω ι κ → Prop
  | .fromRaw t _ block => t ∉ s.living ∧ s.refcnt block = none
  | e => Admitted s e

theorem Admitted.declared {e : Event σ ω ι κ} (ha : Admitted s e) : Declared s e := by
  cases e with
  | fromRaw t data block => exact ⟨ha.1, ha.2.1⟩
  | _ => exact ha

section simulation
variable [DecidableEq σ] {v : View σ ω ι κ} {p q : Option ι × Option κ} {w : ω}
  {e : Event σ ω ι κ}

theorem View.create_hold : (v.create t p).hold t q = v.create t q := by
  simp [View.create, View.hold]

theorem View.hold_hold : (v.hold t p).hold t q = v.hold t q := by
  simp [View.hold]

theorem View.create_held (h : u ≠ t) : (v.create t p).held u = v.held u :=
  Function.update_of_ne h ..

theorem View.hold_held (h : u ≠ t) : (v.hold t p).held u = v.held u := Function.update_of_ne h ..

theorem view_copy [DecidableEq κ] (ht : t ∉ s.living) (hu : u ∈ s.living)
    (h : s.copy t u = .ok s') : s'.view = s.view.create t (s.view.held u) := by
  have hut : u ≠ t := fun he => ht (he ▸ hu)
  have hshare := view_share (s := s.create t) (Finset.mem_insert_self t _)
    (Finset.mem_insert_of_mem hu) h
  rw [hshare, view_create, View.create_hold, View.create_held hut]

theorem view_fromRaw [DecidableEq ι] [DecidableEq κ] {data : Option ι} :
    (s.fromRaw t data b).view = s.view.create t (data, some b) := by
  have hcreate : (s.fromRaw t data b).view = (s.create t).view.hold t (data, some b) :=
    view_hold (Finset.mem_insert_self t _) rfl rfl rfl rfl
  rw [hcreate, view_create, View.create_hold]

theorem view_move (ht : t ∉ s.living) (hu : u ∈ s.living) :
    (s.move t u).view = (s.view.create t (s.view.held u)).hold u (none, none) := by
  have hut : u ≠ t := fun he => ht (he ▸ hu)
  rw [State.move, view_take (Finset.mem_insert_self t _) (Finset.mem_insert_of_mem hu),
    view_create, View.create_hold, View.create_held hut]

theorem view_lock [DecidableEq κ] (ht : t ∉ s.living) (h : s.lock w t = .ok s') :
    s'.view = s.view.create t ((s.view.target w).elim (none, none) s.view.held) := by
  cases htarget : s.sharedPtr w with
  | none =>
    have hview : s.view.target w = none := htarget
    rw [State.lock, htarget] at h
    cases h
    rw [hview, view_create]
    rfl
  | some u =>
    have hview : s.view.target w = some u := htarget
    rw [State.lock, htarget] at h
    simp only at h
    split_ifs at h with hu
    rw [hview, view_copy ht hu h]
    rfl

section subscriptions
variable [DecidableEq ω]

theorem View.hold_destroy : (v.hold t p).destroy t = v.destroy t :=
  View.ext rfl (Function.update_idem ..) rfl rfl rfl

theorem view_addSubscription : (s.addSubscription t w).view = s.view.subscribe t w :=
  view_setSubscribers

theorem cancel_cases (h : s.cancelSubscription w = .ok s') :
    s' = s ∨ ∃ t W, s' = s.setPtr t { s.ptr t with weakPtrSet := W } := by
  rw [State.cancelSubscription] at h
  split at h
  · cases h
    exact .inl rfl
  · split_ifs at h
    cases h
    exact .inr ⟨_, _, rfl⟩

theorem view_cancelSubscription (h : s.cancelSubscription w = .ok s') :
    s'.view = s.view.cancel w := by
  cases htarget : s.sharedPtr w with
  | none =>
    have hview : s.view.target w = none := htarget
    rw [State.cancelSubscription, htarget] at h
    cases h
    rw [View.cancel, hview]
  | some t =>
    have hview : s.view.target w = some t := htarget
    rw [State.cancelSubscription, htarget] at h
    simp only at h
    split_ifs at h
    cases h
    rw [View.cancel, hview]
    exact view_setSubscribers

end subscriptions

theorem decrease_living [DecidableEq ι] [DecidableEq κ] (ht : t ∈ s.living)
    (h : s.decreaseCurrentRefcnt t = .ok s') : s'.living = s.living := by
  rcases view_decrease ht h with hv | ⟨_, hv⟩
  · exact congrArg View.living hv
  · exact congrArg View.living hv

variable [DecidableEq ι] [DecidableEq κ]

theorem view_copyAssign (ht : t ∈ s.living) (hu : u ∈ s.living)
    (h : s.copyAssign t u = .ok s') : s'.view = s.view.hold t (s.view.held u) := by
  rw [State.copyAssign] at h
  obtain ⟨s₁, hdec, h⟩ := bind_ok h
  have hliving := decrease_living ht hdec
  have hshare := view_share (hliving ▸ ht) (hliving ▸ hu) h
  rcases view_decrease ht hdec with hv | ⟨hm, hv⟩
  · rw [hshare, hv]
  · have hut : u ≠ t := by
      intro he
      obtain ⟨b, _, hb, _⟩ := share_cases h
      rw [he, hm] at hb
      cases hb
    rw [hshare, hv, View.hold_hold, View.hold_held hut]

theorem view_moveAssign (ht : t ∈ s.living) (hu : u ∈ s.living)
    (h : s.moveAssign t u = .ok s') :
    s'.view = (s.view.hold t (s.view.held u)).hold u (none, none) := by
  rw [State.moveAssign] at h
  obtain ⟨s₁, hdec, h⟩ := bind_ok h
  cases h
  have hliving := decrease_living ht hdec
  rw [view_take (hliving ▸ ht) (hliving ▸ hu)]
  rcases view_decrease ht hdec with hv | ⟨_, hv⟩
  · rw [hv]
  · rw [hv, View.hold_hold]
    by_cases hut : u = t
    · subst hut
      rw [View.hold_hold, View.hold_hold]
    · rw [View.hold_held hut]

variable [DecidableEq ω]

theorem view_destroy (ht : t ∈ s.living) (h : s.destroy t = .ok s') :
    s'.view = s.view.destroy t := by
  rw [State.destroy] at h
  obtain ⟨s₁, hdec, h⟩ := bind_ok h
  rw [State.resetWeak] at h
  split_ifs at h
  · cases h
    have hlast : s₁.view.destroy t = s.view.destroy t := by
      rcases view_decrease ht hdec with hv | ⟨_, hv⟩
      · rw [hv]
      · rw [hv, View.hold_destroy]
    rw [← hlast]
    refine View.ext rfl (funext fun v => ?_) rfl rfl (funext fun v => ?_)
    · by_cases hv : v = t
      · subst hv
        simp [State.view, View.destroy]
      · simp [State.view, View.destroy, State.setPtr, hv]
    · by_cases hv : v = t
      · subst hv
        simp [State.view, View.destroy, State.setPtr]
      · simp [State.view, View.destroy, State.setPtr, hv]
  · cases h

theorem view_next (ha : Declared s e) (h : next s e = .ok s') : s'.view = s.view.after e := by
  cases e with
  | default t =>
    cases h
    exact view_create
  | fromRaw t data block =>
    cases h
    exact view_fromRaw
  | copy t u => exact view_copy ha.1 ha.2 h
  | copyAssign t u => exact view_copyAssign ha.1 ha.2 h
  | move t u =>
    cases h
    exact view_move ha.1 ha.2
  | moveAssign t u => exact view_moveAssign ha.1 ha.2 h
  | destroy t => exact view_destroy ha h
  | weakDefault w =>
    cases h
    rfl
  | weakFrom w t =>
    cases h
    exact view_addSubscription
  | weakCopy w w' =>
    cases h
    rfl
  | weakAssign w t =>
    obtain ⟨s₁, hcancel, h⟩ := bind_ok h
    cases h
    rw [view_addSubscription, View.after, ← view_cancelSubscription hcancel]
    rfl
  | weakCopyAssign w w' =>
    cases h
    rfl
  | weakDestroy w =>
    obtain ⟨s₁, hcancel, h⟩ := bind_ok h
    cases h
    rw [View.after, ← view_cancelSubscription hcancel]
    rfl
  | lock w t => exact view_lock ha.2 h

end simulation

end ModCpp.SharedPtr
