import ModCpp.SharedPtrVariables

/-!
# Runs of shared pointers

Every step of a program without weak pointers keeps the counts right and deletes exactly what
lost its last holder. A count is an `int`, and a copy past its greatest value is undefined.
-/

namespace ModCpp.SharedPtr
variable {σ ω ι κ : Type*} {s s' : State σ ω ι κ} {t u : σ} {b : κ} {x : ι} {e : Event σ ω ι κ}

/-- Steps of `shared_pointer` variables alone: raw pointers are fresh, and only a pointer that
is not empty is copied, to another one. -/
def Permitted (s : State σ ω ι κ) : Event σ ω ι κ → Prop
  | .default t => t ∉ s.living
  | .fromRaw t data block => t ∉ s.living ∧ s.refcnt block = none ∧ ∃ x ∈ data, x ∉ s.objects
  | .copy t u => t ∉ s.living ∧ u ∈ s.living ∧ (s.ptr u).data ≠ none
  | .copyAssign t u => t ∈ s.living ∧ u ∈ s.living ∧ u ≠ t ∧ (s.ptr u).data ≠ none
  | .move t u => t ∉ s.living ∧ u ∈ s.living
  | .moveAssign t u => t ∈ s.living ∧ u ∈ s.living
  | .destroy t => t ∈ s.living
  | _ => False

instance [DecidableEq σ] [DecidableEq ι] :
    ∀ (s : State σ ω ι κ) (e : Event σ ω ι κ), Decidable (Permitted s e)
  | s, .default t => inferInstanceAs (Decidable (t ∉ s.living))
  | s, .fromRaw t data block => inferInstanceAs (Decidable
      (t ∉ s.living ∧ s.refcnt block = none ∧ ∃ x ∈ data, x ∉ s.objects))
  | s, .copy t u => inferInstanceAs (Decidable
      (t ∉ s.living ∧ u ∈ s.living ∧ (s.ptr u).data ≠ none))
  | s, .copyAssign t u => inferInstanceAs (Decidable
      (t ∈ s.living ∧ u ∈ s.living ∧ u ≠ t ∧ (s.ptr u).data ≠ none))
  | s, .move t u => inferInstanceAs (Decidable (t ∉ s.living ∧ u ∈ s.living))
  | s, .moveAssign t u => inferInstanceAs (Decidable (t ∈ s.living ∧ u ∈ s.living))
  | s, .destroy t => inferInstanceAs (Decidable (t ∈ s.living))
  | _, .weakDefault _ | _, .weakFrom .. | _, .weakCopy .. | _, .weakAssign ..
  | _, .weakCopyAssign .. | _, .weakDestroy _ | _, .lock .. => .isFalse id

theorem Permitted.declared (hp : Permitted s e) : Declared s e ∧ e.Registers := by
  cases e with
  | default t => exact ⟨hp, trivial⟩
  | fromRaw t data block => exact ⟨⟨hp.1, hp.2.1⟩, trivial⟩
  | copy t u => exact ⟨⟨hp.1, hp.2.1⟩, trivial⟩
  | copyAssign t u => exact ⟨⟨hp.1, hp.2.1⟩, trivial⟩
  | move t u => exact ⟨hp, trivial⟩
  | moveAssign t u => exact ⟨hp, trivial⟩
  | destroy t => exact ⟨hp, trivial⟩
  | _ => exact hp.elim

/-- The block of `u` counts as many holders as an `int` can. -/
def Full (s : State σ ω ι κ) (u : σ) : Prop := ∃ b ∈ (s.ptr u).metadata, s.refcnt b = some intMax

/-- A copy counts one holder more, unless it replaces a holder of the same block. -/
def HasRoom (s : State σ ω ι κ) : Event σ ω ι κ → Prop
  | .copy _ u => ¬ Full s u
  | .copyAssign t u => (s.ptr t).metadata = (s.ptr u).metadata ∨ ¬ Full s u
  | _ => True

variable [DecidableEq ι] [DecidableEq κ]

/-- Between two steps the counts are those of the living variables, and nobody subscribed. -/
structure Sound (s : State σ ω ι κ) : Prop where
  counted : Counted s.living s
  weakPtrSet : ∀ t ∈ s.living, (s.ptr t).weakPtrSet = ∅

/-- The step succeeds and deletes exactly what lost its last holder, or there is no room in the
count it takes up. -/
def Outcome (s : State σ ω ι κ) (room : Prop) (r : Except Failure (State σ ω ι κ)) : Prop :=
  (room ∧ ∃ s', r = .ok s' ∧ Sound s' ∧ Exact s.living s s'.living s') ∨
    ¬ room ∧ r = .error (.undefined "refcnt overflows")

section outcomes
variable {room : Prop} {r : Except Failure (State σ ω ι κ)}

theorem Outcome.of_ok (ho : Outcome s room r) (hok : r = .ok s') :
    Sound s' ∧ Exact s.living s s'.living s' := by
  rcases ho with ⟨_, s₁, hok₁, hs, he⟩ | ⟨_, herr⟩
  · cases hok.symm.trans hok₁
    exact ⟨hs, he⟩
  · cases hok.symm.trans herr

theorem Outcome.ok_iff (ho : Outcome s room r) : (∃ s', r = .ok s') ↔ room := by
  rcases ho with ⟨hroom, s₁, hok, _⟩ | ⟨hfull, herr⟩
  · exact iff_of_true ⟨s₁, hok⟩ hroom
  · refine iff_of_false ?_ hfull
    rintro ⟨s', hok⟩
    cases hok.symm.trans herr

end outcomes

theorem Sound.full_iff (hs : Sound s) (hu : u ∈ s.living) (hb : (s.ptr u).metadata = some b) :
    Full s u ↔ (holders s.living s b : ℤ) = intMax := by
  have href := (hs.counted.of_metadata hu hb).2
  constructor
  · rintro ⟨b', hb', hmax⟩
    cases hb.symm.trans hb'
    exact Option.some_inj.mp (href.symm.trans hmax)
  · exact fun hmax => ⟨b, hb, by rw [href, hmax]⟩

variable [DecidableEq σ]

theorem create_weakPtrSet (hs : Sound s) {v : σ} (hv : v ∈ insert t s.living) :
    ((s.create t).ptr v).weakPtrSet = ∅ := by
  by_cases hvt : v = t
  · subst hvt
    rw [State.create, setPtr_self]
  · rw [State.create, setPtr_ne hvt]
    exact hs.weakPtrSet v (Finset.mem_of_mem_insert_of_ne hv hvt)

theorem Sound.default (hs : Sound s) (ht : t ∉ s.living) : Outcome s True (.ok (s.create t)) := by
  obtain ⟨hc, hq⟩ := hs.counted.create ht
  exact .inl ⟨trivial, _, rfl, ⟨hc, fun _ => create_weakPtrSet hs⟩, hq.exact⟩

theorem Sound.fromRaw (hs : Sound s) (ht : t ∉ s.living) (hb : s.refcnt b = none)
    (hx : x ∉ s.objects) : Outcome s True (.ok (s.fromRaw t (some x) b)) := by
  obtain ⟨hc, he⟩ := hs.counted.fromRaw ht hx hb
  refine .inl ⟨trivial, _, rfl, ⟨hc, fun v hv => ?_⟩, he⟩
  have hset := create_weakPtrSet hs hv
  by_cases hvt : v = t
  · subst hvt
    exact (congrArg SharedPointer.weakPtrSet (setPtr_self _)).trans hset
  · exact (congrArg SharedPointer.weakPtrSet (setPtr_ne hvt)).trans hset

theorem Sound.created (hs : Sound s) (ht : t ∉ s.living) :
    Counted s.living (s.create t) ∧ Quiet s.living s s.living (s.create t) :=
  hs.counted.congr (create_ptr ht) rfl rfl rfl rfl

theorem Sound.copy (hs : Sound s) (ht : t ∉ s.living) (hu : u ∈ s.living)
    (hd : (s.ptr u).data ≠ none) : Outcome s (¬ Full s u) (s.copy t u) := by
  obtain ⟨hc, hq⟩ := hs.created ht
  obtain ⟨b, hb⟩ := Option.ne_none_iff_exists'.mp (mt (hs.counted.data_eq_none hu).mpr hd)
  have hsame := create_ptr (s := s) ht
  have hb' : ((s.create t).ptr u).metadata = some b := by rw [hsame u hu, hb]
  have hfull := hs.full_iff hu hb
  rw [← holders_congr hsame] at hfull
  rcases hc.share ht hu hb' with ⟨hmax, herr⟩ | ⟨hless, s', hok, hc', hq', hf⟩
  · exact .inr ⟨not_not.mpr (hfull.mpr hmax), herr⟩
  · have hl : s'.living = insert t s.living := hf.living
    refine .inl ⟨mt hfull.mp hless, s', hok, ⟨hl ▸ hc', ?_⟩, hl ▸ hq.exact.trans_quiet hq'⟩
    intro v hv
    rw [hf.weakPtrSet]
    exact create_weakPtrSet hs (hl ▸ hv)

theorem Sound.move (hs : Sound s) (ht : t ∉ s.living) (hu : u ∈ s.living) :
    Outcome s True (.ok (s.move t u)) := by
  obtain ⟨hc, hq⟩ := hs.created ht
  obtain ⟨hc', hq'⟩ := hc.take ht hu
  refine .inl ⟨trivial, _, rfl, ⟨hc', fun v hv => ?_⟩, hq.exact.trans_quiet hq'⟩
  exact (take_frame.weakPtrSet v).trans (create_weakPtrSet hs hv)

theorem Sound.copyAssign (hs : Sound s) (ht : t ∈ s.living) (hu : u ∈ s.living) (hne : u ≠ t)
    (hd : (s.ptr u).data ≠ none) :
    Outcome s ((s.ptr t).metadata = (s.ptr u).metadata ∨ ¬ Full s u) (s.copyAssign t u) := by
  obtain ⟨s₁, hdec, hdown⟩ := hs.counted.decrease ht
  obtain ⟨b, hb⟩ := Option.ne_none_iff_exists'.mp (mt (hs.counted.data_eq_none hu).mpr hd)
  have hb₁ : (s₁.ptr u).metadata = some b := by rw [hdown.ptr u hne, hb]
  have hcall : s.copyAssign t u = s₁.share t u := ok_bind hdec
  have hmem : u ∈ s.living.erase t := Finset.mem_erase.mpr ⟨hne, hu⟩
  have hone := holders_erase (b := b) ht fun v hv => hdown.ptr v (Finset.ne_of_mem_erase hv)
  rw [hcall, hb, hs.full_iff hu hb]
  rcases hdown.counted.share (Finset.notMem_erase t _) hmem hb₁ with
    ⟨hmax, herr⟩ | ⟨hless, s', hok, hc', hq', hf⟩
  · have hbound := hs.counted.bound b
    refine .inr ⟨?_, herr⟩
    rintro (hsame | hroom)
    · rw [if_pos hsame] at hone
      omega
    · split_ifs at hone <;> omega
  · rw [Finset.insert_erase ht] at hc' hq'
    have hl : s'.living = s.living := hf.living.trans hdown.frame.living
    refine .inl ⟨?_, s', hok, ⟨hl ▸ hc', ?_⟩, hl ▸ hdown.exact.trans_quiet hq'⟩
    · by_cases hsame : (s.ptr t).metadata = some b
      · exact .inl hsame
      · rw [if_neg hsame] at hone
        exact .inr (by omega)
    intro v hv
    rw [hf.weakPtrSet, hdown.frame.weakPtrSet]
    exact hs.weakPtrSet v (hl ▸ hv)

theorem Sound.moveAssign (hs : Sound s) (ht : t ∈ s.living) (hu : u ∈ s.living) :
    Outcome s True (s.moveAssign t u) := by
  obtain ⟨s₁, hdec, hdown⟩ := hs.counted.decrease ht
  have hcall : s.moveAssign t u = .ok (s₁.take t u) := ok_bind hdec
  have htake : Counted s.living (s₁.take t u) ∧ Quiet (s.living.erase t) s₁ s.living
      (s₁.take t u) := by
    rw [← Finset.insert_erase ht]
    by_cases hut : u = t
    · subst hut
      rw [Finset.insert_erase ht]
      have hself := hdown.counted.take_self (Finset.notMem_erase u _)
      rwa [Finset.insert_erase ht] at hself
    · rw [Finset.insert_erase ht]
      have hmem : u ∈ s.living.erase t := Finset.mem_erase.mpr ⟨hut, hu⟩
      have hother := hdown.counted.take (Finset.notMem_erase t _) hmem
      rwa [Finset.insert_erase ht] at hother
  have hl : (s₁.take t u).living = s.living := take_frame.living.trans hdown.frame.living
  refine .inl ⟨trivial, _, hcall, ⟨hl ▸ htake.1, ?_⟩, hl ▸ hdown.exact.trans_quiet htake.2⟩
  intro v hv
  rw [take_frame.weakPtrSet, hdown.frame.weakPtrSet]
  exact hs.weakPtrSet v (hl ▸ hv)

variable [DecidableEq ω]

theorem Sound.destroy (hs : Sound s) (ht : t ∈ s.living) : Outcome s True (s.destroy t) := by
  obtain ⟨s₁, hdec, hdown⟩ := hs.counted.decrease ht
  have hset : (s₁.ptr t).weakPtrSet = ∅ := by rw [hdown.frame.weakPtrSet, hs.weakPtrSet t ht]
  let s₂ : State σ ω ι κ := { s₁ with
    sharedPtr := fun w => if w ∈ (s₁.ptr t).weakPtrSet then none else s₁.sharedPtr w
    ptr := Function.update s₁.ptr t { s₁.ptr t with weakPtrSet := ∅ }
    living := s₁.living.erase t }
  have hcall : s.destroy t = .ok s₂ := by
    have hreset : (s₁.ptr t).weakPtrSet ⊆ s₁.livingWeak := by simp [hset]
    rw [State.destroy, ok_bind hdec, State.resetWeak, if_pos hreset]
    rfl
  have hl : s₂.living = s.living.erase t := congrArg (·.erase t) hdown.frame.living
  have hptr : ∀ v ∈ s.living.erase t, s₂.ptr v = s₁.ptr v :=
    fun v hv => Function.update_of_ne (Finset.ne_of_mem_erase hv) ..
  obtain ⟨hc, hq⟩ := hdown.counted.congr hptr rfl rfl rfl rfl
  refine .inl ⟨trivial, s₂, hcall, ⟨hl ▸ hc, ?_⟩, hl ▸ hdown.exact.trans_quiet hq⟩
  intro v hv
  rw [hl] at hv
  rw [hptr v hv, hdown.frame.weakPtrSet]
  exact hs.weakPtrSet v (Finset.mem_of_mem_erase hv)

theorem Sound.next (hs : Sound s) (hp : Permitted s e) : Outcome s (HasRoom s e) (next s e) := by
  cases e with
  | default t => exact hs.default hp
  | fromRaw t data block =>
    obtain ⟨ht, hb, x, hx, hnew⟩ := hp
    rw [Option.mem_def.mp hx]
    exact hs.fromRaw ht hb hnew
  | copy t u => exact hs.copy hp.1 hp.2.1 hp.2.2
  | copyAssign t u => exact hs.copyAssign hp.1 hp.2.1 hp.2.2.1 hp.2.2.2
  | move t u => exact hs.move hp.1 hp.2
  | moveAssign t u => exact hs.moveAssign hp.1 hp.2
  | destroy t => exact hs.destroy hp
  | weakDefault w => exact hp.elim
  | weakFrom w t => exact hp.elim
  | weakCopy w v => exact hp.elim
  | weakAssign w t => exact hp.elim
  | weakCopyAssign w v => exact hp.elim
  | weakDestroy w => exact hp.elim
  | lock w t => exact hp.elim

theorem run_sound {tr : List (Event σ ω ι κ)}
    (hr : (system Permitted).Run System.always tr s) : Sound s := by
  refine System.run_invariant (P := fun _ s => Sound s) ?_ ?_ hr
  · intro s hs
    obtain ⟨ptr, sharedPtr, rfl⟩ := hs
    have hmax : (0 : ℤ) ≤ intMax := by decide
    refine ⟨⟨?_, fun _ => rfl, fun _ => hmax, fun _ => by simp [owners, holderCount]⟩, by simp⟩
    intro p hp q hq
    rcases hp with rfl | ⟨_, ht, _⟩
    · rcases hq with rfl | ⟨_, ht, _⟩
      · simp
      · simp at ht
    · simp at ht
  · intro tr s e s' _ hs _ hstep
    obtain ⟨hp, hok⟩ := hstep
    exact ((hs.next hp).of_ok hok).1

theorem run_recorded {tr : List (Event σ ω ι κ)}
    (hr : (system Permitted).Run System.always tr s) :
    s.living = (recorded tr).living ∧
      ∀ t ∈ s.living, ((s.ptr t).data, (s.ptr t).metadata) = (recorded tr).held t := by
  have hr' : (system fun s e => Declared s e ∧ e.Registers).Run System.always tr s := by
    refine System.run_mono ?_ ?_ (fun _ _ h => h) hr
    · exact fun _ hi => hi
    · exact fun _ _ _ h => ⟨h.1.declared, h.2⟩
  have hs := run_shows hr'
  refine ⟨hs.living, ?_⟩
  intro t ht
  rw [← held_of_mem ht]
  exact congrFun hs.held t

/-- One pointer and `n` copies of it. -/
def crowd : ℕ → List (Event ℕ ℕ ℕ ℕ)
  | 0 => [.fromRaw 0 (some 7) 0]
  | n + 1 => crowd n ++ [.copy (n + 1) 0]

section crowd
variable {n : ℕ} {s : State ℕ ℕ ℕ ℕ}

theorem crowd_recorded (n : ℕ) : (recorded (crowd n)).living = Finset.range (n + 1) ∧
    ∀ t ≤ n, (recorded (crowd n)).held t = (some 7, some 0) := by
  induction n with
  | zero =>
    refine ⟨rfl, ?_⟩
    intro t ht
    rw [Nat.le_zero.mp ht]
    rfl
  | succ n ih =>
    obtain ⟨hliving, hheld⟩ := ih
    rw [crowd, recorded, history_concat, ← recorded]
    constructor
    · rw [Finset.range_add_one, ← hliving]
      rfl
    · intro t ht
      simp only [Variables.record, Variables.make, Function.update_apply]
      split_ifs with hlast
      · exact hheld 0 (Nat.zero_le n)
      · exact hheld t (by omega)

theorem crowd_holders (hr : (system Permitted).Run System.always (crowd n) s) :
    s.living = Finset.range (n + 1) ∧ (s.ptr 0).data = some 7 ∧ (s.ptr 0).metadata = some 0 ∧
      holders s.living s 0 = n + 1 := by
  obtain ⟨hliving, hheld⟩ := run_recorded hr
  obtain ⟨hrange, hpair⟩ := crowd_recorded n
  rw [hrange] at hliving
  have hall : ∀ t ∈ s.living, ((s.ptr t).data, (s.ptr t).metadata) = (some 7, some 0) := by
    intro t ht
    rw [hheld t ht]
    exact hpair t (Nat.lt_succ_iff.mp (Finset.mem_range.mp (hliving ▸ ht)))
  have hfirst := Prod.mk.inj (hall 0 (by simp [hliving]))
  refine ⟨hliving, hfirst.1, hfirst.2, ?_⟩
  rw [holders, holderCount_eq_card fun t ht => (Prod.mk.inj (hall t ht)).2, hliving,
    Finset.card_range]

/-- The next copy is permitted, and there is room for it as long as the count has any. -/
theorem crowd_next (hr : (system Permitted).Run System.always (crowd n) s) :
    Permitted s (.copy (n + 1) 0) ∧
      ((∃ s', next s (.copy (n + 1) 0) = .ok s') ↔ (n : ℤ) + 1 ≠ intMax) := by
  obtain ⟨hliving, hdata, hblock, hcount⟩ := crowd_holders hr
  have hs := run_sound hr
  have h0 : 0 ∈ s.living := by simp [hliving]
  have hp : Permitted s (.copy (n + 1) 0) := by
    refine ⟨?_, h0, by simp [hdata]⟩
    simp [hliving]
  have hroom : HasRoom s (.copy (n + 1) 0) ↔ (n : ℤ) + 1 ≠ intMax := by
    have hfull := hs.full_iff h0 hblock
    rw [hcount] at hfull
    exact not_congr (by exact_mod_cast hfull)
  exact ⟨hp, (hs.next hp).ok_iff.trans hroom⟩

theorem crowd_run (n : ℕ) (hn : (n : ℤ) < intMax) :
    ∃ s, (system Permitted).Run System.always (crowd n) s := by
  induction n with
  | zero =>
    exact ⟨_, System.run_of_exec exec_step ⟨fun _ => ⟨∅, none, none⟩, fun _ => none, rfl⟩ rfl⟩
  | succ n ih =>
    push_cast at hn
    obtain ⟨s, hr⟩ := ih (by omega)
    obtain ⟨hp, hiff⟩ := crowd_next hr
    obtain ⟨s', hok⟩ := hiff.mpr (by omega)
    exact ⟨s', hr.step trivial ⟨hp, hok⟩⟩

end crowd

end ModCpp.SharedPtr
