import ModCpp.FiberCount
import ModCpp.MachineWord
import ModCpp.Runs
import Mathlib.Data.Fintype.Card

/-!
# Threads that share data under one mutex with condition variables

Each thread loops over one critical section. It locks the mutex, runs its body up to the next
point where the mutex is free again, which is the end of the section or a wait, and a
notified waiter locks the mutex once more before it looks at its predicate again.
`notify_one` wakes an arbitrary waiter that was not notified yet, if there is one, and a
waiter may wake on its own at any time.
-/

namespace ModCpp.Monitor
variable {τ γ δ : Type*}

/-- Where a thread is when it is not in its section. A `woken` thread was in a wait on the
condition variable and has not run since it was notified. -/
inductive Phase (γ : Type*)
  | ready
  | asleep (c : γ)
  | woken (c : γ)
  deriving DecidableEq

namespace Phase

def Awake : Phase γ → Prop
  | .asleep _ => False
  | _ => True

def notified : Phase γ → Option γ
  | .woken c => some c
  | _ => none

@[simp] theorem awake_ready : (ready : Phase γ).Awake := trivial
@[simp] theorem awake_woken (c : γ) : (woken c).Awake := trivial
@[simp] theorem awake_asleep (c : γ) : ¬ (asleep c).Awake := id
@[simp] theorem notified_ready : (ready : Phase γ).notified = none := rfl
@[simp] theorem notified_asleep (c : γ) : (asleep c).notified = none := rfl
@[simp] theorem notified_woken (c : γ) : (woken c).notified = some c := rfl

theorem awake_of_not_asleep {p : Phase γ} (h : ∀ c, p ≠ .asleep c) : p.Awake := by
  cases p with
  | ready => exact trivial
  | asleep c => exact absurd rfl (h c)
  | woken c => exact trivial

theorem notified_eq_some {p : Phase γ} {c : γ} : p.notified = some c ↔ p = .woken c := by
  cases p with
  | ready => simp
  | asleep c => simp
  | woken c => simp

end Phase

inductive Signal (γ : Type*)
  | one (c : γ)
  | all (c : γ)

/-- What a thread that holds the mutex does before it frees it. -/
inductive Outcome (γ δ : Type*)
  | wait (c : γ)
  | leave (data : δ) (signals : List (Signal γ))

/-- The section of each thread, from its start and from a wait in it. -/
structure Program (τ γ δ : Type*) where
  enter : τ → δ → Except Failure (Outcome γ δ)
  resume : τ → δ → Except Failure (Outcome γ δ)

def Program.body (prog : Program τ γ δ) (t : τ) : Phase γ → δ → Except Failure (Outcome γ δ)
  | .woken _ => prog.resume t
  | _ => prog.enter t

structure State (τ γ δ : Type*) where
  holder : Option τ
  phase : τ → Phase γ
  data : δ

inductive Event (τ : Type*)
  | lock (t : τ)
  | body (t : τ)
  | spurious (t : τ)
  deriving DecidableEq

variable [DecidableEq τ] [DecidableEq γ]

def wakeAll (ph : τ → Phase γ) (c : γ) : τ → Phase γ := fun t =>
  if ph t = .asleep c then .woken c else ph t

inductive Signalled : List (Signal γ) → (τ → Phase γ) → (τ → Phase γ) → Prop
  | nil {ph : τ → Phase γ} : Signalled [] ph ph
  | one {ph ph' : τ → Phase γ} {c : γ} {rest : List (Signal γ)} {t : τ} : ph t = .asleep c →
      Signalled rest (Function.update ph t (.woken c)) ph' → Signalled (.one c :: rest) ph ph'
  | idle {ph ph' : τ → Phase γ} {c : γ} {rest : List (Signal γ)} : (∀ t, ph t ≠ .asleep c) →
      Signalled rest ph ph' → Signalled (.one c :: rest) ph ph'
  | all {ph ph' : τ → Phase γ} {c : γ} {rest : List (Signal γ)} :
      Signalled rest (wakeAll ph c) ph' → Signalled (.all c :: rest) ph ph'

inductive Step (prog : Program τ γ δ) : State τ γ δ → Event τ → State τ γ δ → Prop
  | lock {s : State τ γ δ} {t : τ} : s.holder = none → (s.phase t).Awake →
      Step prog s (.lock t) { s with holder := some t }
  | wait {s : State τ γ δ} {t : τ} {c : γ} : s.holder = some t →
      prog.body t (s.phase t) s.data = .ok (.wait c) →
      Step prog s (.body t)
        { s with holder := none, phase := Function.update s.phase t (.asleep c) }
  | leave {s : State τ γ δ} {t : τ} {data : δ} {signals : List (Signal γ)}
      {ph : τ → Phase γ} : s.holder = some t →
      prog.body t (s.phase t) s.data = .ok (.leave data signals) →
      Signalled signals (Function.update s.phase t .ready) ph →
      Step prog s (.body t) ⟨none, ph, data⟩
  | spurious {s : State τ γ δ} {t : τ} {c : γ} : s.phase t = .asleep c →
      Step prog s (.spurious t) { s with phase := Function.update s.phase t (.woken c) }

def system (prog : Program τ γ δ) (data : δ) : System (State τ γ δ) (Event τ) where
  init s := s = ⟨none, fun _ => .ready, data⟩
  step := Step prog

/-- A thread that leaves or resumes its section is never asleep, since it holds the mutex. -/
def HolderAwake (s : State τ γ δ) : Prop := ∀ t, s.holder = some t → (s.phase t).Awake

theorem holderAwake_of_step {prog : Program τ γ δ} {s s' : State τ γ δ} {e : Event τ}
    (hs : HolderAwake s) (h : Step prog s e s') : HolderAwake s' := by
  cases h with
  | lock hfree hawake =>
    intro u hu
    cases hu
    exact hawake
  | wait _ _ =>
    intro u hu
    cases hu
  | leave _ _ _ =>
    intro u hu
    cases hu
  | @spurious t c hsleep =>
    intro u hu
    have hne : u ≠ t := by
      intro he
      subst he
      have := hs u hu
      rw [hsleep] at this
      exact this
    simp only [Function.update_of_ne hne]
    exact hs u hu

section invariant
variable {prog : Program τ γ δ} {data : δ} {I : (τ → Phase γ) → δ → Prop}

/-- The bodies of the threads, the waits and the notifications keep an invariant of the
phases and the data; so each run does, whoever gets the mutex. -/
theorem run_keeps (hinit : I (fun _ => .ready) data)
    (hwait : ∀ t ph d c, I ph d → (ph t).Awake → prog.body t (ph t) d = .ok (.wait c) →
      I (Function.update ph t (.asleep c)) d)
    (hleave : ∀ t ph ph' d d' signals, I ph d → (ph t).Awake →
      prog.body t (ph t) d = .ok (.leave d' signals) →
      Signalled signals (Function.update ph t .ready) ph' → I ph' d')
    (hspurious : ∀ t ph d c, I ph d → ph t = .asleep c → I (Function.update ph t (.woken c)) d)
    {tr : List (Event τ)} {s : State τ γ δ}
    (hr : (system prog data).Run System.always tr s) : HolderAwake s ∧ I s.phase s.data := by
  refine System.run_invariant (P := fun _ s => HolderAwake s ∧ I s.phase s.data) ?_ ?_ hr
  · intro s hs
    subst hs
    refine ⟨?_, hinit⟩
    intro t ht
    cases ht
  · intro tr s e s' _ hs _ hstep
    obtain ⟨hholder, hI⟩ := hs
    refine ⟨holderAwake_of_step hholder hstep, ?_⟩
    cases hstep with
    | lock _ _ => exact hI
    | wait hh hb => exact hwait _ _ _ _ hI (hholder _ hh) hb
    | leave hh hb hsig => exact hleave _ _ _ _ _ _ hI (hholder _ hh) hb hsig
    | spurious hsleep => exact hspurious _ _ _ _ hI hsleep

end invariant

section asleep
variable {ph ph' : τ → Phase γ} {signals : List (Signal γ)} {t u : τ} {c : γ} {p : Phase γ}

theorem Signalled.asleep (h : Signalled signals ph ph') (hu : ph' u = .asleep c) :
    ph u = .asleep c := by
  induction h with
  | nil => exact hu
  | @one ph ph' d rest v hv _ ih =>
    have := ih hu
    by_cases he : u = v
    · subst he
      rw [Function.update_self] at this
      cases this
    · rwa [Function.update_of_ne he] at this
  | idle _ _ ih => exact ih hu
  | @all ph ph' d rest _ ih =>
    have := ih hu
    unfold wakeAll at this
    split_ifs at this
    exact this

theorem Signalled.woken (h : Signalled signals ph ph') (hu : ph' u = .woken c) :
    ph u = .woken c ∨ ph u = .asleep c := by
  induction h with
  | nil => exact .inl hu
  | @one ph ph' d rest v hv _ ih =>
    by_cases he : u = v
    · subst he
      have hd := ih hu
      simp only [Function.update_self, Phase.woken.injEq, reduceCtorEq, or_false] at hd
      obtain rfl := hd
      exact .inr hv
    · simpa only [Function.update_of_ne he] using ih hu
  | idle _ _ ih => exact ih hu
  | @all ph ph' d rest _ ih =>
    have := ih hu
    unfold wakeAll at this
    split_ifs at this with hd
    · simp only [Phase.woken.injEq, or_false] at this
      subst this
      exact .inr hd
    · exact this

theorem Signalled.all_awake (h : Signalled signals ph ph') (hc : .all c ∈ signals) :
    ph' u ≠ .asleep c := by
  induction h with
  | nil => simp at hc
  | one _ _ ih => exact ih (by simpa using hc)
  | idle _ _ ih => exact ih (by simpa using hc)
  | @all ph ph' d rest hrest ih =>
    rcases List.mem_cons.mp hc with he | hc
    · cases he
      intro hu
      have := hrest.asleep hu
      unfold wakeAll at this
      split_ifs at this
      contradiction
    · exact ih hc

omit [DecidableEq γ] in
theorem asleep_of_update (hp : p.Awake) (hu : Function.update ph t p u = .asleep c) :
    ph u = .asleep c := by
  by_cases he : u = t
  · subst he
    rw [Function.update_self] at hu
    subst hu
    exact hp.elim
  · rwa [Function.update_of_ne he] at hu

end asleep

section woken
variable [Fintype τ] {ph ph' : τ → Phase γ} {t : τ} {c d : γ} {p : Phase γ}

def wokenCount (ph : τ → Phase γ) (c : γ) : ℕ :=
  holderCount Finset.univ (fun t => (ph t).notified) c

omit [DecidableEq τ] in
theorem wokenCount_pos : 0 < wokenCount ph c ↔ ∃ t, ph t = .woken c := by
  simp [wokenCount, holderCount_pos, Phase.notified_eq_some]

theorem wokenCount_update (ph : τ → Phase γ) (t : τ) (p : Phase γ) (c : γ) :
    wokenCount (Function.update ph t p) c + (if ph t = .woken c then 1 else 0) =
      wokenCount ph c + if p = .woken c then 1 else 0 := by
  have h := holderCount_update_mem (f := fun u => (ph u).notified) (v := p.notified) (b := c)
    (Finset.mem_univ t)
  simp only [Phase.notified_eq_some] at h
  rw [wokenCount, wokenCount, ← h]
  congr 1
  refine holderCount_congr ?_
  intro u _
  by_cases he : u = t
  · subst he
    simp
  · simp [Function.update_of_ne he]

/-- The resource that waiters on `c` wait for is spoken for: as long as somebody sleeps on
`c`, enough notified threads are still to come for what there is. -/
def Covered (ph : τ → Phase γ) (c : γ) (resource : ℕ) : Prop :=
  (∃ t, ph t = .asleep c) → resource ≤ wokenCount ph c

omit [DecidableEq τ] in
theorem covered_zero : Covered ph c 0 := fun _ => Nat.zero_le _

/-- A waiter that takes one unit uses up at most one notification. -/
theorem Covered.take {resource : ℕ} (h : Covered ph c (resource + 1)) :
    Covered (Function.update ph t .ready) c resource := by
  intro ⟨u, hu⟩
  have hcount := h ⟨u, asleep_of_update Phase.awake_ready hu⟩
  have := wokenCount_update ph t .ready c
  split_ifs at this <;> simp_all <;> omega

/-- What another thread does with its own wait is of no account. -/
theorem Covered.other {resource : ℕ} (h : Covered ph c resource) (hold : ph t ≠ .woken c)
    (hnew : p ≠ .asleep c) : Covered (Function.update ph t p) c resource := by
  intro ⟨u, hu⟩
  have hcount := wokenCount_update ph t p c
  have hasleep : ph u = .asleep c := by
    by_cases he : u = t
    · subst he
      rw [Function.update_self] at hu
      exact absurd hu hnew
    · rwa [Function.update_of_ne he] at hu
  have := h ⟨u, hasleep⟩
  rw [if_neg hold] at hcount
  omega

theorem Covered.wake {resource : ℕ} (h : Covered ph c resource) (ht : ph t = .asleep d) :
    Covered (Function.update ph t (.woken d)) c resource :=
  h.other (by simp [ht]) (by simp)

theorem Covered.signal {resource : ℕ} (h : Covered ph c resource)
    (hs : Signalled [.one d] ph ph') : Covered ph' c resource := by
  cases hs with
  | one ht hrest =>
    cases hrest
    exact h.wake ht
  | idle _ hrest =>
    cases hrest
    exact h

/-- One more unit is covered by one `notify_one`. -/
theorem Covered.put {resource : ℕ} (h : Covered ph c resource) (hs : Signalled [.one c] ph ph') :
    Covered ph' c (resource + 1) := by
  intro ⟨u, hu⟩
  have hasleep := hs.asleep hu
  have hle := h ⟨u, hasleep⟩
  cases hs with
  | @one _ _ _ _ t ht hrest =>
    cases hrest
    have := wokenCount_update ph t (.woken c) c
    rw [if_neg (by simp [ht]), if_pos rfl] at this
    omega
  | idle hnone hrest => exact absurd hasleep (hnone u)

end woken

end ModCpp.Monitor
