import Mathlib.Data.List.Infix
import Mathlib.Tactic.Common

/-!
# Finite runs of labelled transition systems

A run records the labels of its steps, oldest first. The predicate `ok` admits
a label in view of the labels before it; it carries what a run takes for granted
about its environment or its schedule. Histories of a run are folds over its
labels, so a system needs no ghost fields of its own.
-/

namespace ModCpp

structure System (σ ε : Type*) where
  init : σ → Prop
  step : σ → ε → σ → Prop

namespace System
variable {σ ε : Type*} {S S' : System σ ε} {ok ok' : List ε → ε → Prop}

inductive Run (S : System σ ε) (ok : List ε → ε → Prop) : List ε → σ → Prop
  | start {s : σ} : S.init s → Run S ok [] s
  | step {tr : List ε} {s t : σ} {e : ε} :
      Run S ok tr s → ok tr e → S.step s e t → Run S ok (tr ++ [e]) t

def always : List ε → ε → Prop := fun _ _ => True

instance (tr : List ε) (e : ε) : Decidable (always tr e) := inferInstanceAs (Decidable True)

theorem run_mono (hinit : ∀ s, S.init s → S'.init s)
    (hstep : ∀ s e t, S.step s e t → S'.step s e t) (hok : ∀ tr e, ok tr e → ok' tr e)
    {tr : List ε} {s : σ} (hr : S.Run ok tr s) : S'.Run ok' tr s := by
  induction hr with
  | start hi => exact .start (hinit _ hi)
  | step _ ho hs ih => exact .step ih (hok _ _ ho) (hstep _ _ _ hs)

/-- A property of the labels and the state reached holds in every run as soon as it
holds at the start and one admitted step of a run keeps it. -/
theorem run_invariant {P : List ε → σ → Prop} (hinit : ∀ s, S.init s → P [] s)
    (hstep : ∀ tr s e t, S.Run ok tr s → P tr s → ok tr e → S.step s e t → P (tr ++ [e]) t)
    {tr : List ε} {s : σ} (hr : S.Run ok tr s) : P tr s := by
  induction hr with
  | start hi => exact hinit _ hi
  | step hr hok hs ih => exact hstep _ _ _ _ hr ih hok hs

theorem run_prefix {tr pre : List ε} {s : σ} (hr : S.Run ok tr s) (hp : pre <+: tr) :
    ∃ t, S.Run ok pre t := by
  induction hr with
  | start hi =>
    obtain rfl := List.prefix_nil.mp hp
    exact ⟨_, .start hi⟩
  | step hr hok hs ih =>
    rcases List.prefix_concat_iff.mp hp with rfl | hp
    · exact ⟨_, .step hr hok hs⟩
    · exact ih hp

theorem run_concat {tr : List ε} {e : ε} {t : σ} (hr : S.Run ok (tr ++ [e]) t) :
    ∃ s, S.Run ok tr s ∧ ok tr e ∧ S.step s e t := by
  generalize hl : tr ++ [e] = l at hr
  cases hr with
  | start _ => simp at hl
  | step hr hok hs =>
    obtain ⟨rfl, he⟩ := List.append_inj' hl rfl
    cases he
    exact ⟨_, hr, hok, hs⟩

theorem run_nil {s : σ} (hr : S.Run ok [] s) : S.init s := by
  generalize hl : [] = l at hr
  cases hr with
  | start hi => exact hi
  | step _ _ _ => simp at hl

/-- Where the part `call` of a label determines the step, it determines the run. -/
theorem run_deterministic {γ : Type*} {call : ε → γ}
    (hinit : ∀ s s', S.init s → S.init s' → s' = s)
    (hstep : ∀ s e t e' t', S.step s e t → S.step s e' t' → call e' = call e → e' = e ∧ t' = t)
    {tr tr' : List ε} {s s' : σ} (hr : S.Run ok tr s) (hr' : S.Run ok tr' s')
    (hc : tr'.map call = tr.map call) : tr' = tr ∧ s' = s := by
  induction hr generalizing tr' s' with
  | start hi =>
    obtain rfl := List.map_eq_nil_iff.mp hc
    exact ⟨rfl, hinit _ _ hi (run_nil hr')⟩
  | step _ _ hs ih =>
    rcases List.eq_nil_or_concat tr' with rfl | ⟨pre, e', rfl⟩
    · simp at hc
    · rw [List.concat_eq_append] at hr' hc ⊢
      obtain ⟨u, hru, _, hs'⟩ := run_concat hr'
      rw [List.map_append, List.map_append] at hc
      obtain ⟨hpre, he⟩ := List.append_inj' hc rfl
      obtain ⟨rfl, rfl⟩ := ih hru hpre
      obtain ⟨rfl, rfl⟩ := hstep _ _ _ _ _ hs hs' (List.singleton_injective he)
      exact ⟨rfl, rfl⟩

/-- A run of one system is one of another, where each step is one there or changes nothing. -/
theorem run_simulates {σ' ε' : Type*} {T : System σ' ε'} (label : ε → Option ε')
    {R : List ε → σ → σ' → Prop} (hinit : ∀ s, S.init s → ∃ s', T.init s' ∧ R [] s s')
    (hstep : ∀ tr s e t s', R tr s s' → ok tr e → S.step s e t →
      ∃ t', R (tr ++ [e]) t t' ∧ ((∃ e', label e = some e' ∧ T.step s' e' t') ∨
        label e = none ∧ t' = s'))
    {tr : List ε} {s : σ} (hr : S.Run ok tr s) :
    ∃ s', T.Run always (tr.filterMap label) s' ∧ R tr s s' := by
  induction hr with
  | start hi =>
    obtain ⟨s', hi', hR⟩ := hinit _ hi
    exact ⟨s', .start hi', hR⟩
  | step _ hok hs ih =>
    obtain ⟨s', hr', hR⟩ := ih
    obtain ⟨t', hR', hmove⟩ := hstep _ _ _ _ _ hR hok hs
    refine ⟨t', ?_, hR'⟩
    rw [List.filterMap_append]
    rcases hmove with ⟨e', he, hs'⟩ | ⟨he, rfl⟩
    · rw [List.filterMap_cons_some he, List.filterMap_nil]
      exact .step hr' trivial hs'
    · rwa [List.filterMap_cons_none he, List.filterMap_nil, List.append_nil]

/-- The steps of a system from states that meet a condition. -/
def restrict (S : System σ ε) (cond : σ → ε → Prop) : System σ ε where
  init := S.init
  step s e t := cond s e ∧ S.step s e t

section restrict
variable {cond cond' : σ → ε → Prop} {tr : List ε} {s : σ}

theorem run_of_restrict (hr : (S.restrict cond).Run ok tr s) : S.Run ok tr s := by
  refine run_mono (S := S.restrict cond) ?_ ?_ ?_ hr
  · exact fun _ hi => hi
  · exact fun _ _ _ hs => hs.2
  · exact fun _ _ ho => ho

theorem restrict_of_run (hr : S.Run ok tr s) : (S.restrict fun _ _ => True).Run ok tr s := by
  refine run_mono (S := S) ?_ ?_ ?_ hr
  · exact fun _ hi => hi
  · exact fun _ _ _ hs => ⟨trivial, hs⟩
  · exact fun _ _ ho => ho

/-- An invariant of the steps that meet the condition, with what it makes of the condition. -/
theorem restrict_keeps {Inv : σ → Prop} (hinit : ∀ s, S.init s → Inv s)
    (hstep : ∀ tr s e t, Inv s → ok tr e → S.step s e t → cond s e → Inv t)
    (hcond : ∀ s e, Inv s → cond s e → cond' s e) (hr : (S.restrict cond).Run ok tr s) :
    (S.restrict cond').Run ok tr s ∧ Inv s := by
  induction hr with
  | start hi => exact ⟨.start hi, hinit _ hi⟩
  | step _ hok he ih =>
    obtain ⟨hr, hs⟩ := ih
    exact ⟨.step hr hok ⟨hcond _ _ hs he.1, he.2⟩, hstep _ _ _ _ hs hok he.2 he.1⟩

/-- A property that one step keeps exactly if it meets the condition holds at the end of the
runs all of whose steps do, and of no others. -/
theorem restrict_iff {P : List ε → σ → Prop} (hinit : ∀ s, S.init s → P [] s)
    (hstep : ∀ tr s e t, S.Run ok tr s → ok tr e → S.step s e t →
      (P (tr ++ [e]) t ↔ P tr s ∧ cond s e))
    (hr : S.Run ok tr s) : P tr s ↔ (S.restrict cond).Run ok tr s := by
  constructor
  · intro hP
    induction hr with
    | start hi => exact .start hi
    | step hr hok hs ih =>
      obtain ⟨hP, hc⟩ := (hstep _ _ _ _ hr hok hs).mp hP
      exact .step (ih hP) hok ⟨hc, hs⟩
  · intro hr'
    refine run_invariant (S := S.restrict cond) hinit ?_ hr'
    intro tr s e t hr hP hok hs
    exact (hstep tr s e t (run_of_restrict hr) hok hs.2).mpr ⟨hP, hs.1⟩

theorem restrict_congr {Inv : σ → Prop} (hinit : ∀ s, S.init s → Inv s)
    (hstep : ∀ tr s e t, Inv s → ok tr e → S.step s e t → cond s e → Inv t)
    (hiff : ∀ s e, Inv s → (cond s e ↔ cond' s e)) :
    (S.restrict cond).Run ok tr s ↔ (S.restrict cond').Run ok tr s := by
  constructor
  · intro hr
    exact (restrict_keeps hinit hstep (fun s e hs => (hiff s e hs).mp) hr).1
  · intro hr
    refine (restrict_keeps hinit ?_ (fun s e hs => (hiff s e hs).mpr) hr).1
    intro tr s e t hs hok he hc
    exact hstep tr s e t hs hok he ((hiff s e hs).mpr hc)

def Throughout (S : System σ ε) (ok : List ε → ε → Prop) (P : σ → Prop) (tr : List ε) (s : σ) :
    Prop :=
  (S.restrict fun s _ => P s).Run ok tr s ∧ P s

/-- A property that a step from a state with the invariant violates exactly if it does not meet
the condition. -/
theorem throughout_iff {P Inv : σ → Prop} (hinit : ∀ s, S.init s → Inv s)
    (hP : ∀ s, Inv s → P s)
    (hstep : ∀ tr s e t, Inv s → ok tr e → S.step s e t → cond s e → Inv t)
    (hnot : ∀ tr s e t, Inv s → ok tr e → S.step s e t → ¬ cond s e → ¬ P t) :
    S.Throughout ok P tr s ↔ (S.restrict cond).Run ok tr s := by
  constructor
  · intro ⟨hr, hs⟩
    have hboth : (S.restrict cond).Run ok tr s ∧ Inv s := by
      induction hr with
      | start hi => exact ⟨.start hi, hinit _ hi⟩
      | step _ hok he ih =>
        obtain ⟨hr, hinv⟩ := ih he.1
        have hc := not_not.mp fun hc => hnot _ _ _ _ hinv hok he.2 hc hs
        exact ⟨.step hr hok ⟨hc, he.2⟩, hstep _ _ _ _ hinv hok he.2 hc⟩
    exact hboth.1
  · intro hr
    obtain ⟨hr', hs⟩ := restrict_keeps hinit hstep (fun s _ hs _ => hP s hs) hr
    exact ⟨hr', hP s hs⟩

end restrict

def replay (exec : σ → ε → Option σ) (ok : List ε → ε → Prop) [∀ tr e, Decidable (ok tr e)] :
    List ε → σ → List ε → Option σ
  | _, s, [] => some s
  | done, s, e :: rest =>
    if ok done e then (exec s e).bind fun t => replay exec ok (done ++ [e]) t rest else none

theorem run_of_replay {exec : σ → ε → Option σ} [∀ tr e, Decidable (ok tr e)]
    (hexec : ∀ s e t, exec s e = some t → S.step s e t) {done rest : List ε} {s t : σ}
    (hr : S.Run ok done s) (h : replay exec ok done s rest = some t) :
    S.Run ok (done ++ rest) t := by
  induction rest generalizing done s with
  | nil =>
    cases h
    simpa using hr
  | cons e rest ih =>
    rw [replay] at h
    split_ifs at h with hok
    obtain ⟨u, hu, h⟩ := Option.bind_eq_some_iff.mp h
    simpa using ih (.step hr hok (hexec _ _ _ hu)) h

theorem run_of_exec {exec : σ → ε → Option σ} [∀ tr e, Decidable (ok tr e)]
    (hexec : ∀ s e t, exec s e = some t → S.step s e t) {tr : List ε} {s t : σ} (hi : S.init s)
    (h : replay exec ok [] s tr = some t) : S.Run ok tr t :=
  run_of_replay hexec (.start hi) h

def restrictExec (cond : σ → ε → Prop) [∀ s e, Decidable (cond s e)] (exec : σ → ε → Option σ)
    (s : σ) (e : ε) : Option σ := if cond s e then exec s e else none

theorem restrictExec_step {cond : σ → ε → Prop} [∀ s e, Decidable (cond s e)]
    {exec : σ → ε → Option σ} (hexec : ∀ s e t, exec s e = some t → S.step s e t) (s : σ) (e : ε)
    (t : σ) (h : restrictExec cond exec s e = some t) : (S.restrict cond).step s e t := by
  rw [restrictExec] at h
  split_ifs at h with hc
  exact ⟨hc, hexec s e t h⟩

section guarded
variable {φ : Type*} {init : σ → Prop} {allowed : σ → ε → Prop} {next : σ → ε → Except φ σ}

/-- A step function that may go wrong, on the steps that are allowed. -/
def guarded (init : σ → Prop) (allowed : σ → ε → Prop) (next : σ → ε → Except φ σ) :
    System σ ε where
  init := init
  step s e s' := allowed s e ∧ next s e = .ok s'

def guardedExec (allowed : σ → ε → Prop) [∀ s e, Decidable (allowed s e)]
    (next : σ → ε → Except φ σ) (s : σ) (e : ε) : Option σ :=
  if allowed s e then (next s e).toOption else none

theorem guardedExec_step [∀ s e, Decidable (allowed s e)] (s : σ) (e : ε) (s' : σ)
    (h : guardedExec allowed next s e = some s') : (guarded init allowed next).step s e s' := by
  rw [guardedExec] at h
  split_ifs at h with ha
  refine ⟨ha, ?_⟩
  cases hn : next s e with
  | ok t =>
    rw [hn] at h
    exact congrArg Except.ok (Option.some_inj.mp h)
  | error f =>
    rw [hn] at h
    cases h

theorem guarded_mono {allowed' : σ → ε → Prop} (ha : ∀ s e, allowed s e → allowed' s e)
    {tr : List ε} {s : σ} (hr : (guarded init allowed next).Run ok tr s) :
    (guarded init allowed' next).Run ok tr s := by
  refine run_mono ?_ ?_ (fun _ _ ho => ho) hr
  · exact fun _ hi => hi
  · exact fun s e t hs => ⟨ha s e hs.1, hs.2⟩

end guarded

end System

/-- The moments of a run from the last label that satisfies `starts` on, each given by the
labels up to it. -/
def momentsSince {ε : Type*} (starts : ε → Prop) [DecidablePred starts] (tr : List ε) :
    List (List ε) :=
  tr.inits.filter fun pre => ∀ e ∈ tr.drop pre.length, ¬ starts e

section moments
variable {ε : Type*} {starts : ε → Prop} [DecidablePred starts] {tr pre : List ε} {e : ε}

theorem mem_momentsSince :
    pre ∈ momentsSince starts tr ↔ ∃ rest, tr = pre ++ rest ∧ ∀ e ∈ rest, ¬ starts e := by
  simp only [momentsSince, List.mem_filter, List.mem_inits, decide_eq_true_eq]
  constructor
  · intro ⟨⟨rest, hrest⟩, hno⟩
    refine ⟨rest, hrest.symm, ?_⟩
    rwa [← hrest, List.drop_left] at hno
  · intro ⟨rest, hrest, hno⟩
    rw [hrest, List.drop_left]
    exact ⟨List.prefix_append _ _, hno⟩

theorem self_mem_momentsSince : tr ∈ momentsSince starts tr :=
  mem_momentsSince.mpr ⟨[], by simp, by simp⟩

theorem momentsSince_concat (h : pre ∈ momentsSince starts tr) (he : ¬ starts e) :
    pre ∈ momentsSince starts (tr ++ [e]) := by
  obtain ⟨rest, rfl, hno⟩ := mem_momentsSince.mp h
  refine mem_momentsSince.mpr ⟨rest ++ [e], List.append_assoc .., ?_⟩
  intro x hx
  rcases List.mem_append.mp hx with hx | hx
  · exact hno x hx
  · rwa [List.mem_singleton.mp hx]

end moments

/-- The history a recorder keeps of a run. -/
def history {ε η : Type*} (record : η → ε → η) (h₀ : η) (tr : List ε) : η := tr.foldl record h₀

@[simp] theorem history_nil {ε η : Type*} (record : η → ε → η) (h₀ : η) :
    history record h₀ [] = h₀ := rfl

@[simp] theorem history_concat {ε η : Type*} (record : η → ε → η) (h₀ : η)
    (tr : List ε) (e : ε) :
    history record h₀ (tr ++ [e]) = record (history record h₀ tr) e := by
  simp [history]

theorem getElem?_of_prefix {β : Type*} {l l' : List β} (hp : l <+: l') {k : ℕ} {v : β}
    (hk : l[k]? = some v) : l'[k]? = some v := by
  obtain ⟨rest, rfl⟩ := hp
  rw [List.getElem?_append_left (List.getElem?_eq_some_iff.mp hk).1, hk]

theorem getElem?_concat_cases {β : Type*} {l : List β} {x v : β} {k : ℕ}
    (h : (l ++ [x])[k]? = some v) : l[k]? = some v ∨ k = l.length ∧ x = v := by
  rcases lt_trichotomy k l.length with hlt | rfl | hgt
  · rw [List.getElem?_append_left hlt] at h
    exact .inl h
  · rw [List.getElem?_concat_length] at h
    exact .inr ⟨rfl, Option.some_inj.mp h⟩
  · rw [List.getElem?_eq_none (by simp; omega)] at h
    cases h

/-- Each entry of a log passes `check` in view of the entries before it. -/
def Logged {β : Type*} (check : List β → β → Prop) (l : List β) : Prop :=
  ∀ pre x post, l = pre ++ x :: post → check pre x

theorem logged_nil {β : Type*} {check : List β → β → Prop} : Logged check [] := by
  intro pre x post h
  simp at h

theorem logged_concat {β : Type*} {check : List β → β → Prop} {l : List β} {x : β}
    (hl : Logged check l) (hx : check l x) : Logged check (l ++ [x]) := by
  intro pre y post h
  rcases List.eq_nil_or_concat post with rfl | ⟨post, z, rfl⟩
  · obtain ⟨rfl, hxy⟩ := List.append_inj' h rfl
    cases hxy
    exact hx
  · have h' : l ++ [x] = (pre ++ y :: post) ++ [z] := by simpa using h
    exact hl pre y post (List.append_inj' h' rfl).1

end ModCpp
