import ModCpp.Runs
import Mathlib.Data.List.Count
import Mathlib.Data.List.Perm.Basic

/-!
# The new handler that an allocation puts back

`custom_new_handler<T>::operator new` of crtp.cc installs `my_new_handler` for the time of
the allocation. A `new_handler_wrapper` exchanges the handler of the process for it, keeps
the old one, and puts that back when it is destroyed, also while an exception leaves the
call. The calls of all threads share the one handler.
-/

namespace ModCpp.NewHandler

inductive Handler
  | null
  | myNewHandler
  | other (address : ℕ)
  deriving DecidableEq, Repr

structure NewHandlerWrapper where
  oldHandle : Handler
  deriving DecidableEq, Repr

/-- Where a call is: in the global `operator new`, or past it with the wrapper still alive. -/
inductive Phase
  | allocating
  | leaving
  deriving DecidableEq, Repr

structure Call where
  wrapper : NewHandlerWrapper
  phase : Phase
  deriving DecidableEq, Repr

/-- The handler of the process and the calls in progress, those of a thread with the
innermost first. -/
structure World (ι : Type*) where
  handler : Handler
  calls : List (ι × Call)

section steps
variable {ι : Type*}

/-- `std::set_new_handler`, which returns the handler it replaces. -/
def setNewHandler (w : World ι) (newHandle : Handler) : World ι × Handler :=
  ({ w with handler := newHandle }, w.handler)

/-- Prints and forwards. -/
def setNewHandlerWrapper (w : World ι) (newHandle : Handler) : World ι × Handler :=
  setNewHandler w newHandle

def NewHandlerWrapper.construct (w : World ι) (handle : Handler) : World ι × NewHandlerWrapper :=
  let (w, old) := setNewHandlerWrapper w handle
  (w, ⟨old⟩)

def NewHandlerWrapper.destroy (w : World ι) (wrapper : NewHandlerWrapper) : World ι :=
  (setNewHandlerWrapper w wrapper.oldHandle).1

variable [DecidableEq ι]

def innermost (t : ι) : List (ι × Call) → Option (Call × List (ι × Call))
  | [] => none
  | c :: rest =>
    if c.1 = t then some (c.2, rest)
    else (innermost t rest).map fun found => (found.1, c :: found.2)

inductive Derived
  | A
  | B
  deriving DecidableEq, Repr

/-- The steps of a thread in a call: the constructor of the wrapper, a call of the installed
handler by the global `operator new` after an attempt that failed, the end of that operator,
with memory or with `std::bad_alloc`, and the destructor of the wrapper. -/
inductive Event (ι : Type*)
  | enter (t : ι) (cls : Derived)
  | handle (t : ι)
  | finish (t : ι) (succeeds : Bool)
  | leave (t : ι)
  deriving DecidableEq, Repr

def next (w : World ι) : Event ι → Option (World ι)
  | .enter t _ =>
    -- a thread in a call enters another one only from a handler
    if ∀ c ∈ innermost t w.calls, c.1.phase = .allocating then
      let (w, wrapper) := NewHandlerWrapper.construct w .myNewHandler
      some { w with calls := (t, ⟨wrapper, .allocating⟩) :: w.calls }
    else none
  | .handle t =>
    match innermost t w.calls with
    | some (⟨_, .allocating⟩, _) => if w.handler ≠ .null then some w else none
    | _ => none
  | .finish t succeeds =>
    match innermost t w.calls with
    | some (⟨wrapper, .allocating⟩, rest) =>
      if succeeds ∨ w.handler = .null then
        some { w with calls := (t, ⟨wrapper, .leaving⟩) :: rest }
      else none
    | _ => none
  | .leave t =>
    match innermost t w.calls with
    | some (⟨wrapper, .leaving⟩, rest) => some { wrapper.destroy w with calls := rest }
    | _ => none

/-- Threads that allocate in any interleaving, where `h₀` was installed before. -/
def system (ι : Type*) [DecidableEq ι] (h₀ : Handler) : System (World ι) (Event ι) where
  init w := w = ⟨h₀, []⟩
  step w e w' := next w e = some w'

def Orderly (w : World ι) : Event ι → Prop
  | .leave _ => w.handler = .myNewHandler
  | _ => True

instance (w : World ι) : (e : Event ι) → Decidable (Orderly w e)
  | .leave _ => inferInstanceAs (Decidable (_ = _))
  | .enter _ _ | .handle _ | .finish _ _ => inferInstanceAs (Decidable True)

end steps

section handlers
variable {ι : Type*} {w w' : World ι} {e : Event ι} {tr : List (Event ι)} {h₀ h : Handler}

/-- The handler of the process and those that calls are to put back. -/
def handlers (w : World ι) : List Handler :=
  w.handler :: w.calls.map fun c => c.2.wrapper.oldHandle

variable [DecidableEq ι]

theorem perm_of_innermost {t : ι} {calls rest : List (ι × Call)} {c : Call}
    (h : innermost t calls = some (c, rest)) : calls.Perm ((t, c) :: rest) := by
  induction calls generalizing rest with
  | nil => cases h
  | cons d calls ih =>
    rw [innermost] at h
    split_ifs at h with hd
    · cases h
      exact .of_eq (by rw [← hd])
    · obtain ⟨found, hfound, he⟩ := Option.map_eq_some_iff.mp h
      cases he
      exact ((ih hfound).cons d).trans (.swap _ _ _)

theorem next_handlers (hs : next w e = some w') :
    (∃ t cls, e = .enter t cls ∧ handlers w' = .myNewHandler :: handlers w) ∨
    (∃ t, e = .leave t ∧ (handlers w).Perm (w.handler :: handlers w')) ∨
    Orderly w e ∧ (handlers w').Perm (handlers w) := by
  cases e with
  | enter t cls =>
    rw [next] at hs
    split_ifs at hs
    obtain rfl := Option.some_inj.mp hs
    exact .inl ⟨t, cls, rfl, rfl⟩
  | handle t =>
    simp only [next] at hs
    split at hs
    · split_ifs at hs
      obtain rfl := Option.some_inj.mp hs
      exact .inr (.inr ⟨trivial, .rfl⟩)
    · cases hs
  | finish t succeeds =>
    simp only [next] at hs
    split at hs
    · rename_i wrapper rest hfound
      split_ifs at hs
      obtain rfl := Option.some_inj.mp hs
      have hperm := (perm_of_innermost hfound).map fun c => c.2.wrapper.oldHandle
      exact .inr (.inr ⟨trivial, (hperm.cons w.handler).symm⟩)
    · cases hs
  | leave t =>
    simp only [next] at hs
    split at hs
    · rename_i wrapper rest hfound
      obtain rfl := Option.some_inj.mp hs
      have hperm := (perm_of_innermost hfound).map fun c => c.2.wrapper.oldHandle
      exact .inr (.inl ⟨t, rfl, hperm.cons w.handler⟩)
    · cases hs

/-- Beside `my_new_handler` there is at most the handler `h₀`, and that at most once. -/
structure Sound (h₀ : Handler) (w : World ι) : Prop where
  mem : ∀ h ∈ handlers w, h = h₀ ∨ h = .myNewHandler
  count_le : h₀ ≠ .myNewHandler → (handlers w).count h₀ ≤ 1

theorem run_sound (hr : (system ι h₀).Run System.always tr w) : Sound h₀ w := by
  refine System.run_invariant (P := fun _ w => Sound h₀ w) ?_ ?_ hr
  · intro w hw
    subst hw
    refine ⟨by simp [handlers], ?_⟩
    intro _
    simp [handlers]
  · intro tr w e w' _ hw _ hs
    rcases next_handlers hs with ⟨t, cls, _, he⟩ | ⟨t, _, hp⟩ | ⟨_, hp⟩
    · refine ⟨?_, ?_⟩
      · rw [he, List.forall_mem_cons]
        exact ⟨.inr rfl, hw.mem⟩
      · intro hne
        rw [he, List.count_cons_of_ne hne.symm]
        exact hw.count_le hne
    · refine ⟨fun h hh => hw.mem h (hp.mem_iff.mpr (List.mem_cons_of_mem _ hh)), ?_⟩
      intro hne
      exact ((List.sublist_cons_self _ _).count_le h₀).trans
        ((hp.count_eq h₀).symm.le.trans (hw.count_le hne))
    · refine ⟨fun h hh => hw.mem h (hp.mem_iff.mp hh), ?_⟩
      intro hne
      rw [hp.count_eq]
      exact hw.count_le hne

/-- A step keeps `h₀` among the handlers unless a call ends while `h₀` is installed. -/
theorem Sound.mem_next (hw : Sound h₀ w) (hs : next w e = some w') :
    h₀ ∈ handlers w' ↔ h₀ ∈ handlers w ∧ Orderly w e := by
  rcases next_handlers hs with ⟨t, cls, rfl, he⟩ | ⟨t, rfl, hp⟩ | ⟨ho, hp⟩
  · rw [he, List.mem_cons]
    refine ⟨?_, fun h => .inr h.1⟩
    intro hm
    refine ⟨hm.elim (fun h => ?_) id, trivial⟩
    rcases hw.mem w.handler (List.mem_cons_self ..) with h' | h'
    · exact h' ▸ List.mem_cons_self ..
    · rw [h, ← h']
      exact List.mem_cons_self ..
  · have hhandler : w.handler = h₀ ∨ w.handler = .myNewHandler :=
      hw.mem _ (List.mem_cons_self ..)
    rw [hp.mem_iff, List.mem_cons]
    constructor
    · intro hm
      refine ⟨.inr hm, ?_⟩
      rcases hhandler with he | he
      · by_contra hne
        have hle := hw.count_le (he ▸ hne)
        rw [hp.count_eq, he, List.count_cons_self] at hle
        have hpos := List.count_pos_iff.mpr hm
        omega
      · exact he
    · intro hm
      obtain ⟨hm, ho⟩ := hm
      have ho : w.handler = .myNewHandler := ho
      rcases hm with he | hm
      · -- all handlers are the same one
        have hfirst : w'.handler ∈ handlers w' := List.mem_cons_self ..
        rcases hw.mem _ (hp.mem_iff.mpr (List.mem_cons_of_mem _ hfirst)) with h' | h'
        · exact h' ▸ hfirst
        · rw [he, ho, ← h']
          exact hfirst
      · exact hm
  · rw [hp.mem_iff]
    exact ⟨fun hm => ⟨hm, ho⟩, fun hm => hm.1⟩

/-- When no call is in progress the handler is the one installed before the first call or
`my_new_handler`, and it is the former exactly if each call ended while `my_new_handler`
was installed. -/
theorem handler_restored (hr : (system ι h₀).Run System.always tr w) (hidle : w.calls = []) :
    (w.handler = h₀ ∨ w.handler = .myNewHandler) ∧
    (w.handler = h₀ ↔ ((system ι h₀).restrict Orderly).Run System.always tr w) := by
  refine ⟨(run_sound hr).mem _ (List.mem_cons_self ..), ?_⟩
  have hmem : h₀ ∈ handlers w ↔ w.handler = h₀ := by
    rw [handlers, hidle, List.map_nil, List.mem_singleton]
    exact eq_comm
  rw [← hmem]
  refine System.restrict_iff (P := fun _ w => h₀ ∈ handlers w) ?_ ?_ hr
  · intro w hw
    subst hw
    exact List.mem_cons_self ..
  · intro tr w e w' hr _ hs
    exact (run_sound hr).mem_next hs

end handlers

/-- Two calls of one thread, the second in a handler that the first one calls, beside a call of
another thread. -/
theorem handler_restored_sample : ∃ w,
    (system ℕ (.other 7)).Run System.always
      [.enter 0 .A, .enter 1 .B, .handle 0, .enter 0 .B, .finish 0 true, .finish 1 true, .leave 1,
        .leave 0, .finish 0 true, .leave 0] w ∧ w.handler = .other 7 := by
  have hr : ∃ w, ((system ℕ (.other 7)).restrict Orderly).Run System.always
      [.enter 0 .A, .enter 1 .B, .handle 0, .enter 0 .B, .finish 0 true, .finish 1 true, .leave 1,
        .leave 0, .finish 0 true, .leave 0] w ∧ w.calls = [] :=
    ⟨_, System.run_of_exec (System.restrictExec_step fun _ _ _ h => h) rfl rfl, rfl⟩
  obtain ⟨w, hr, hidle⟩ := hr
  have hrun := System.run_of_restrict hr
  exact ⟨w, hrun, (handler_restored hrun hidle).2.mpr hr⟩

/-- Two threads whose calls overlap, the first to enter being the first to leave. -/
theorem handler_restored_fails : ¬ ∀ (h₀ : Handler) (tr : List (Event ℕ)) (w : World ℕ),
    (system ℕ h₀).Run System.always tr w → w.calls = [] → w.handler = h₀ := by
  intro hall
  have hr : ∃ w, (system ℕ .null).Run System.always
      [.enter 0 .A, .enter 1 .B, .finish 0 true, .leave 0, .finish 1 true, .leave 1] w ∧
        w.calls = [] ∧ w.handler = .myNewHandler :=
    ⟨_, System.run_of_exec (fun _ _ _ h => h) rfl rfl, rfl, rfl⟩
  obtain ⟨w, hr, hidle, hlost⟩ := hr
  have hkept := hall .null _ w hr hidle
  rw [hlost] at hkept
  cases hkept

end ModCpp.NewHandler
