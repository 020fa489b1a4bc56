import ModCpp.MachineWord

/-!
# Actions that change a state and may end abnormally

An action that ends with an exception, or with undefined behaviour, leaves the state that it
has reached.
-/

namespace ModCpp

abbrev Action (σ : Type) := ExceptT Failure (StateM σ)

namespace Action
variable {σ α β : Type} {op : Action σ α} {f : α → Action σ β} {s s' : σ}

def exec (op : Action σ α) (s : σ) : Except Failure α × σ := op.run.run s

def failIf (c : Prop) [Decidable c] (e : Failure) : Action σ Unit := if c then throw e else pure ()

/-- Runs the destructors in `cleanup` where `op` ends abnormally. -/
def unwinding (cleanup : Action σ Unit) (op : Action σ α) : Action σ α :=
  tryCatch op fun e => do
    cleanup
    throw e

theorem exec_bind : exec (op >>= f) s =
    match exec op s with
    | (.ok a, s') => exec (f a) s'
    | (.error e, s') => (.error e, s') := by
  have hbind : exec (op >>= f) s = ExceptT.bindCont f (exec op s).1 (exec op s).2 := rfl
  rw [hbind]
  rcases exec op s with ⟨_ | _, _⟩ <;> rfl

theorem exec_ok {a : α} (h : exec op s = (.ok a, s')) : exec (op >>= f) s = exec (f a) s' := by
  rw [exec_bind, h]

theorem exec_error {e : Failure} (h : exec op s = (.error e, s')) :
    exec (op >>= f) s = (.error e, s') := by
  rw [exec_bind, h]

theorem exists_of_exec_bind {b : β} (h : exec (op >>= f) s = (.ok b, s')) :
    ∃ a t, exec op s = (.ok a, t) ∧ exec (f a) t = (.ok b, s') := by
  rcases hop : exec op s with ⟨e | a, t⟩
  · cases (exec_error hop).symm.trans h
  · exact ⟨a, t, rfl, (exec_ok hop).symm.trans h⟩

theorem exec_pure (a : α) : exec (pure a) s = (.ok a, s) := rfl

theorem exec_get (f : σ → Action σ α) : exec (get >>= f) s = exec (f s) s := rfl

theorem exec_modify (g : σ → σ) (f : Unit → Action σ α) :
    exec (modify g >>= f) s = exec (f ()) (g s) := rfl

theorem exec_failIf {c : Prop} [Decidable c] {e : Failure} (h : ¬ c) :
    exec (failIf c e) s = (.ok (), s) := by
  rw [failIf, if_neg h]
  rfl

theorem exec_failIf_error {c : Prop} [Decidable c] {e : Failure} (h : c) :
    exec (failIf c e) s = (.error e, s) := by
  rw [failIf, if_pos h]
  rfl

theorem exec_unwinding {cleanup : Action σ Unit} : exec (unwinding cleanup op) s =
    match exec op s with
    | (.ok a, s') => (.ok a, s')
    | (.error e, s') => exec (cleanup >>= fun _ => throw e) s' := by
  rw [exec, unwinding]
  simp only [tryCatch, tryCatchThe, MonadExceptOf.tryCatch, ExceptT.tryCatch, ExceptT.run,
    ExceptT.mk, StateT.run, bind, StateT.bind, exec]
  rcases op s with ⟨_ | _, _⟩
  · rfl
  · rfl

theorem exec_unwinding_ok {cleanup : Action σ Unit} {a : α} (h : exec op s = (.ok a, s')) :
    exec (unwinding cleanup op) s = (.ok a, s') := by
  rw [exec_unwinding, h]

/-- What holds of the result of an action and of the state that it leaves. -/
def Ensures (op : Action σ α) (s : σ) (Q : Except Failure α → σ → Prop) : Prop :=
  Q (exec op s).1 (exec op s).2

/-- An action that leaves the state as it is; all that can go wrong in it is undefined. -/
def Inert (op : Action σ α) : Prop :=
  ∀ s, (∃ a, exec op s = (.ok a, s)) ∨ ∃ why, exec op s = (.error (.undefined why), s)

theorem inert_pure (a : α) : Inert (pure a : Action σ α) := fun _ => .inl ⟨a, rfl⟩

theorem inert_undefined (why : String) : Inert (throw (.undefined why) : Action σ α) :=
  fun _ => .inr ⟨why, rfl⟩

theorem inert_get : Inert (get : Action σ σ) := fun s => .inl ⟨s, rfl⟩

theorem inert_failIf (c : Prop) [Decidable c] (why : String) :
    Inert (failIf c (.undefined why) : Action σ Unit) := by
  rw [failIf]
  split_ifs
  · exact inert_undefined why
  · exact inert_pure ()

theorem Inert.bind (h : Inert op) (hf : ∀ a, Inert (f a)) : Inert (op >>= f) := by
  intro s
  rcases h s with ⟨a, hop⟩ | ⟨why, hop⟩
  · rw [exec_ok hop]
    exact hf a s
  · rw [exec_error hop]
    exact .inr ⟨why, rfl⟩

/-- However an action ends, what `view` shows of the state is the same as before. -/
def Keeps {γ : Type} (view : σ → γ) (op : Action σ α) : Prop := ∀ s, view (exec op s).2 = view s

section keeps
variable {γ : Type} {view : σ → γ}

theorem Inert.keeps (h : Inert op) : Keeps view op := by
  intro s
  rcases h s with ⟨a, hop⟩ | ⟨why, hop⟩
  · rw [hop]
  · rw [hop]

theorem keeps_failIf (c : Prop) [Decidable c] (e : Failure) :
    Keeps view (failIf c e : Action σ Unit) := by
  intro s
  by_cases hc : c
  · rw [exec_failIf_error hc]
  · rw [exec_failIf hc]

theorem keeps_modify {g : σ → σ} (h : ∀ s, view (g s) = view s) :
    Keeps view (modify g : Action σ Unit) :=
  h

theorem Keeps.bind (h : Keeps view op) (hf : ∀ a, Keeps view (f a)) : Keeps view (op >>= f) := by
  intro s
  have hkept := h s
  rcases hop : exec op s with ⟨e | a, t⟩
  · rw [hop] at hkept
    rw [exec_error hop]
    exact hkept
  · rw [hop] at hkept
    rw [exec_ok hop]
    exact (hf a t).trans hkept

end keeps

section ensures
variable {Q Q' : Except Failure β → σ → Prop}

theorem ensures_of_exec {op : Action σ β} {r : Except Failure β} {t : σ} (h : exec op s = (r, t))
    (hQ : Q r t) : Ensures op s Q := by
  rw [Ensures, h]
  exact hQ

theorem ensures_congr {op op' : Action σ β} (h : exec op s = exec op' s') (h' : Ensures op' s' Q) :
    Ensures op s Q := by
  rw [Ensures, h]
  exact h'

theorem ensures_bind (h : Ensures op s fun r s' => match r with
      | .ok a => Ensures (f a) s' Q
      | .error e => Q (.error e) s') : Ensures (op >>= f) s Q := by
  rw [Ensures] at h ⊢
  rw [exec_bind]
  rcases hop : exec op s with ⟨_ | _, s'⟩
  · rw [hop] at h
    exact h
  · rw [hop] at h
    exact h

theorem Inert.ensures (hop : Inert op) (hok : ∀ a, exec op s = (.ok a, s) → Ensures (f a) s Q)
    (herror : ∀ why, Q (.error (.undefined why)) s) : Ensures (op >>= f) s Q := by
  rcases hop s with ⟨a, ha⟩ | ⟨why, hwhy⟩
  · rw [Ensures, exec_ok ha]
    exact hok a ha
  · rw [Ensures, exec_error hwhy]
    exact herror why

theorem ensures_failIf {c : Prop} [Decidable c] {e : Failure} {f : Unit → Action σ β}
    (herror : c → Q (.error e) s) (hok : ¬ c → Ensures (f ()) s Q) :
    Ensures (failIf c e >>= f) s Q := by
  by_cases hc : c
  · rw [Ensures, exec_error (exec_failIf_error hc)]
    exact herror hc
  · rw [Ensures, exec_ok (exec_failIf hc)]
    exact hok hc

theorem Ensures.mono {op : Action σ β} (h : Ensures op s Q) (hQ : ∀ r t, Q r t → Q' r t) :
    Ensures op s Q' :=
  hQ _ _ h

end ensures

end Action

end ModCpp
