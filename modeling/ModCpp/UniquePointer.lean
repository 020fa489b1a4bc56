import ModCpp.Handles
import ModCpp.MachineWord
import ModCpp.Runs

/-!
# The unique pointer

`unique_pointer<T>` takes over a raw pointer and passes it on when it is moved. It has no
destructor of its own, and an assignment does not look at what it overwrites, so an object whose
pointer ends or is assigned to stays for good.
-/

namespace ModCpp

structure UniquePointer (ι : Type) where
  data : Option ι

namespace UniquePointer

structure Program (σ ι T : Type) where
  var : σ → Option (UniquePointer ι)
  heap : ι → Option T

/-- `raw` is the object that `new` has just made for the constructor, or null. -/
inductive Event (σ ι T : Type)
  | construct (x : σ) (raw : Option (ι × T))
  | moveConstruct (x y : σ)
  | moveAssign (x y : σ)
  | write (x : σ) (val : T)
  | destroy (x : σ)

def Event.taken {σ ι T : Type} : Event σ ι T → Option ι
  | .construct _ raw => raw.map Prod.fst
  | .moveConstruct _ _ | .moveAssign _ _ | .write _ _ | .destroy _ => none

namespace Program
variable {σ ι T : Type} {p p' : Program σ ι T} {x y : σ} {a b : ι} {this rhs : UniquePointer ι}

def empty : Program σ ι T := ⟨fun _ => none, fun _ => none⟩

def object (p : Program σ ι T) (x : σ) : Except Failure (UniquePointer ι) :=
  match p.var x with
  | none => throw (.undefined "variable that is not alive")
  | some this => pure this

/-- `operator*`: the object that the reference is to. -/
def deref (p : Program σ ι T) (this : UniquePointer ι) : Except Failure ι :=
  match this.data with
  | none => throw (.undefined "null pointer")
  | some a => match p.heap a with
    | none => throw (.undefined "access to an object that is not alive")
    | some _ => pure a

def holds (p : Program σ ι T) (x : σ) : Option ι := (p.var x).bind UniquePointer.data

def Lost (p : Program σ ι T) (a : ι) : Prop := p.heap a ≠ none ∧ ¬ Handles.Held p.holds a

def Drops (p : Program σ ι T) (a : ι) : Event σ ι T → Prop
  | .moveAssign x y => x ≠ y ∧ p.holds x = some a
  | .destroy x => p.holds x = some a
  | .construct _ _ | .moveConstruct _ _ | .write _ _ => False

theorem holds_of_none (hx : p.var x = none) : p.holds x = none := by
  rw [holds, hx, Option.bind_none]

theorem holds_of_some (hx : p.var x = some this) : p.holds x = this.data := by
  rw [holds, hx, Option.bind_some]

theorem object_of (hx : p.var x = some this) : p.object x = .ok this := by
  rw [object, hx]
  rfl

theorem deref_of (hdata : this.data = some a) (ha : p.heap a ≠ none) : p.deref this = .ok a := by
  obtain ⟨val, ha⟩ := Option.ne_none_iff_exists'.mp ha
  simp only [deref, hdata, ha]
  rfl

theorem lost_of_giving_up (hlive : Handles.Held p.holds b → p.heap b ≠ none)
    (hheap : p'.heap = p.heap)
    (hheld : Handles.Held p'.holds b ↔ Handles.Held p.holds b ∧ p.holds x ≠ some b) :
    p'.Lost b ↔ p.Lost b ∨ p.holds x = some b := by
  rw [Lost, hheap, hheld]
  constructor
  · rintro ⟨hb, hnot⟩
    by_cases hx : p.holds x = some b
    · exact .inr hx
    · exact .inl ⟨hb, fun hheld => hnot ⟨hheld, hx⟩⟩
  · rintro (⟨hb, hfree⟩ | hx)
    · exact ⟨hb, fun hboth => hfree hboth.1⟩
    · exact ⟨hlive ⟨x, hx⟩, fun hboth => hboth.2 hx⟩

section put
variable [DecidableEq σ]

def put (p : Program σ ι T) (x : σ) (this : UniquePointer ι) : Program σ ι T :=
  { p with var := Function.update p.var x (some this) }

theorem holds_put : (p.put x this).holds = Function.update p.holds x this.data := by
  funext z
  simp only [holds, put, Function.update_apply]
  split_ifs
  · rfl
  · rfl

theorem holds_destroy :
    ({ p with var := Function.update p.var x none } : Program σ ι T).holds =
      Handles.drop p.holds x := by
  funext z
  rw [holds, Handles.drop_apply]
  simp only [Function.update_apply]
  split_ifs
  · rfl
  · rfl

theorem moved_holds (hy : p.var y = some rhs) :
    ((p.put y ⟨none⟩).put x ⟨rhs.data⟩).holds = Handles.transfer p.holds x y := by
  rw [holds_put, holds_put, Handles.transfer, holds_of_some hy]

end put

variable [DecidableEq σ] [DecidableEq ι] {e : Event σ ι T} {tr : List (Event σ ι T)}

def new (p : Program σ ι T) (a : ι) (val : T) : Program σ ι T :=
  { p with heap := Function.update p.heap a (some val) }

def exec (p : Program σ ι T) : Event σ ι T → Except Failure (Program σ ι T)
  | .construct x none => pure (p.put x ⟨none⟩)
  | .construct x (some (a, val)) => pure ((p.new a val).put x ⟨some a⟩)
  | .moveConstruct x y => do
    let rhs ← p.object y
    pure ((p.put y ⟨none⟩).put x ⟨rhs.data⟩)
  | .moveAssign x y =>
    if x = y then pure p
    else do
      let rhs ← p.object y
      pure ((p.put y ⟨none⟩).put x ⟨rhs.data⟩)
  | .write x val => do
    let this ← p.object x
    let a ← p.deref this
    pure (p.new a val)
  | .destroy x => pure { p with var := Function.update p.var x none }

/-- A new variable is not alive before, and `new` gives an address that is not in use. -/
def Admissible (p : Program σ ι T) : Event σ ι T → Prop
  | .construct x raw => p.var x = none ∧ ∀ a ∈ raw.map Prod.fst, p.heap a = none
  | .moveConstruct x y => p.var x = none ∧ (p.var y).isSome
  | .moveAssign x y => (p.var x).isSome ∧ (p.var y).isSome
  | .write x _ => (p.var x).isSome
  | .destroy x => (p.var x).isSome

def programs (σ ι T : Type) [DecidableEq σ] [DecidableEq ι] :
    System (Program σ ι T) (Event σ ι T) :=
  System.guarded (fun p => p = empty) Admissible exec

inductive Step (p : Program σ ι T) : Event σ ι T → Program σ ι T → Prop
  | null {x : σ} {p' : Program σ ι T} : p'.holds = p.holds → p'.heap = p.heap →
      Step p (.construct x none) p'
  | made {x : σ} {a : ι} {val : T} {p' : Program σ ι T} : p.holds x = none → p.heap a = none →
      p'.holds = Handles.acquire p.holds x a → p'.heap = Function.update p.heap a (some val) →
      Step p (.construct x (some (a, val))) p'
  | moved {x y : σ} {p' : Program σ ι T} : x ≠ y → p.holds x = none →
      p'.holds = Handles.transfer p.holds x y → p'.heap = p.heap → Step p (.moveConstruct x y) p'
  | same {x : σ} : Step p (.moveAssign x x) p
  | assigned {x y : σ} {p' : Program σ ι T} : x ≠ y →
      p'.holds = Handles.transfer p.holds x y → p'.heap = p.heap → Step p (.moveAssign x y) p'
  | written {x : σ} {a : ι} {val : T} {p' : Program σ ι T} : p.heap a ≠ none →
      p'.holds = p.holds → p'.heap = Function.update p.heap a (some val) → Step p (.write x val) p'
  | destroyed {x : σ} {p' : Program σ ι T} : p'.holds = Handles.drop p.holds x →
      p'.heap = p.heap → Step p (.destroy x) p'

theorem step_cases (h : (programs σ ι T).step p e p') : Step p e p' := by
  obtain ⟨ha, he⟩ := h
  cases e with
  | construct x raw =>
    obtain ⟨hx, hraw⟩ := ha
    have hnone := holds_of_none hx
    cases raw with
    | none =>
      cases he
      refine .null ?_ rfl
      rw [holds_put]
      exact Handles.drop_of_none hnone
    | some object =>
      cases he
      exact .made hnone (hraw _ rfl) holds_put rfl
  | moveConstruct x y =>
    obtain ⟨hx, hy⟩ := ha
    obtain ⟨rhs, hy⟩ := Option.isSome_iff_exists.mp hy
    rw [exec, object_of hy] at he
    cases he
    refine .moved ?_ (holds_of_none hx) (moved_holds hy) rfl
    rintro rfl
    cases hx.symm.trans hy
  | moveAssign x y =>
    obtain ⟨-, hy⟩ := ha
    obtain ⟨rhs, hy⟩ := Option.isSome_iff_exists.mp hy
    rw [exec] at he
    split_ifs at he with hxy
    · cases he
      rw [hxy]
      exact .same
    · rw [object_of hy] at he
      cases he
      exact .assigned hxy (moved_holds hy) rfl
  | write x val =>
    obtain ⟨this, hx⟩ := Option.isSome_iff_exists.mp ha
    rw [exec, object_of hx, ok_bind rfl, deref] at he
    rcases hdata : this.data with _ | a
    · rw [hdata] at he
      cases he
    · rcases hheap : p.heap a with _ | old
      · simp only [hdata, hheap] at he
        cases he
      · simp only [hdata, hheap] at he
        cases he
        refine .written (a := a) ?_ rfl rfl
        rw [hheap]
        exact Option.some_ne_none old
  | destroy x =>
    cases he
    exact .destroyed holds_destroy rfl

structure Sound (p : Program σ ι T) : Prop where
  exclusive : Handles.Exclusive p.holds
  live : ∀ a, Handles.Held p.holds a → p.heap a ≠ none

theorem update_heap_ne {heap : ι → Option T} {val : T} {b : ι} :
    Function.update heap a (some val) b ≠ none ↔ b = a ∨ heap b ≠ none := by
  by_cases hb : b = a
  · simp [hb]
  · simp [hb]

theorem Step.sound (hs : Step p e p') (h : Sound p) : Sound p' := by
  cases hs with
  | null hholds hheap =>
    refine ⟨?_, ?_⟩
    · rw [hholds]
      exact h.exclusive
    · rw [hholds, hheap]
      exact h.live
  | made hx hfresh hholds hheap =>
    refine ⟨?_, fun b hb => ?_⟩
    · rw [hholds]
      exact h.exclusive.acquire fun hheld => h.live _ hheld hfresh
    · rw [hholds, Handles.held_acquire hx] at hb
      rw [hheap, update_heap_ne]
      exact hb.imp_right (h.live b)
  | moved hne _ hholds hheap | assigned hne hholds hheap =>
    refine ⟨?_, fun b hb => ?_⟩
    · rw [hholds]
      exact h.exclusive.transfer
    · rw [hholds, h.exclusive.held_transfer hne] at hb
      rw [hheap]
      exact h.live b hb.1
  | same => exact h
  | written hlive hholds hheap =>
    refine ⟨?_, fun b hb => ?_⟩
    · rw [hholds]
      exact h.exclusive
    · rw [hholds] at hb
      rw [hheap, update_heap_ne]
      exact .inr (h.live b hb)
  | destroyed hholds hheap =>
    refine ⟨?_, fun b hb => ?_⟩
    · rw [hholds]
      exact h.exclusive.drop
    · rw [hholds, h.exclusive.held_drop] at hb
      rw [hheap]
      exact h.live b hb.1

/-- An object is lost when its pointer ends or is overwritten, and it stays lost. -/
theorem Step.lost_iff (hs : Step p e p') (h : Sound p) (b : ι) :
    p'.Lost b ↔ p.Lost b ∨ p.Drops b e := by
  cases hs with
  | null hholds hheap =>
    rw [Lost, hholds, hheap]
    exact (or_iff_left id).symm
  | made hx hfresh hholds hheap =>
    rw [Lost, hholds, hheap, update_heap_ne, Handles.held_acquire hx]
    constructor
    · rintro ⟨hb | hb, hnot⟩
      · exact absurd (.inl hb) hnot
      · exact .inl ⟨hb, fun hheld => hnot (.inr hheld)⟩
    · rintro (⟨hb, hfree⟩ | hdrops)
      · refine ⟨.inr hb, ?_⟩
        rintro (rfl | hheld)
        · exact hb hfresh
        · exact hfree hheld
      · cases hdrops
  | moved hne hx hholds hheap =>
    rw [lost_of_giving_up (h.live b) hheap (hholds ▸ h.exclusive.held_transfer hne), hx]
    exact or_congr_right ⟨fun hnone => (Option.some_ne_none b hnone.symm).elim, False.elim⟩
  | same => exact (or_iff_left fun hdrops => hdrops.1 rfl).symm
  | assigned hne hholds hheap =>
    rw [lost_of_giving_up (h.live b) hheap (hholds ▸ h.exclusive.held_transfer hne)]
    exact or_congr_right ⟨fun hx => ⟨hne, hx⟩, fun hdrops => hdrops.2⟩
  | written hlive hholds hheap =>
    rw [Lost, hholds, hheap, update_heap_ne, or_iff_right_of_imp fun hb => hb ▸ hlive]
    exact (or_iff_left id).symm
  | destroyed hholds hheap =>
    exact lost_of_giving_up (h.live b) hheap (hholds ▸ h.exclusive.held_drop)

theorem Step.heap_iff (hs : Step p e p') (b : ι) :
    p'.heap b ≠ none ↔ p.heap b ≠ none ∨ e.taken = some b := by
  cases hs with
  | made hx hfresh hholds hheap =>
    rw [hheap, update_heap_ne, or_comm]
    exact or_congr_right ⟨fun hb => hb ▸ rfl, fun hb => (Option.some_inj.mp hb).symm⟩
  | written hlive hholds hheap =>
    rw [hheap, update_heap_ne, or_iff_right_of_imp fun hb => hb ▸ hlive]
    exact (or_iff_left (by intro hb; cases hb)).symm
  | null hholds hheap | moved _ _ hholds hheap | assigned _ hholds hheap
  | destroyed hholds hheap =>
    rw [hheap]
    exact (or_iff_left (by intro hb; cases hb)).symm
  | same => exact (or_iff_left (by intro hb; cases hb)).symm

theorem Sound.exec (h : Sound p) (ha : p.Admissible e) : (∃ p', p.exec e = .ok p') ∨
    ∃ x val, e = .write x val ∧ p.holds x = none := by
  cases e with
  | construct x raw => cases raw <;> exact .inl ⟨_, rfl⟩
  | moveConstruct x y =>
    obtain ⟨rhs, hy⟩ := Option.isSome_iff_exists.mp ha.2
    exact .inl ⟨_, ok_bind (object_of hy)⟩
  | moveAssign x y =>
    obtain ⟨rhs, hy⟩ := Option.isSome_iff_exists.mp ha.2
    rw [Program.exec]
    split_ifs
    · exact .inl ⟨p, rfl⟩
    · exact .inl ⟨_, ok_bind (object_of hy)⟩
  | write x val =>
    obtain ⟨this, hx⟩ := Option.isSome_iff_exists.mp ha
    rcases hdata : this.data with _ | a
    · exact .inr ⟨x, val, rfl, (holds_of_some hx).trans hdata⟩
    · have hlive := h.live a ⟨x, (holds_of_some hx).trans hdata⟩
      exact .inl ⟨_, (ok_bind (object_of hx)).trans (ok_bind (deref_of hdata hlive))⟩
  | destroy x => exact .inl ⟨_, rfl⟩

theorem run_sound (hr : (programs σ ι T).Run System.always tr p) :
    Sound p ∧ ∀ a, p.heap a ≠ none ↔ a ∈ tr.filterMap Event.taken := by
  induction hr with
  | start hi =>
    cases hi
    refine ⟨⟨Handles.exclusive_none, fun a ha => absurd ha Handles.not_held_none⟩, fun a => ?_⟩
    simp [empty]
  | step _ _ hstep ih =>
    obtain ⟨hsound, hmade⟩ := ih
    have hs := step_cases hstep
    refine ⟨hs.sound hsound, fun a => ?_⟩
    rw [hs.heap_iff, hmade, List.filterMap_append, List.mem_append]
    simp

/-- An object has at most one pointer, it lives as long as the program, and it is lost exactly by
the assignments over its pointer and by the end of its pointer. Only a dereference of a null or
moved-from pointer is undefined. -/
theorem objects_leak (hr : (programs σ ι T).Run System.always tr p) :
    (∀ x y a, p.holds x = some a → p.holds y = some a → x = y) ∧
      (∀ a, p.heap a ≠ none ↔ a ∈ tr.filterMap Event.taken) ∧
      (∀ e p', (programs σ ι T).step p e p' → ∀ a, p'.Lost a ↔ p.Lost a ∨ p.Drops a e) ∧
      ∀ e, p.Admissible e → (∃ p', p.exec e = .ok p') ∨
        ∃ x val, e = .write x val ∧ p.holds x = none := by
  obtain ⟨hs, hmade⟩ := run_sound hr
  refine ⟨hs.exclusive, hmade, fun e p' hstep a => ?_, fun e ha => hs.exec ha⟩
  exact (step_cases hstep).lost_iff hs a

instance (p : Program σ ι T) : DecidablePred p.Admissible
  | .construct _ _ | .moveConstruct _ _ | .moveAssign _ _ => inferInstanceAs (Decidable (_ ∧ _))
  | .write _ _ | .destroy _ => inferInstanceAs (Decidable (_ = _))

/-- An object that was passed on once and whose second pointer ends. -/
theorem objects_leak_sample : ∃ p p' : Program ℕ ℕ ℕ, p.holds 0 = none ∧ p.holds 1 = some 7 ∧
    (programs ℕ ℕ ℕ).step p (.destroy 1) p' ∧ p'.Lost 7 := by
  have hr : ∃ p, (programs ℕ ℕ ℕ).Run System.always
      [.construct 0 (some (7, 24)), .moveConstruct 1 0] p ∧ p.holds 0 = none ∧ p.holds 1 = some 7 ∧
      p.Admissible (.destroy 1) :=
    ⟨_, System.run_of_exec System.guardedExec_step rfl rfl, rfl, rfl, by exact rfl⟩
  obtain ⟨p, hr, hfrom, hto, ha⟩ := hr
  have hstep : (programs ℕ ℕ ℕ).step p (.destroy 1) _ := ⟨ha, rfl⟩
  obtain ⟨-, -, hlost, -⟩ := objects_leak hr
  exact ⟨p, _, hfrom, hto, hstep, (hlost _ _ hstep 7).mpr (.inr hto)⟩

end Program

end UniquePointer

end ModCpp
