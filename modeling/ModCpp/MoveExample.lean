import ModCpp.Handles
import ModCpp.Ledger
import ModCpp.MachineWord
import ModCpp.Runs

/-!
# A class with a copying and a moving constructor

Each object of the class `A` of `move_constructor_example1` has an `int` of its own: a new one
when it is constructed or copied, and that of another object when it is moved. The destructor
deletes it.
-/

namespace ModCpp.MoveExample

structure A (ι : Type) where
  pointer : Option ι
  val : ℤ

/-- An object with an `int` of its own, or with none. -/
def A.holding {ι : Type} (pointer : Option ι) : A ι := ⟨pointer, pointer.elim 0 fun _ => 1⟩

structure Program (σ ι : Type) where
  var : σ → Option (A ι)
  heap : ι → Option ℤ
  log : Ledger ι

inductive Event (σ ι : Type)
  | construct (x : σ) (a : ι)
  | copy (x y : σ) (a : ι)
  | move (x y : σ)
  | destroy (x : σ)

namespace Program
variable {σ ι : Type} {p p' : Program σ ι} {x y : σ} {a b : ι} {this rhs : A ι} {n : ℤ}

def empty : Program σ ι := ⟨fun _ => none, fun _ => none, []⟩

def object (p : Program σ ι) (x : σ) : Except Failure (A ι) :=
  match p.var x with
  | none => throw (.undefined "variable that is not alive")
  | some this => pure this

/-- `*pointer`. -/
def deref (p : Program σ ι) (pointer : Option ι) : Except Failure ℤ :=
  match pointer with
  | none => throw (.undefined "null pointer")
  | some a => match p.heap a with
    | none => throw (.undefined "access to an int that is not alive")
    | some n => pure n

def pointers (p : Program σ ι) (x : σ) : Option ι := (p.var x).bind A.pointer

theorem pointers_of_none (hx : p.var x = none) : p.pointers x = none := by
  rw [pointers, hx, Option.bind_none]

theorem pointers_of_some (hx : p.var x = some this) : p.pointers x = this.pointer := by
  rw [pointers, hx, Option.bind_some]

theorem object_ok (h : p.object x = .ok this) : p.var x = some this := by
  rw [object] at h
  split at h
  · cases h
  · rename_i hx
    cases h
    exact hx

theorem object_of (hx : p.var x = some this) : p.object x = .ok this := by
  rw [object, hx]
  rfl

theorem deref_of (ha : p.heap a = some n) : p.deref (some a) = .ok n := by
  simp only [deref, ha]
  rfl

section put
variable [DecidableEq σ]

def put (p : Program σ ι) (x : σ) (this : A ι) : Program σ ι :=
  { p with var := Function.update p.var x (some this) }

theorem pointers_put : (p.put x this).pointers = Function.update p.pointers x this.pointer := by
  funext z
  simp only [pointers, put, Function.update_apply]
  split_ifs
  · rfl
  · rfl

theorem pointers_move (hy : p.var y = some rhs) :
    ((p.put y ⟨none, 0⟩).put x ⟨rhs.pointer, rhs.val⟩).pointers =
      Handles.transfer p.pointers x y := by
  rw [pointers_put, pointers_put, Handles.transfer, pointers_of_some hy]

theorem pointers_destroy :
    ({ p with var := Function.update p.var x none } : Program σ ι).pointers =
      Handles.drop p.pointers x := by
  funext z
  rw [pointers, Handles.drop_apply]
  simp only [Function.update_apply]
  split_ifs
  · rfl
  · rfl

end put

section sound
variable [DecidableEq ι]

/-- What an object is: without an `int`, or with one of its own. -/
def Intact (heap : ι → Option ℤ) (this : A ι) : Prop :=
  this.pointer = none ∧ this.val = 0 ∨
    ∃ a, this.pointer = some a ∧ this.val = 1 ∧ heap a = some 1

omit [DecidableEq ι] in
theorem Intact.eq_holding {heap : ι → Option ℤ} (h : Intact heap this) :
    this = A.holding this.pointer := by
  obtain ⟨pointer, val⟩ := this
  rcases h with ⟨rfl, rfl, -⟩ | ⟨a, rfl, rfl, -⟩
  · rfl
  · rfl

structure Sound (p : Program σ ι) : Prop where
  exclusive : Handles.Exclusive p.pointers
  live : ∀ a, p.heap a ≠ none ↔ Handles.Held p.pointers a
  owns : ∃ own, Ledger.Owns p.log own ∧ ∀ a, a ∈ own ↔ Handles.Held p.pointers a
  intact : ∀ x this, p.var x = some this → Intact p.heap this

theorem Sound.init : Sound (empty : Program σ ι) := by
  refine ⟨Handles.exclusive_none, fun a => ?_, ⟨[], Ledger.owns_nil, fun a => ?_⟩, ?_⟩
  · exact iff_of_false (fun ha => ha rfl) Handles.not_held_none
  · exact iff_of_false (List.not_mem_nil) Handles.not_held_none
  · intro x this hx
    cases hx

end sound

variable [DecidableEq σ] [DecidableEq ι] {e : Event σ ι} {tr : List (Event σ ι)}

/-- `new int(n)`. -/
def new (p : Program σ ι) (a : ι) (n : ℤ) : Program σ ι :=
  { p with heap := Function.update p.heap a (some n), log := p.log ++ [(a, .acquire)] }

/-- `delete pointer`. -/
def delete (p : Program σ ι) (pointer : Option ι) : Except Failure (Program σ ι) :=
  match pointer with
  | none => pure p
  | some a => match p.heap a with
    | none => throw (.undefined "delete of an int that is not alive")
    | some _ => pure
      { p with heap := Function.update p.heap a none, log := p.log ++ [(a, .release)] }

def exec (p : Program σ ι) : Event σ ι → Except Failure (Program σ ι)
  | .construct x a => pure ((p.new a 1).put x ⟨some a, 1⟩)
  | .copy x y a => do
    let rhs ← p.object y
    let n ← p.deref rhs.pointer
    pure ((p.new a n).put x ⟨some a, rhs.val⟩)
  | .move x y => do
    let rhs ← p.object y
    pure ((p.put y ⟨none, 0⟩).put x ⟨rhs.pointer, rhs.val⟩)
  | .destroy x => do
    let this ← p.object x
    let p ← p.delete this.pointer
    pure { p with var := Function.update p.var x none }

/-- A new object is not alive before, and `new` gives an address that is not in use. -/
def Admissible (p : Program σ ι) : Event σ ι → Prop
  | .construct x a => p.var x = none ∧ p.heap a = none
  | .copy x y a => p.var x = none ∧ (p.var y).isSome ∧ p.heap a = none
  | .move x y => p.var x = none ∧ (p.var y).isSome
  | .destroy x => (p.var x).isSome

instance (p : Program σ ι) : DecidablePred p.Admissible
  | .construct _ _ | .copy _ _ _ | .move _ _ => inferInstanceAs (Decidable (_ ∧ _))
  | .destroy _ => inferInstanceAs (Decidable (_ = _))

def programs (σ ι : Type) [DecidableEq σ] [DecidableEq ι] : System (Program σ ι) (Event σ ι) :=
  System.guarded (fun p => p = empty) Admissible exec

theorem Sound.new (h : Sound p) (hx : p.var x = none) (ha : p.heap a = none) :
    Sound ((p.new a 1).put x ⟨some a, 1⟩) := by
  have hnone := pointers_of_none hx
  have hfree : ¬ Handles.Held p.pointers a := fun hheld => (h.live a).mpr hheld ha
  have hpointers : ((p.new a 1).put x ⟨some a, 1⟩).pointers = Handles.acquire p.pointers x a :=
    pointers_put
  refine ⟨?_, fun b => ?_, ?_, ?_⟩
  · rw [hpointers]
    exact h.exclusive.acquire hfree
  · rw [hpointers, Handles.held_acquire hnone, ← h.live]
    by_cases hb : b = a
    · simp [put, Program.new, hb]
    · simp [put, Program.new, hb]
  · obtain ⟨own, howns, hmem⟩ := h.owns
    refine ⟨a :: own, howns.acquire fun hin => hfree ((hmem a).mp hin), fun b => ?_⟩
    rw [hpointers, Handles.held_acquire hnone, List.mem_cons, hmem]
  · intro z this hz
    simp only [put, Function.update_apply] at hz
    split_ifs at hz with hzx
    · cases hz
      exact .inr ⟨a, rfl, rfl, Function.update_self ..⟩
    · refine (h.intact z this hz).imp_right ?_
      rintro ⟨b, hb, hval, hheap⟩
      refine ⟨b, hb, hval, ?_⟩
      have hne : b ≠ a := by
        rintro rfl
        rw [ha] at hheap
        cases hheap
      exact (Function.update_of_ne hne ..).trans hheap

theorem Sound.move (h : Sound p) (hx : p.var x = none) (hy : p.var y = some rhs) :
    Sound ((p.put y ⟨none, 0⟩).put x ⟨rhs.pointer, rhs.val⟩) := by
  have hne : x ≠ y := by
    rintro rfl
    cases hx.symm.trans hy
  have hheld : ∀ b, Handles.Held (Handles.transfer p.pointers x y) b ↔
      Handles.Held p.pointers b := by
    intro b
    rw [h.exclusive.held_transfer hne, pointers_of_none hx]
    exact and_iff_left (by intro hb; cases hb)
  refine ⟨?_, fun b => ?_, ?_, ?_⟩
  · rw [pointers_move hy]
    exact h.exclusive.transfer
  · rw [pointers_move hy, hheld]
    exact h.live b
  · obtain ⟨own, howns, hmem⟩ := h.owns
    refine ⟨own, howns, fun b => ?_⟩
    rw [pointers_move hy, hheld]
    exact hmem b
  · intro z this hz
    simp only [put, Function.update_apply] at hz
    split_ifs at hz with hzx hzy
    · cases hz
      exact h.intact y rhs hy
    · cases hz
      exact .inl ⟨rfl, rfl⟩
    · exact h.intact z this hz

theorem Sound.destroy_moved (h : Sound p) (hx : p.pointers x = none) :
    Sound { p with var := Function.update p.var x none } := by
  have hsame : ({ p with var := Function.update p.var x none } : Program σ ι).pointers =
      p.pointers := pointers_destroy.trans (Handles.drop_of_none hx)
  refine ⟨?_, fun b => ?_, ?_, ?_⟩
  · rw [hsame]
    exact h.exclusive
  · rw [hsame]
    exact h.live b
  · rw [hsame]
    exact h.owns
  · intro z this hz
    simp only [Function.update_apply] at hz
    split_ifs at hz
    exact h.intact z this hz

theorem Sound.destroy (h : Sound p) (hx : p.pointers x = some a) : Sound
    ⟨Function.update p.var x none, Function.update p.heap a none, p.log ++ [(a, .release)]⟩ := by
  have hdrop : ∀ heap log, (⟨Function.update p.var x none, heap, log⟩ : Program σ ι).pointers =
      Handles.drop p.pointers x := fun _ _ => pointers_destroy
  have hheld : ∀ b, Handles.Held (Handles.drop p.pointers x) b ↔
      Handles.Held p.pointers b ∧ b ≠ a := by
    intro b
    rw [h.exclusive.held_drop, hx, ne_eq, Option.some_inj, eq_comm]
  refine ⟨?_, fun b => ?_, ?_, ?_⟩
  · rw [hdrop]
    exact h.exclusive.drop
  · rw [hdrop, hheld, ← h.live]
    by_cases hb : b = a
    · simp [hb]
    · simp [hb]
  · obtain ⟨own, howns, hmem⟩ := h.owns
    have hin : a ∈ own := (hmem a).mpr ⟨x, hx⟩
    refine ⟨own.erase a, (howns.perm (List.perm_cons_erase hin)).release, fun b => ?_⟩
    rw [hdrop, hheld, howns.nodup.mem_erase_iff, hmem, and_comm]
  · intro z this hz
    simp only [Function.update_apply] at hz
    split_ifs at hz with hzx
    refine (h.intact z this hz).imp_right ?_
    rintro ⟨b, hb, hval, hheap⟩
    refine ⟨b, hb, hval, ?_⟩
    have hne : b ≠ a := by
      rintro rfl
      exact hzx (h.exclusive z x b ((pointers_of_some hz).trans hb) hx)
    exact (Function.update_of_ne hne ..).trans hheap

/-- The objects that live and the `int` of each: a new object has a new one or that of the object
it was moved from, and an object that was moved from has none. -/
def given (g : σ → Option (Option ι)) : Event σ ι → σ → Option (Option ι)
  | .construct x a | .copy x _ a => Function.update g x (some (some a))
  | .move x y => Function.update (Function.update g y (some none)) x (g y)
  | .destroy x => Function.update g x none

def ints (tr : List (Event σ ι)) : σ → Option (Option ι) := history given (fun _ => none) tr

def shown (p : Program σ ι) (x : σ) : Option (Option ι) := (p.var x).map A.pointer

omit [DecidableEq ι] in
theorem shown_put : (p.put x this).shown = Function.update p.shown x (some this.pointer) := by
  funext z
  simp only [shown, put, Function.update_apply]
  split_ifs
  · rfl
  · rfl

omit [DecidableEq σ] in
theorem delete_var {pointer : Option ι} (h : p.delete pointer = .ok p') : p'.var = p.var := by
  cases pointer with
  | none =>
    cases h
    rfl
  | some a =>
    simp only [delete] at h
    split at h
    · cases h
    · cases h
      rfl

theorem shown_exec (h : p.exec e = .ok p') : p'.shown = given p.shown e := by
  cases e with
  | construct x a =>
    cases h
    exact shown_put
  | copy x y a =>
    obtain ⟨rhs, -, h⟩ := bind_ok h
    obtain ⟨n, -, h⟩ := bind_ok h
    cases h
    exact shown_put
  | move x y =>
    obtain ⟨rhs, hy, h⟩ := bind_ok h
    cases h
    have hrhs : p.shown y = some rhs.pointer := by
      rw [shown, object_ok hy]
      rfl
    rw [shown_put, shown_put, given, hrhs]
  | destroy x =>
    obtain ⟨this, -, h⟩ := bind_ok h
    obtain ⟨p₁, hdelete, h⟩ := bind_ok h
    cases h
    funext z
    simp only [shown, given, delete_var hdelete, Function.update_apply]
    split_ifs
    · rfl
    · rfl

omit [DecidableEq σ] [DecidableEq ι] in
theorem shown_iff : p.shown x = some (some a) ↔ p.pointers x = some a := by
  rw [shown, pointers]
  cases p.var x <;> simp

/-- The step copies an object without an `int`. -/
def CopiesNull (g : σ → Option (Option ι)) : Event σ ι → Prop
  | .copy _ y _ => g y = some none
  | .construct .. | .move .. | .destroy _ => False

theorem Sound.step (h : Sound p) (ha : p.Admissible e) :
    (¬ CopiesNull p.shown e ∧ ∃ p', p.exec e = .ok p' ∧ Sound p') ∨
      CopiesNull p.shown e ∧ ∀ p', p.exec e ≠ .ok p' := by
  cases e with
  | construct x a => exact .inl ⟨id, _, rfl, h.new ha.1 ha.2⟩
  | copy x y a =>
    obtain ⟨hx, hy, hfree⟩ := ha
    obtain ⟨rhs, hy⟩ := Option.isSome_iff_exists.mp hy
    have hshown : p.shown y = some rhs.pointer := by
      rw [shown, hy]
      rfl
    rcases h.intact y rhs hy with ⟨hnull, -⟩ | ⟨b, hb, hval, hheap⟩
    · refine .inr ⟨hshown.trans (congrArg some hnull), fun p' hexec => ?_⟩
      rw [exec, ok_bind (object_of hy), hnull] at hexec
      cases hexec
    · have hown : ¬ CopiesNull p.shown (.copy x y a) := by
        intro hnull
        rw [CopiesNull, hshown, hb] at hnull
        cases hnull
      refine .inl ⟨hown, (p.new a 1).put x ⟨some a, rhs.val⟩, ?_, hval ▸ h.new hx hfree⟩
      rw [exec, ok_bind (object_of hy), hb, ok_bind (deref_of hheap)]
      rfl
  | move x y =>
    obtain ⟨hx, hy⟩ := ha
    obtain ⟨rhs, hy⟩ := Option.isSome_iff_exists.mp hy
    exact .inl ⟨id, _, ok_bind (object_of hy), h.move hx hy⟩
  | destroy x =>
    obtain ⟨this, hx⟩ := Option.isSome_iff_exists.mp ha
    rcases h.intact x this hx with ⟨hnull, -⟩ | ⟨a, hpointer, -, hheap⟩
    · refine .inl ⟨id, _, ?_, h.destroy_moved ((pointers_of_some hx).trans hnull)⟩
      rw [exec, ok_bind (object_of hx), hnull]
      rfl
    · refine .inl ⟨id, _, ?_, h.destroy ((pointers_of_some hx).trans hpointer)⟩
      rw [exec, ok_bind (object_of hx), hpointer]
      simp only [delete, hheap]
      rfl

theorem run_sound (hr : (programs σ ι).Run System.always tr p) : Sound p := by
  induction hr with
  | start hi =>
    cases hi
    exact .init
  | step _ _ hstep ih =>
    obtain ⟨ha, hexec⟩ := hstep
    rcases ih.step ha with ⟨-, p', hexec', hs⟩ | ⟨-, hnot⟩
    · rw [hexec] at hexec'
      cases hexec'
      exact hs
    · exact absurd hexec (hnot _)

theorem run_shown (hr : (programs σ ι).Run System.always tr p) : p.shown = ints tr := by
  induction hr with
  | start hi =>
    cases hi
    rfl
  | step _ _ hstep ih =>
    rw [shown_exec hstep.2, ih, ints, ints, history_concat]

/-- The objects that live and the `int` of each are those the steps call for, no two objects share
an `int`, each `int` was deleted once for each time it was made, but for those that an object has
now, and exactly a copy of an object without an `int` is undefined. -/
theorem ints_deleted_once (hr : (programs σ ι).Run System.always tr p) :
    (∀ x, p.var x = (ints tr x).map A.holding) ∧
      (∀ x y a, ints tr x = some (some a) → ints tr y = some (some a) → x = y) ∧
      (∀ a, p.heap a ≠ none ↔ ∃ x, ints tr x = some (some a)) ∧
      (∀ a n, p.heap a = some n → n = 1) ∧
      (∀ a, p.heap a ≠ none → Ledger.Held p.log a) ∧
      (∀ a, p.heap a = none → Ledger.Settled p.log a) ∧
      ∀ e, p.Admissible e → ((∃ p', p.exec e = .ok p') ↔ ¬ CopiesNull (ints tr) e) := by
  have h := run_sound hr
  obtain ⟨own, howns, hmem⟩ := h.owns
  rw [← run_shown hr]
  simp only [shown_iff]
  refine ⟨fun x => ?_, h.exclusive, h.live, fun a n hn => ?_, fun a ha => ?_, fun a ha => ?_,
    fun e ha => ?_⟩
  · rw [shown, Option.map_map]
    cases hx : p.var x with
    | none => rfl
    | some this => exact congrArg some (h.intact x this hx).eq_holding
  · obtain ⟨x, hx⟩ := (h.live a).mp (by rw [hn]; exact Option.some_ne_none n)
    obtain ⟨this, hthis, hpointer⟩ := Option.bind_eq_some_iff.mp hx
    rcases h.intact x this hthis with ⟨hnull, -⟩ | ⟨b, hb, -, hheap⟩
    · cases hnull.symm.trans hpointer
    · cases hb.symm.trans hpointer
      exact Option.some_inj.mp (hn.symm.trans hheap)
  · exact howns.held a ((hmem a).mpr ((h.live a).mp ha))
  · exact howns.settled a fun hin => (h.live a).mpr ((hmem a).mp hin) ha
  · rcases h.step ha with ⟨hown, p', hexec, -⟩ | ⟨hnull, hnot⟩
    · exact iff_of_true ⟨p', hexec⟩ hown
    · refine iff_of_false ?_ (not_not.mpr hnull)
      rintro ⟨p', hexec⟩
      exact hnot p' hexec

example : ints [.construct 0 0, .move 1 0, .move 2 0] 2 = some (none : Option ℕ) := rfl

/-- What `return_rvalue` does: of its two objects the first is moved into the result. -/
theorem ints_deleted_once_sample : ∃ p : Program ℕ ℕ, p.pointers 2 = some 0 ∧ p.heap 1 = none ∧
    Ledger.Settled p.log 1 ∧ Ledger.Held p.log 0 := by
  have hr : ∃ p, (programs ℕ ℕ).Run System.always
      [.construct 0 0, .construct 1 1, .move 2 0, .destroy 1, .destroy 0] p ∧
      p.pointers 2 = some 0 ∧ p.heap 1 = none ∧ p.heap 0 = some 1 :=
    ⟨_, System.run_of_exec System.guardedExec_step rfl rfl, rfl, rfl, rfl⟩
  obtain ⟨p, hr, hresult, hdeleted, hkept⟩ := hr
  obtain ⟨-, -, -, -, hheld, hsettled, -⟩ := ints_deleted_once hr
  refine ⟨p, hresult, hdeleted, hsettled 1 hdeleted, hheld 0 ?_⟩
  rw [hkept]
  exact Option.some_ne_none 1

end Program

end ModCpp.MoveExample
