import Mathlib.Algebra.Group.Int.Defs
import Mathlib.Algebra.Group.Nat.Defs
import Mathlib.Data.Int.Init
import Mathlib.Tactic.Common

/-!
# C++ words and abnormal exits

Unsigned 64-bit words are natural numbers below `2 ^ 64` with wrapping arithmetic, and
`int` values are the integers from `-2 ^ 31` on below `2 ^ 31`.
A computation that may leave abnormally is an `Except Failure` value: a failing
`assert`, an exception with its text, or undefined behaviour. A computation with a loop is
run with some fuel and may still be running when the fuel is used up.
-/

namespace ModCpp

inductive Failure
  | assertion (cond : String)
  | exception (what : String)
  | undefined (why : String)
  deriving DecidableEq, Repr

def assert (c : Prop) [Decidable c] (text : String) : Except Failure Unit :=
  if c then .ok () else .error (.assertion text)

theorem assert_of {c : Prop} [Decidable c] {text : String} (h : c) :
    assert c text = .ok () := if_pos h

theorem assert_not {c : Prop} [Decidable c] {text : String} (h : ¬ c) :
    assert c text = .error (.assertion text) := if_neg h

theorem ok_bind.{u} {α β : Type u} {x : Except Failure α} {f : α → Except Failure β} {a : α}
    (h : x = .ok a) : x >>= f = f a := by
  rw [h]
  rfl

theorem bind_ok.{u} {α β : Type u} {x : Except Failure α} {f : α → Except Failure β} {b : β}
    (h : x >>= f = .ok b) : ∃ a, x = .ok a ∧ f a = .ok b := by
  cases x with
  | error e => cases h
  | ok a => exact ⟨a, rfl, h⟩

theorem bind_error.{u} {α β : Type u} {x : Except Failure α} {f : α → Except Failure β}
    {e : Failure} (h : x >>= f = .error e) :
    x = .error e ∨ ∃ a, x = .ok a ∧ f a = .error e := by
  cases x with
  | error e' =>
    cases h
    exact .inl rfl
  | ok a => exact .inr ⟨a, rfl, h⟩

/-- Both computations return, with related results, or both leave in the same way. -/
inductive Agrees {α β : Type} (R : α → β → Prop) : Except Failure α → Except Failure β → Prop
  | ok {a : α} {b : β} : R a b → Agrees R (.ok a) (.ok b)
  | error {e : Failure} : Agrees R (.error e) (.error e)

section agrees
variable {α β α' β' : Type} {R : α → β → Prop} {R' : α' → β' → Prop} {x : Except Failure α}
  {y : Except Failure β}

theorem Agrees.bind {f : α → Except Failure α'} {g : β → Except Failure β'} (h : Agrees R x y)
    (hfg : ∀ a b, R a b → Agrees R' (f a) (g b)) : Agrees R' (x >>= f) (y >>= g) := by
  cases h with
  | ok hab => exact hfg _ _ hab
  | error => exact .error

theorem Agrees.bind_same {f : α → Except Failure α'} {g : α → Except Failure β'}
    (hfg : ∀ a, x = .ok a → Agrees R' (f a) (g a)) : Agrees R' (x >>= f) (x >>= g) := by
  cases x with
  | error e => exact .error
  | ok a => exact hfg a rfl

theorem Agrees.right_ok {a : α} (h : Agrees R (.ok a) y) : ∃ b, y = .ok b ∧ R a b := by
  cases h with
  | ok hab => exact ⟨_, rfl, hab⟩

theorem Agrees.left_ok {b : β} (h : Agrees R x (.ok b)) : ∃ a, x = .ok a ∧ R a b := by
  cases h with
  | ok hab => exact ⟨_, rfl, hab⟩

end agrees

/-- `none` while the computation is still running. -/
abbrev Loop := ExceptT Failure Option

def running {α : Type} : Loop α := ExceptT.mk none

theorem throw_bind {α β : Type} {e : Failure} {f : α → Loop β} :
    (throw e : Loop α) >>= f = throw e := rfl

theorem loop_cases {α : Type} (x : Loop α) :
    x = running ∨ (∃ e, x = throw e) ∨ ∃ a, x = pure a := by
  match x with
  | none => exact .inl rfl
  | some (.error e) => exact .inr (.inl ⟨e, rfl⟩)
  | some (.ok a) => exact .inr (.inr ⟨a, rfl⟩)

theorem loop_bind_pure {α β : Type} {x : Loop α} {f : α → Loop β} {b : β}
    (h : x >>= f = pure b) : ∃ a, x = pure a ∧ f a = pure b := by
  rcases loop_cases x with rfl | ⟨e, rfl⟩ | ⟨a, rfl⟩
  · cases h
  · cases h
  · rw [pure_bind] at h
    exact ⟨a, rfl, h⟩

structure Loop.Yields {α : Type} (x : Loop α) (P : α → Prop) : Prop where
  quiet : ∀ what, x ≠ throw (.exception what)
  returns : ∀ a, x = pure a → P a

namespace Loop.Yields
variable {α β : Type} {x : Loop α} {P : α → Prop}

theorem pure {a : α} (h : P a) : Yields (Pure.pure a) P := by
  refine ⟨fun what he => (by cases he), ?_⟩
  intro b hb
  cases hb
  exact h

theorem undefined {why : String} : Yields (throw (.undefined why)) P :=
  ⟨fun _ he => (by cases he), fun _ he => (by cases he)⟩

theorem running : Yields ModCpp.running P :=
  ⟨fun _ he => (by cases he), fun _ he => (by cases he)⟩

theorem guarded {c : Prop} [Decidable c] {a : α} {why : String} (h : c → P a) :
    Yields (if c then Pure.pure a else throw (.undefined why)) P := by
  split_ifs with hc
  · exact pure (h hc)
  · exact undefined

theorem bind {f : α → Loop β} {Q : β → Prop} (hx : Yields x P)
    (hf : ∀ a, P a → Yields (f a) Q) : Yields (x >>= f) Q := by
  rcases loop_cases x with rfl | ⟨e, rfl⟩ | ⟨a, rfl⟩
  · exact running
  · refine ⟨fun what he => ?_, fun b hb => (by cases hb)⟩
    cases he
    exact hx.quiet what rfl
  · rw [pure_bind]
    exact hf a (hx.returns a rfl)

end Loop.Yields

/-- The value of an expression of type `int` that is not negative. -/
def int (i : ℕ) : Loop ℕ :=
  if i < 2 ^ 31 then pure i else throw (.undefined "int overflow")

theorem int_of_lt {i : ℕ} (hi : i < 2 ^ 31) : int i = pure i := if_pos hi

theorem int_yields (i : ℕ) : (int i).Yields fun j => j = i := by
  rw [int]
  exact .guarded fun _ => rfl

def add64 (a b : ℕ) : ℕ := (a + b) % 2 ^ 64

def sub64 (a b : ℕ) : ℕ := (a + 2 ^ 64 - b) % 2 ^ 64

theorem add64_of_lt {a b : ℕ} (h : a + b < 2 ^ 64) : add64 a b = a + b := Nat.mod_eq_of_lt h

theorem sub64_of_le {a b : ℕ} (hb : b ≤ a) (ha : a < 2 ^ 64) : sub64 a b = a - b := by
  unfold sub64
  omega

theorem sub64_eq_zero {a b : ℕ} (ha : a < 2 ^ 64) (hb : b < 2 ^ 64) :
    sub64 a b = 0 ↔ a = b := by
  unfold sub64
  omega

def intMax : ℤ := 2 ^ 31 - 1

/-- Conversion of a `uint64_t` to `int`. -/
def toInt (a : ℕ) : ℤ := Int.bmod a (2 ^ 32)

/-- Conversion of an `int` to `uint64_t`, as in a comparison of the two. -/
def toUint64 (i : ℤ) : ℕ := (i % 2 ^ 64).toNat

theorem toInt_of_lt {a : ℕ} (h : a < 2 ^ 31) : toInt a = a :=
  Int.bmod_eq_of_le (by omega) (by omega)

theorem toInt_lt (a : ℕ) : toInt a < 2 ^ 31 := by
  have h := Int.bmod_lt (x := (a : ℤ)) (m := 2 ^ 32) (by omega)
  unfold toInt
  omega

theorem bmod_natCast_le (a m : ℕ) : Int.bmod a m ≤ a := by
  have hle : (a : ℤ) % m ≤ a := by exact_mod_cast Nat.mod_le a m
  rw [Int.bmod_def]
  split_ifs
  · exact hle
  · omega

theorem toInt_le (a : ℕ) : toInt a ≤ a := bmod_natCast_le a _

theorem le_toInt (a : ℕ) : -2 ^ 31 ≤ toInt a := by
  have h := Int.le_bmod (x := (a : ℤ)) (m := 2 ^ 32) (by omega)
  unfold toInt
  omega

/-- In a comparison with a `uint64_t` a negative `int` is a large number. -/
theorem le_toUint64_of_neg {i : ℤ} (hneg : i < 0) (hlo : -2 ^ 31 ≤ i) :
    2 ^ 64 - 2 ^ 31 ≤ toUint64 i := by
  unfold toUint64
  omega

theorem toUint64_natCast {a : ℕ} (h : a < 2 ^ 64) : toUint64 a = a := by
  unfold toUint64
  omega

end ModCpp
