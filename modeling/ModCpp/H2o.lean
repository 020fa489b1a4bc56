import ModCpp.Monitor

/-!
# `h2o_generator` (`h2o.cc`)

H threads and O threads print atoms under one mutex. A thread that finds the molecule fully
printed resets the counters instead of printing. The output is a field of the shared data,
since every print happens under the mutex.
-/

namespace ModCpp.H2o
open Monitor
variable {τ : Type*}

inductive Atom
  | H
  | O
  deriving DecidableEq

inductive Cond
  | h_cond
  | o_cond
  deriving DecidableEq

def Atom.cond : Atom → Cond
  | .H => .h_cond
  | .O => .o_cond

structure Generator where
  h_cnt : ℤ
  o_cnt : ℤ
  out : List Atom

def start : Generator := ⟨0, 0, []⟩

def check_fully_print (g : Generator) : Prop := g.h_cnt = 2 ∧ g.o_cnt = 1

instance (g : Generator) : Decidable (check_fully_print g) :=
  inferInstanceAs (Decidable (_ ∧ _))

def reset_state (g : Generator) : Outcome Cond Generator :=
  .leave { g with h_cnt := 0, o_cnt := 0 } [.all .h_cond, .all .o_cond]

/-- The H body from the test of the predicate of its wait on. -/
def hWait (g : Generator) : Except Failure (Outcome Cond Generator) :=
  if g.h_cnt < 2 then do
    assert (g.h_cnt < 2) "h_cnt < 2"
    let g := { g with out := g.out ++ [.H], h_cnt := g.h_cnt + 1 }
    assert (g.h_cnt ≤ 2) "h_cnt <= 2"
    .ok (.leave g [])
  else .ok (.wait .h_cond)

def hBody (g : Generator) : Except Failure (Outcome Cond Generator) :=
  if check_fully_print g then .ok (reset_state g) else hWait g

def oWait (g : Generator) : Except Failure (Outcome Cond Generator) :=
  if g.o_cnt < 1 then do
    assert (g.o_cnt < 1) "o_cnt < 1"
    let g := { g with out := g.out ++ [.O], o_cnt := g.o_cnt + 1 }
    assert (g.o_cnt = 1) "o_cnt == 1"
    .ok (.leave g [])
  else .ok (.wait .o_cond)

def oBody (g : Generator) : Except Failure (Outcome Cond Generator) :=
  if check_fully_print g then .ok (reset_state g) else oWait g

section threads
variable (kind : τ → Atom)

def program : Program τ Cond Generator where
  enter t g := match kind t with
    | .H => hBody g
    | .O => oBody g
  resume t g := match kind t with
    | .H => hWait g
    | .O => oWait g

variable [DecidableEq τ]

def generatorSystem : System (State τ Cond Generator) (Event τ) := system (program kind) start

end threads

structure Counted (g : Generator) (cur : List Atom) : Prop where
  h : (cur.count .H : ℤ) = g.h_cnt
  o : (cur.count .O : ℤ) = g.o_cnt
  h_le : g.h_cnt ≤ 2
  o_le : g.o_cnt ≤ 1

namespace Counted
variable {g : Generator} {cur : List Atom}

theorem o_cnt_nonneg (h : Counted g cur) : 0 ≤ g.o_cnt := by
  rw [← h.o]
  exact Int.natCast_nonneg _

theorem start : Counted start [] := ⟨rfl, rfl, by decide, by decide⟩

theorem printH (h : Counted g cur) (hlt : g.h_cnt < 2) :
    Counted { g with out := g.out ++ [.H], h_cnt := g.h_cnt + 1 } (cur ++ [.H]) := by
  refine ⟨?_, ?_, ?_, h.o_le⟩
  · simp [← h.h]
  · simp [← h.o]
  · simp only
    omega

theorem printO (h : Counted g cur) (hlt : g.o_cnt < 1) :
    Counted { g with out := g.out ++ [.O], o_cnt := g.o_cnt + 1 } (cur ++ [.O]) := by
  refine ⟨?_, ?_, h.h_le, ?_⟩
  · simp [← h.h]
  · simp [← h.o]
  · simp only
    omega

end Counted

section body
variable {kind : τ → Atom} {t : τ} {p : Phase Cond} {g : Generator}

theorem hWait_eq : hWait g = if g.h_cnt < 2 then
    .ok (.leave { g with out := g.out ++ [.H], h_cnt := g.h_cnt + 1 } [])
      else .ok (.wait .h_cond) := by
  unfold hWait
  split_ifs with hlt
  · rw [ok_bind (assert_of hlt), ok_bind (assert_of (show g.h_cnt + 1 ≤ 2 by omega))]
  · rfl

theorem oWait_eq (h0 : 0 ≤ g.o_cnt) : oWait g = if g.o_cnt < 1 then
    .ok (.leave { g with out := g.out ++ [.O], o_cnt := g.o_cnt + 1 } [])
      else .ok (.wait .o_cond) := by
  unfold oWait
  split_ifs with hlt
  · rw [ok_bind (assert_of hlt), ok_bind (assert_of (show g.o_cnt + 1 = 1 by omega))]
  · rfl

/-- What a thread does in one stay in the mutex. Only a thread that starts its section tests
whether the molecule is complete. -/
inductive Turn (kind : τ → Atom) (t : τ) (p : Phase Cond) (g : Generator) :
    Except Failure (Outcome Cond Generator) → Prop
  | reset : check_fully_print g → Turn kind t p g (.ok (reset_state g))
  | printH : kind t = .H → g.h_cnt < 2 → Turn kind t p g
      (.ok (.leave { g with out := g.out ++ [.H], h_cnt := g.h_cnt + 1 } []))
  | sleepH : kind t = .H → 2 ≤ g.h_cnt → (p = .ready → ¬ check_fully_print g) →
      Turn kind t p g (.ok (.wait .h_cond))
  | printO : kind t = .O → g.o_cnt < 1 → Turn kind t p g
      (.ok (.leave { g with out := g.out ++ [.O], o_cnt := g.o_cnt + 1 } []))
  | sleepO : kind t = .O → 1 ≤ g.o_cnt → (p = .ready → ¬ check_fully_print g) →
      Turn kind t p g (.ok (.wait .o_cond))

theorem turn_of_hWait (hk : kind t = .H) (hp : p = .ready → ¬ check_fully_print g) :
    Turn kind t p g (hWait g) := by
  rw [hWait_eq]
  split_ifs with hlt
  · exact .printH hk hlt
  · exact .sleepH hk (not_lt.mp hlt) hp

theorem turn_of_oWait (h0 : 0 ≤ g.o_cnt) (hk : kind t = .O)
    (hp : p = .ready → ¬ check_fully_print g) : Turn kind t p g (oWait g) := by
  rw [oWait_eq h0]
  split_ifs with hlt
  · exact .printO hk hlt
  · exact .sleepO hk (not_lt.mp hlt) hp

theorem turn_of_enter (h0 : 0 ≤ g.o_cnt) : Turn kind t p g ((program kind).enter t g) := by
  cases hk : kind t with
  | H =>
    simp only [program, hk, hBody]
    split_ifs with hfull
    · exact .reset hfull
    · exact turn_of_hWait hk fun _ => hfull
  | O =>
    simp only [program, hk, oBody]
    split_ifs with hfull
    · exact .reset hfull
    · exact turn_of_oWait h0 hk fun _ => hfull

theorem body_turn (kind : τ → Atom) (t : τ) (p : Phase Cond) (h0 : 0 ≤ g.o_cnt) :
    Turn kind t p g ((program kind).body t p g) := by
  cases p with
  | ready => exact turn_of_enter h0
  | asleep c => exact turn_of_enter h0
  | woken c =>
    have hp : (Phase.woken c : Phase Cond) = .ready → ¬ check_fully_print g := by simp
    cases hk : kind t with
    | H =>
      simp only [Program.body, program, hk]
      exact turn_of_hWait hk hp
    | O =>
      simp only [Program.body, program, hk]
      exact turn_of_oWait h0 hk hp

end body

end ModCpp.H2o
