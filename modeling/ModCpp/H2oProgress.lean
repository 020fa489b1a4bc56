import ModCpp.H2oRuns
import ModCpp.MonitorProgress
import Mathlib.Tactic.Linarith

/-!
# Progress of `h2o_generator`

A reset wakes all the threads, and most of them find nothing to print and sleep again. Resets are
as rare as molecules, so the steps wasted between two of them are bounded.
-/

namespace ModCpp.H2o
open Monitor
variable {τ : Type*} [DecidableEq τ] {kind : τ → Atom} {tr rest : List (Event τ)}
  {s s' : State τ Cond Generator} {t : τ} {p : Phase Cond} {g g' : Generator}
  {signals : List (Signal Cond)}

def molecules (g : Generator) : ℕ := (g.out.length - (g.h_cnt + g.o_cnt).toNat) / 3

theorem flatten_length {ms : List (List Atom)} (hms : ∀ m ∈ ms, Molecule m) :
    ms.flatten.length = 3 * ms.length := by
  induction ms with
  | nil => rfl
  | cons m ms ih =>
    have hm := (hms m List.mem_cons_self).length
    have hrest := ih fun n hn => hms n (List.mem_cons_of_mem _ hn)
    rw [List.flatten_cons, List.length_append, List.length_cons, hm, hrest]
    omega

theorem Printed.out_length (h : Printed g) :
    (g.out.length : ℤ) = 3 * molecules g + g.h_cnt + g.o_cnt ∧ 0 ≤ g.h_cnt ∧ 0 ≤ g.o_cnt ∧
      g.h_cnt ≤ 2 ∧ g.o_cnt ≤ 1 := by
  obtain ⟨ms, cur, hout, hms, hcur⟩ := h
  have hlen := flatten_length hms
  have hcount := count_atoms cur
  have hh := hcur.h
  have ho := hcur.o
  rw [molecules, hout, List.length_append]
  refine ⟨?_, ?_, ?_, hcur.h_le, hcur.o_le⟩
  · omega
  · omega
  · omega

omit [DecidableEq τ] in
theorem body_leave (h : Printed g)
    (hb : (program kind).body t p g = .ok (.leave g' signals)) :
    signals = [] ∧ g'.out.length = g.out.length + 1 ∧ molecules g' = molecules g ∨
      g'.out = g.out ∧ molecules g' = molecules g + 1 := by
  have hout := h.out_length
  have hturn := body_turn kind t p h.o_cnt_nonneg
  rw [hb] at hturn
  cases hturn with
  | reset hfull =>
    have hout' := (h.reset hfull).out_length
    obtain ⟨hh, ho⟩ := hfull
    refine .inr ⟨rfl, ?_⟩
    dsimp only at hout' ⊢
    omega
  | printH _ hlt =>
    have hout' := (h.printH hlt).out_length
    have hlen : (g.out ++ [Atom.H]).length = g.out.length + 1 := List.length_append
    refine .inl ⟨rfl, hlen, ?_⟩
    dsimp only at hout' ⊢
    omega
  | printO _ hlt =>
    have hout' := (h.printO hlt).out_length
    have hlen : (g.out ++ [Atom.O]).length = g.out.length + 1 := List.length_append
    refine .inl ⟨rfl, hlen, ?_⟩
    dsimp only at hout' ⊢
    omega

variable [Fintype τ]

/-- What is printed pays for its own steps and each reset for two steps of every thread. -/
def earned (n : ℕ) (g : Generator) : ℕ := 2 * g.out.length + 2 * n * molecules g

theorem sections_pay (h : Printed s.data) (hheld : s.holder = some t)
    (hawake : (s.phase t).Awake)
    (hb : (program kind).body t (s.phase t) s.data = .ok (.leave g signals))
    {ph : τ → Phase Cond} (hsig : Signalled signals (Function.update s.phase t .ready) ph) :
    rank ⟨none, ph, g⟩ + 1 + earned (Fintype.card τ) s.data ≤
      rank s + earned (Fintype.card τ) g := by
  rw [earned, earned]
  obtain ⟨rfl, hlen, hmol⟩ | ⟨hout, hmol⟩ := body_leave h hb
  · have hrank := rank_leave_one (d := g) hheld hawake hsig (by simp)
    rw [hlen, hmol]
    rw [List.length_nil] at hrank
    omega
  · have hrank := rank_le ⟨none, ph, g⟩
    have hpos := rank_pos hheld hawake
    rw [hout, hmol, Nat.mul_add]
    omega

/-- With an H thread and an O thread there is always a step to take, and from any state on, as long
as nobody wakes unnotified, the atoms printed grow in proportion to the steps taken. -/
theorem atoms_come (hH : ∃ t, kind t = .H) (hO : ∃ t, kind t = .O)
    (hr : (generatorSystem kind).Run System.always tr s)
    (hrest : ((generatorSystem kind).resumed s).Run punctual rest s') :
    (∃ e s'', punctual rest e ∧ (generatorSystem kind).step s' e s'') ∧
    3 * rest.length + (2 * Fintype.card τ + 6) * s.data.out.length ≤
      12 * Fintype.card τ + (2 * Fintype.card τ + 6) * s'.data.out.length := by
  have hr' := run_punctual hr hrest
  have hpaid := steps_paid (earned (Fintype.card τ)) ?_ hr hrest
  · constructor
    · apply exists_step ((run_wakeful hr').exists_awake hH hO)
      intro u _
      have hturn := body_turn kind u (s'.phase u) (run_printed hr').o_cnt_nonneg
      generalize (program kind).body u (s'.phase u) s'.data = x at hturn
      cases hturn <;> exact ⟨_, rfl⟩
    · have hrank := rank_le s
      have hfrom : s.data.out.length ≤ 3 * molecules s.data + 3 := by
        have := (run_printed hr).out_length
        omega
      have hto : 3 * molecules s'.data ≤ s'.data.out.length := by
        have := (run_printed hr').out_length
        omega
      have hfrom' := Nat.mul_le_mul_left (2 * Fintype.card τ) hfrom
      have hto' := Nat.mul_le_mul_left (2 * Fintype.card τ) hto
      rw [earned, earned] at hpaid
      linarith
  · intro tr s u g signals ph hr hheld hawake hb hsig
    exact sections_pay (run_printed hr) hheld hawake hb hsig

/-- The H thread prints an atom, and there is a next step. -/
theorem atoms_come_sample : ∃ rest, ∃ s' : State Bool Cond Generator,
    rest.length = 2 ∧ s'.data.out = [.H] ∧
    (∃ e s'', punctual rest e ∧
      (generatorSystem fun b : Bool => if b then Atom.H else .O).step s' e s'') ∧
    3 * rest.length ≤ 24 + 10 * s'.data.out.length := by
  have hrun : ∃ s', ((generatorSystem fun b : Bool => if b then Atom.H else .O).resumed
      ⟨none, fun _ => .ready, start⟩).Run punctual ([] ++ [.lock true] ++ [.body true]) s' ∧
      s'.data.out = [.H] := by
    refine ⟨_, .step (.step (.start rfl) ?_ (.lock rfl Phase.awake_ready)) ?_
      (.leave rfl rfl .nil), rfl⟩
    · simp [punctual]
    · simp [punctual]
  obtain ⟨s', hrun, hout⟩ := hrun
  obtain ⟨hstep, hle⟩ := atoms_come ⟨true, rfl⟩ ⟨false, rfl⟩ (.start rfl) hrun
  exact ⟨_, s', rfl, hout, hstep, hle⟩

end ModCpp.H2o
