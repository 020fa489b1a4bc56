import ModCpp.H2o

/-!
# Molecules and sleepers of the runs of `h2o_generator`
-/

namespace ModCpp.H2o
open Monitor
variable {τ : Type*}

structure Molecule (m : List Atom) : Prop where
  h : m.count .H = 2
  o : m.count .O = 1

theorem count_atoms (l : List Atom) : l.count .H + l.count .O = l.length := by
  induction l with
  | nil => rfl
  | cons a l ih => cases a <;> simp <;> omega

theorem Molecule.length {m : List Atom} (h : Molecule m) : m.length = 3 := by
  rw [← count_atoms, h.h, h.o]

theorem Counted.length_le {g : Generator} {cur : List Atom} (h : Counted g cur) :
    cur.length ≤ 3 := by
  have := count_atoms cur
  have := h.h
  have := h.o
  have := h.h_le
  have := h.o_le
  omega

theorem Counted.molecule {g : Generator} {cur : List Atom} (h : Counted g cur)
    (hl : cur.length = 3) : Molecule cur := by
  have := count_atoms cur
  have := h.h
  have := h.o
  have := h.h_le
  have := h.o_le
  refine ⟨by omega, by omega⟩

theorem molecule_at {ms : List (List Atom)} {cur : List Atom} (hms : ∀ m ∈ ms, Molecule m)
    (hle : cur.length ≤ 3) (hcur : cur.length = 3 → Molecule cur) {k : ℕ}
    (hk : 3 * k + 3 ≤ (ms.flatten ++ cur).length) :
    Molecule (((ms.flatten ++ cur).drop (3 * k)).take 3) := by
  induction ms generalizing k with
  | nil =>
    simp only [List.flatten_nil, List.nil_append] at hk ⊢
    obtain rfl : k = 0 := by omega
    rw [Nat.mul_zero, List.drop_zero, List.take_of_length_le hle]
    exact hcur (by omega)
  | cons m ms ih =>
    have hm := hms m (by simp)
    rw [List.flatten_cons, List.append_assoc] at hk ⊢
    cases k with
    | zero =>
      rw [Nat.mul_zero, List.drop_zero, List.take_append_of_le_length hm.length.ge,
        List.take_of_length_le hm.length.le]
      exact hm
    | succ k =>
      have hdrop : 3 * (k + 1) = m.length + 3 * k := by
        rw [hm.length]
        omega
      rw [hdrop, ← List.drop_drop, List.drop_left]
      apply ih fun n hn => hms n (by simp [hn])
      rw [List.length_append, hm.length] at hk
      omega

/-- The output is complete molecules followed by the atoms the counters count. -/
def Printed (g : Generator) : Prop :=
  ∃ (ms : List (List Atom)) (cur : List Atom),
    g.out = ms.flatten ++ cur ∧ (∀ m ∈ ms, Molecule m) ∧ Counted g cur

theorem Printed.start : Printed start := ⟨[], [], rfl, by simp, .start⟩

theorem Printed.o_cnt_nonneg {g : Generator} (h : Printed g) : 0 ≤ g.o_cnt := by
  obtain ⟨ms, cur, _, _, hc⟩ := h
  exact hc.o_cnt_nonneg

theorem Printed.printH {g : Generator} (h : Printed g) (hlt : g.h_cnt < 2) :
    Printed { g with out := g.out ++ [.H], h_cnt := g.h_cnt + 1 } := by
  obtain ⟨ms, cur, hout, hms, hc⟩ := h
  refine ⟨ms, cur ++ [.H], ?_, hms, hc.printH hlt⟩
  simp [hout]

theorem Printed.printO {g : Generator} (h : Printed g) (hlt : g.o_cnt < 1) :
    Printed { g with out := g.out ++ [.O], o_cnt := g.o_cnt + 1 } := by
  obtain ⟨ms, cur, hout, hms, hc⟩ := h
  refine ⟨ms, cur ++ [.O], ?_, hms, hc.printO hlt⟩
  simp [hout]

theorem Printed.reset {g : Generator} (h : Printed g) (hfull : check_fully_print g) :
    Printed { g with h_cnt := 0, o_cnt := 0 } := by
  obtain ⟨ms, cur, hout, hms, hc⟩ := h
  have hcur : Molecule cur := by
    have hh := hc.h
    have ho := hc.o
    rw [hfull.1] at hh
    rw [hfull.2] at ho
    exact ⟨by omega, by omega⟩
  refine ⟨ms ++ [cur], [], ?_, ?_, rfl, rfl, by simp, by simp⟩
  · simp [hout]
  · intro m hm
    rcases List.mem_append.mp hm with hm | hm
    · exact hms m hm
    · rwa [List.mem_singleton.mp hm]

theorem Printed.molecule {g : Generator} (h : Printed g) {k : ℕ} (hk : 3 * k + 3 ≤ g.out.length) :
    Molecule ((g.out.drop (3 * k)).take 3) := by
  obtain ⟨ms, cur, hout, hms, hc⟩ := h
  rw [hout] at hk ⊢
  exact molecule_at hms hc.length_le hc.molecule hk

section runs
variable [DecidableEq τ] {kind : τ → Atom} {tr : List (Event τ)} {s : State τ Cond Generator}

theorem run_printed (hr : (generatorSystem kind).Run System.always tr s) : Printed s.data := by
  refine (run_keeps (I := fun _ g => Printed g) .start ?_ ?_ ?_ hr).2
  · intro t ph g c h _ _
    exact h
  · intro t ph ph' g g' signals h _ hb _
    have hturn := body_turn kind t (ph t) h.o_cnt_nonneg
    rw [hb] at hturn
    cases hturn with
    | reset hfull => exact h.reset hfull
    | printH _ hlt => exact h.printH hlt
    | printO _ hlt => exact h.printO hlt
  · intro t ph g c h _
    exact h

/-- No assertion fails, and what is printed splits into molecules. -/
theorem molecules_exact (hr : (generatorSystem kind).Run System.always tr s) :
    (∀ t, s.holder = some t →
      ∃ outcome, (program kind).body t (s.phase t) s.data = .ok outcome) ∧
    ∀ k, 3 * k + 3 ≤ s.data.out.length → ((s.data.out.drop (3 * k)).take 3).count .H = 2 ∧
      ((s.data.out.drop (3 * k)).take 3).count .O = 1 := by
  have h := run_printed hr
  refine ⟨?_, fun k hk => ⟨(h.molecule hk).h, (h.molecule hk).o⟩⟩
  intro t _
  have hturn := body_turn kind t (s.phase t) h.o_cnt_nonneg
  generalize (program kind).body t (s.phase t) s.data = x at hturn
  cases hturn <;> exact ⟨_, rfl⟩

/-- Who sleeps waits for a reset, and a complete molecule is never left to sleepers: the
thread that printed its last atom is about to start its loop again. -/
structure Wakeful (kind : τ → Atom) (ph : τ → Phase Cond) (g : Generator) : Prop where
  printed : Printed g
  asleep : ∀ t c, ph t = .asleep c → c = (kind t).cond
  h_cond : ∀ t, ph t = .asleep .h_cond → 2 ≤ g.h_cnt
  o_cond : ∀ t, ph t = .asleep .o_cond → 1 ≤ g.o_cnt
  full : check_fully_print g → ∃ t, ph t = .ready

namespace Wakeful
variable {ph ph' : τ → Phase Cond} {g g' : Generator} {t : τ} {c : Cond}

omit [DecidableEq τ] in
theorem start : Wakeful kind (fun _ => .ready) start where
  printed := .start
  asleep := by
    intro t c h
    cases h
  h_cond := by
    intro t h
    cases h
  o_cond := by
    intro t h
    cases h
  full := by simp [check_fully_print, H2o.start]

theorem sleep (h : Wakeful kind ph g) (hc : c = (kind t).cond) (hh : c = .h_cond → 2 ≤ g.h_cnt)
    (ho : c = .o_cond → 1 ≤ g.o_cnt) (hp : ph t = .ready → ¬ check_fully_print g) :
    Wakeful kind (Function.update ph t (.asleep c)) g := by
  have hasleep : ∀ u d, Function.update ph t (.asleep c) u = .asleep d →
      u = t ∧ d = c ∨ ph u = .asleep d := by
    intro u d hu
    by_cases he : u = t
    · subst he
      rw [Function.update_self] at hu
      cases hu
      exact .inl ⟨rfl, rfl⟩
    · rw [Function.update_of_ne he] at hu
      exact .inr hu
  refine ⟨h.printed, ?_, ?_, ?_, ?_⟩
  · intro u d hu
    rcases hasleep u d hu with ⟨rfl, rfl⟩ | hu
    · exact hc
    · exact h.asleep u d hu
  · intro u hu
    rcases hasleep u _ hu with ⟨_, hd⟩ | hu
    · exact hh hd.symm
    · exact h.h_cond u hu
  · intro u hu
    rcases hasleep u _ hu with ⟨_, hd⟩ | hu
    · exact ho hd.symm
    · exact h.o_cond u hu
  · intro hfull
    obtain ⟨u, hu⟩ := h.full hfull
    refine ⟨u, ?_⟩
    rw [Function.update_of_ne ?_, hu]
    intro he
    subst he
    exact hp hu hfull

theorem wake (h : Wakeful kind ph g) (ht : ph t = .asleep c) :
    Wakeful kind (Function.update ph t (.woken c)) g := by
  have hasleep : ∀ {u d}, Function.update ph t (.woken c) u = .asleep d → ph u = .asleep d :=
    asleep_of_update (Phase.awake_woken c)
  refine ⟨h.printed, fun u d hu => h.asleep u d (hasleep hu), fun u hu => h.h_cond u (hasleep hu),
    fun u hu => h.o_cond u (hasleep hu), ?_⟩
  intro hfull
  obtain ⟨u, hu⟩ := h.full hfull
  refine ⟨u, ?_⟩
  rw [Function.update_of_ne ?_, hu]
  intro he
  rw [he, ht] at hu
  cases hu

theorem print (h : Wakeful kind ph g) (hg : Printed g') (hh : g.h_cnt ≤ g'.h_cnt)
    (ho : g.o_cnt ≤ g'.o_cnt) : Wakeful kind (Function.update ph t .ready) g' := by
  have hasleep : ∀ {u d}, Function.update ph t .ready u = .asleep d → ph u = .asleep d :=
    asleep_of_update Phase.awake_ready
  exact ⟨hg, fun u d hu => h.asleep u d (hasleep hu),
    fun u hu => (h.h_cond u (hasleep hu)).trans hh,
    fun u hu => (h.o_cond u (hasleep hu)).trans ho,
    fun _ => ⟨t, Function.update_self ..⟩⟩

theorem reset (h : Wakeful kind ph g) (hfull : check_fully_print g)
    (hs : Signalled [.all .h_cond, .all .o_cond] (Function.update ph t .ready) ph') :
    Wakeful kind ph' { g with h_cnt := 0, o_cnt := 0 } := by
  refine ⟨h.printed.reset hfull, ?_, ?_, ?_, ?_⟩
  · intro u d hu
    exact h.asleep u d (asleep_of_update Phase.awake_ready (hs.asleep hu))
  · intro u hu
    exact absurd hu (hs.all_awake (by simp))
  · intro u hu
    exact absurd hu (hs.all_awake (by simp))
  · simp [check_fully_print]

theorem leave (h : Wakeful kind ph g) {signals : List (Signal Cond)}
    (hb : (program kind).body t (ph t) g = .ok (.leave g' signals))
    (hs : Signalled signals (Function.update ph t .ready) ph') : Wakeful kind ph' g' := by
  have hturn := body_turn kind t (ph t) h.printed.o_cnt_nonneg
  rw [hb] at hturn
  cases hturn with
  | reset hfull => exact h.reset hfull hs
  | printH _ hlt =>
    cases hs
    exact h.print (h.printed.printH hlt) (Int.le_add_one le_rfl) le_rfl
  | printO _ hlt =>
    cases hs
    exact h.print (h.printed.printO hlt) le_rfl (Int.le_add_one le_rfl)

theorem wait (h : Wakeful kind ph g) (hb : (program kind).body t (ph t) g = .ok (.wait c)) :
    Wakeful kind (Function.update ph t (.asleep c)) g := by
  have hturn := body_turn kind t (ph t) h.printed.o_cnt_nonneg
  rw [hb] at hturn
  cases hturn with
  | sleepH hk hle hp => exact h.sleep (by rw [hk]; rfl) (fun _ => hle) (by simp) hp
  | sleepO hk hle hp => exact h.sleep (by rw [hk]; rfl) (by simp) (fun _ => hle) hp

end Wakeful

theorem run_wakeful (hr : (generatorSystem kind).Run System.always tr s) :
    Wakeful kind s.phase s.data := by
  refine (run_keeps (I := Wakeful kind) .start ?_ ?_ ?_ hr).2
  · intro t ph g c h _ hb
    exact h.wait hb
  · intro t ph ph' g g' signals h _ hb hs
    exact h.leave hb hs
  · intro t ph g c h ht
    exact h.wake ht

omit [DecidableEq τ] in
/-- If all slept, the molecule would be complete, and the thread that completed it awake. -/
theorem Wakeful.exists_awake {ph : τ → Phase Cond} {g : Generator} (h : Wakeful kind ph g)
    (hH : ∃ t, kind t = .H) (hO : ∃ t, kind t = .O) : ∃ t, (ph t).Awake := by
  by_contra hnone
  have hasleep : ∀ u, ph u = .asleep (kind u).cond := by
    intro u
    by_contra hu
    refine hnone ⟨u, Phase.awake_of_not_asleep ?_⟩
    intro c hc
    rw [h.asleep u c hc] at hc
    exact hu hc
  obtain ⟨t, ht⟩ := hH
  obtain ⟨u, hu⟩ := hO
  have hh := h.h_cond t (by rw [hasleep t, ht]; rfl)
  have ho := h.o_cond u (by rw [hasleep u, hu]; rfl)
  have hfull : check_fully_print g := by
    obtain ⟨ms, cur, _, _, hc⟩ := h.printed
    exact ⟨le_antisymm hc.h_le hh, le_antisymm hc.o_le ho⟩
  obtain ⟨v, hv⟩ := h.full hfull
  rw [hasleep v] at hv
  cases hv

/-- With an H thread and an O thread, somebody is always awake. -/
theorem always_awake (hH : ∃ t, kind t = .H) (hO : ∃ t, kind t = .O)
    (hr : (generatorSystem kind).Run System.always tr s) : ∃ t, (s.phase t).Awake :=
  (run_wakeful hr).exists_awake hH hO

end runs

section samples

/-- The H thread prints twice and sleeps, the O thread completes the molecule and resets. -/
theorem first_molecule : ∃ tr, ∃ s : State Bool Cond Generator,
    (generatorSystem fun b => if b then Atom.H else .O).Run System.always tr s ∧
      s.data.out = [.H, .H, .O] ∧ s.phase true = .woken .h_cond := by
  refine ⟨_, _, .step (.step (.step (.step (.step (.step (.step (.step (.step (.step (.start rfl)
    trivial (.lock (t := true) rfl ?_)) trivial (.leave rfl rfl .nil))
    trivial (.lock (t := true) rfl ?_)) trivial (.leave rfl rfl .nil))
    trivial (.lock (t := true) rfl ?_)) trivial (.wait (c := .h_cond) rfl rfl))
    trivial (.lock (t := false) rfl ?_)) trivial (.leave rfl rfl .nil))
    trivial (.lock (t := false) rfl ?_)) trivial (.leave rfl rfl (.all (.all .nil))), ?_, ?_⟩
  · exact trivial
  · exact trivial
  · exact trivial
  · exact trivial
  · exact trivial
  · rfl
  · rfl

theorem molecules_exact_sample : ∃ tr, ∃ s : State Bool Cond Generator,
    (generatorSystem fun b => if b then Atom.H else .O).Run System.always tr s ∧
      3 ≤ s.data.out.length ∧ ((s.data.out.drop 0).take 3).count .H = 2 := by
  obtain ⟨tr, s, hr, hout, _⟩ := first_molecule
  have hlen : 3 ≤ s.data.out.length := by simp [hout]
  exact ⟨tr, s, hr, hlen, ((molecules_exact hr).2 0 hlen).1⟩

theorem always_awake_sample : ∃ tr, ∃ s : State Bool Cond Generator,
    (generatorSystem fun b => if b then Atom.H else .O).Run System.always tr s ∧
      s.phase true = .woken .h_cond ∧ ∃ t, (s.phase t).Awake := by
  obtain ⟨tr, s, hr, _, hph⟩ := first_molecule
  exact ⟨tr, s, hr, hph, always_awake ⟨true, rfl⟩ ⟨false, rfl⟩ hr⟩

end samples

end ModCpp.H2o
