import ModCpp.LocklessStackChain

/-!
# Runs of the lockless stack

An allocator that never gives an address twice keeps a pop from meeting a deleted node at its
exchange, and the exchanges then linearize the calls. With recycled addresses the same holds
of the runs in which no pop meets one.
-/

namespace ModCpp.LocklessStack
variable {τ κ α : Type*} [DecidableEq τ] [DecidableEq κ] {s s' : Stack τ κ α} {h : History τ κ α}
  {tr : List (Event τ κ α)} {e : Event τ κ α}

/-- Deleted addresses stay deleted as long as `new` returns unused ones. -/
structure Fresh (h : History τ κ α) (s : Stack τ κ α) : Prop where
  used : ∀ a, s.mem a ≠ none → a ∈ h.used
  freed : ∀ t, ∀ a ∈ h.freed t, a ∈ h.used ∧ s.mem a = none

omit [DecidableEq τ] [DecidableEq κ] in
theorem Fresh.of_eq (hf : Fresh h s) {h' : History τ κ α} (hused : h'.used = h.used)
    (hfreed : ∀ t, h'.freed t ⊆ h.freed t) (hmem : s'.mem = s.mem) : Fresh h' s' := by
  constructor
  · rw [hused, hmem]
    exact hf.used
  · intro t a ha
    rw [hused, hmem]
    exact hf.freed t a (hfreed t ha)

theorem Fresh.abaFree (hf : Fresh h s) (hs : Sound h s) (hstep : Step s e s') : h.AbaFree e := by
  cases hstep with
  | @popSwapped t curHead prev hpc hhead =>
    exact fun hm => (hs.published_head hhead).1 (hf.freed t curHead hm).2
  | _ => trivial

theorem Fresh.step (hf : Fresh h s) (hs : Sound h s) (hok : h.NoReuse e) (hstep : Step s e s') :
    Fresh (h.record e) s' := by
  have hreset : ∀ t u, Function.update h.freed t [] u ⊆ h.freed u := by
    intro t u
    by_cases hu : u = t
    · simp [hu]
    · simp [Function.update_of_ne hu]
  cases hstep with
  | @pushNew t data newNode hpc hmem =>
    constructor
    · intro a ha
      by_cases hne : a = newNode
      · exact hne ▸ List.mem_cons_self
      · rw [goto_mem, write_mem_ne hne] at ha
        exact List.mem_cons_of_mem _ (hf.used a ha)
    · intro u a ha
      obtain ⟨hused, hnone⟩ := hf.freed u a ha
      have hne : a ≠ newNode := fun he => hok (he ▸ hused)
      exact ⟨List.mem_cons_of_mem _ hused, by
        rw [goto_mem, write_mem_ne hne, hnone]⟩
  | @pushLink t data newNode curHead hpc =>
    have hlive := (hs.held t newNode (by rw [hpc]; exact .inl rfl)).1
    constructor
    · intro a ha
      by_cases hne : a = newNode
      · exact hf.used a (hne ▸ hlive)
      · rw [goto_mem, write_mem_ne hne] at ha
        exact hf.used a ha
    · intro u a ha
      obtain ⟨hused, hnone⟩ := hf.freed u a ha
      have hne : a ≠ newNode := fun he => hlive (he ▸ hnone)
      exact ⟨hused, by rw [goto_mem, write_mem_ne hne, hnone]⟩
  | @popDelete t curHead ans hpc =>
    have hlive := (hs.held t curHead (by rw [hpc]; exact .inr rfl)).1
    constructor
    · intro a ha
      by_cases hne : a = curHead
      · exact hf.used a (hne ▸ hlive)
      · rw [goto_mem, write_mem_ne hne] at ha
        exact hf.used a ha
    · intro u a ha
      rcases List.mem_cons.mp ha with rfl | ha
      · exact ⟨hf.used a hlive, by rw [goto_mem, write_mem_self]⟩
      · obtain ⟨hused, hnone⟩ := hf.freed u a ha
        have hne : a ≠ curHead := fun he => hlive (he ▸ hnone)
        exact ⟨hused, by rw [goto_mem, write_mem_ne hne, hnone]⟩
  | popLoad hpc => exact hf.of_eq rfl (hreset _) rfl
  | popRetried hpc => exact hf.of_eq rfl (hreset _) rfl
  | _ => exact hf.of_eq rfl (fun _ => List.Subset.refl _) rfl

theorem run_fresh [DecidableEq α] (hr : system.Run noReuse tr s) :
    system.Run abaFree tr s ∧ Fresh (hist tr) s := by
  refine System.run_invariant (P := fun tr s => system.Run abaFree tr s ∧ Fresh (hist tr) s)
    ?_ ?_ hr
  · intro s hs
    refine ⟨.start hs, ?_⟩
    rw [show s = _ from hs]
    constructor <;> simp [History.empty]
  · intro tr s e s' _ hp hok hs
    obtain ⟨hrun, hfresh⟩ := hp
    have hsound := run_sound hrun
    have hstep := step_cases hs
    refine ⟨.step hrun (hfresh.abaFree hsound hstep) hs, ?_⟩
    rw [hist_concat]
    exact hfresh.step hsound hok hstep

def Event.Starts (t : τ) : Event τ κ α → Prop
  | .pushNew u _ _ => u = t
  | .popLoad u => u = t
  | _ => False

instance (t : τ) (e : Event τ κ α) : Decidable (e.Starts t) := by
  cases e <;> first
    | exact inferInstanceAs (Decidable (_ = _))
    | exact inferInstanceAs (Decidable False)

def callMoments (t : τ) (tr : List (Event τ κ α)) : List (List (Event τ κ α)) :=
  momentsSince (Event.Starts t) tr

theorem Step.popTest_none {t : τ} (hstep : Step s e s') (hpc : s'.pc t = .popTest none) :
    (s.pc t = .popTest none ∧ ¬ e.Starts t) ∨
      (s.head = none ∧ (h.record e).exchanges = h.exchanges) := by
  have hother : ∀ {u : τ} {p : Pc κ α} {r : Stack τ κ α}, r.pc = s.pc → p ≠ .popTest none →
      (r.goto u p).pc t = .popTest none → u ≠ t ∧ s.pc t = .popTest none := by
    intro u p r hr hp hgoto
    by_cases hut : t = u
    · subst hut
      rw [goto_pc_self] at hgoto
      exact absurd hgoto hp
    · rw [goto_pc_ne hut, hr] at hgoto
      exact ⟨Ne.symm hut, hgoto⟩
  have hread : ∀ {u : τ}, (s.goto u (.popTest s.head)).pc t = .popTest none →
      (u ≠ t ∧ s.pc t = .popTest none) ∨ s.head = none := by
    intro u hgoto
    by_cases hut : t = u
    · subst hut
      rw [goto_pc_self] at hgoto
      cases hhead : s.head with
      | none => exact .inr rfl
      | some a => simp [hhead] at hgoto
    · rw [goto_pc_ne hut] at hgoto
      exact .inl ⟨Ne.symm hut, hgoto⟩
  cases hstep with
  | pushNew data _ _ =>
    obtain ⟨hne, hs⟩ := hother rfl (by simp) hpc
    exact .inl ⟨hs, hne⟩
  | pushLoad _ => exact .inl ⟨(hother rfl (by simp) hpc).2, id⟩
  | pushLink _ => exact .inl ⟨(hother rfl (by simp) hpc).2, id⟩
  | pushSwapped _ _ => exact .inl ⟨(hother rfl (by simp) hpc).2, id⟩
  | pushRetried _ => exact .inl ⟨(hother rfl (by simp) hpc).2, id⟩
  | popLoad _ =>
    rcases hread hpc with ⟨hne, hs⟩ | hhead
    · exact .inl ⟨hs, hne⟩
    · exact .inr ⟨hhead, rfl⟩
  | popEmpty _ => exact .inl ⟨(hother rfl (by simp) hpc).2, id⟩
  | popPrev _ _ => exact .inl ⟨(hother rfl (by simp) hpc).2, id⟩
  | popSwapped _ _ => exact .inl ⟨(hother rfl (by simp) hpc).2, id⟩
  | popRetried _ =>
    rcases hread hpc with ⟨_, hs⟩ | hhead
    · exact .inl ⟨hs, id⟩
    · exact .inr ⟨hhead, rfl⟩
  | popRead _ _ => exact .inl ⟨(hother rfl (by simp) hpc).2, id⟩
  | popDelete _ => exact .inl ⟨(hother rfl (by simp) hpc).2, id⟩

omit [DecidableEq τ] in
theorem Sound.lifo_nil (hs : Sound h s) (hhead : s.head = none) : (lifo h.exchanges).1 = [] := by
  have hchain := hs.chain
  rw [hhead] at hchain
  have hvalues := hs.values
  rw [hchain.eq_nil] at hvalues
  exact List.map_eq_nil_iff.mp hvalues.symm

theorem run_emptySeen [DecidableEq α] (hr : system.Run abaFree tr s) (t : τ)
    (hpc : s.pc t = .popTest none) : ∃ p ∈ callMoments t tr, (lifo (hist p).exchanges).1 = [] := by
  refine System.run_invariant (P := fun tr s => s.pc t = .popTest none →
    ∃ p ∈ callMoments t tr, (lifo (hist p).exchanges).1 = []) ?_ ?_ hr hpc
  · intro s hs hpc
    rw [show s = _ from hs] at hpc
    cases hpc
  · intro tr s e s' hrun ih hok hs hpc
    rcases (step_cases hs).popTest_none (h := hist tr) hpc with ⟨hpc, hstart⟩ | ⟨hhead, hsame⟩
    · obtain ⟨p, hp, hnil⟩ := ih hpc
      exact ⟨p, momentsSince_concat hp hstart, hnil⟩
    · refine ⟨tr ++ [e], self_mem_momentsSince, ?_⟩
      rw [hist_concat, hsame]
      exact (run_sound hrun).lifo_nil hhead

/-- With unused addresses from `new`, the exchanges in their order linearize the calls: a pop
returns what its exchange gives on a sequential stack, and returns nothing only if that stack
was empty during the call. -/
theorem linearizable [DecidableEq α] (hr : system.Run noReuse tr s) :
    (∀ r ∈ (hist tr).returned, (lifo (hist tr).exchanges).2[r.1]? = some (some r.2)) ∧
      ∀ pre t, pre ++ [.popEmpty t] <+: tr →
        ∃ p ∈ callMoments t pre, (lifo (hist p).exchanges).1 = [] := by
  have hrun := (run_fresh hr).1
  refine ⟨(run_sound hrun).returned, ?_⟩
  intro pre t hp
  obtain ⟨s', hr'⟩ := System.run_prefix hrun hp
  obtain ⟨s, hrs, _, hs⟩ := System.run_concat hr'
  cases step_cases hs with
  | popEmpty hpc => exact run_emptySeen hrs t hpc

theorem linearizable_sample : ∃ tr s,
    (system : System (Stack Bool ℕ ℕ) _).Run noReuse tr s ∧
      (lifo (hist tr).exchanges).2[0]? = some (some 10) ∧
      ∃ p ∈ callMoments true tr.dropLast, (lifo (hist p).exchanges).1 = [] := by
  have hr : ∃ s, (system : System (Stack Bool ℕ ℕ) _).Run noReuse
      [.pushNew false 10 1, .pushLoad false, .pushLink false, .pushExchange false 10 1 true,
        .popLoad true, .popLoad false, .popPrev false none, .popExchange false 1 false,
        .popPrev false none, .popExchange false 1 true, .popRead false 10, .popDelete false 1 10,
        .popPrev true (some 5), .popExchange true 1 false, .popEmpty true] s :=
    ⟨_, System.run_of_exec (fun _ _ _ h => h) rfl rfl⟩
  obtain ⟨s, hr⟩ := hr
  have hlin := linearizable hr
  exact ⟨_, s, hr, hlin.1 (0, 10) (by decide), hlin.2 _ true (List.prefix_refl _)⟩

/-- As long as no pop exchanges `head` away from a node deleted since it read `head`, the
chain from `head` is the list of the pushed nodes that were not removed. -/
theorem chain_exact [DecidableEq α] (hr : system.Run abaFree tr s) :
    (∀ a, s.head = some a → s.mem a ≠ none) ∧
      ∃ l, Linked s.prevOf s.head l ∧ (∀ a ∈ l, s.mem a ≠ none) ∧ l.Nodup ∧
        l.Perm (pushedNodes (hist tr).exchanges) := by
  have hs := run_sound hr
  exact ⟨fun a ha => (hs.published_head ha).1, _, hs.chain, hs.live, hs.nodup, .refl _⟩

/-- A pop reads `head` and `prev`, another thread removes both nodes and pushes a new one at
the first address, and the exchange of the first pop puts the deleted second node on top. -/
theorem chain_exact_fails : ∃ tr s,
    (system : System (Stack Bool ℕ ℕ) _).Run System.always tr s ∧
      ¬ ((∀ a, s.head = some a → s.mem a ≠ none) ∧
        ∃ l, Linked s.prevOf s.head l ∧ (∀ a ∈ l, s.mem a ≠ none) ∧ l.Nodup ∧
          l.Perm (pushedNodes (hist tr).exchanges)) :=
  ⟨[.pushNew false 10 1, .pushLoad false, .pushLink false, .pushExchange false 10 1 true,
    .pushNew false 20 2, .pushLoad false, .pushLink false, .pushExchange false 20 2 true,
    .popLoad true, .popPrev true (some 1),
    .popLoad false, .popPrev false (some 1), .popExchange false 2 true, .popRead false 20,
    .popDelete false 2 20,
    .popLoad false, .popPrev false none, .popExchange false 1 true, .popRead false 10,
    .popDelete false 1 10,
    .pushNew false 30 2, .pushLoad false, .pushLink false, .pushExchange false 30 2 true,
    .popExchange true 2 true], _,
    System.run_of_exec (fun _ _ _ h => h) rfl rfl, fun h => h.1 1 rfl rfl⟩

theorem chain_exact_sample : ∃ tr s,
    (system : System (Stack Bool ℕ ℕ) _).Run abaFree tr s ∧
      s.head = some 1 ∧ s.mem 1 ≠ none := by
  have hr : ∃ s, (system : System (Stack Bool ℕ ℕ) _).Run abaFree
      [.pushNew false 10 1, .pushLoad false, .pushLink false, .pushExchange false 10 1 true,
        .popLoad false, .popPrev false none, .popExchange false 1 true, .popRead false 10,
        .popDelete false 1 10,
        .pushNew false 30 1, .pushLoad false, .pushLink false, .pushExchange false 30 1 true] s ∧
      s.head = some 1 :=
    ⟨_, System.run_of_exec (fun _ _ _ h => h) rfl rfl, rfl⟩
  obtain ⟨s, hr, hhead⟩ := hr
  exact ⟨_, s, hr, hhead, (chain_exact hr).1 1 hhead⟩

end ModCpp.LocklessStack
