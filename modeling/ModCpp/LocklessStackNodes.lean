import ModCpp.LocklessStackRuns

/-!
# The nodes of the lockless stack

A node is new in one push, then on the chain, then popped in one pop, which deletes it. As long as
no exchange of a pop meets a deleted node, none is lost on this way or deleted twice.
-/

namespace ModCpp.LocklessStack
variable {τ κ α : Type*} [DecidableEq τ] [DecidableEq κ] {s s' : Stack τ κ α}
  {h h' : History τ κ α} {tr : List (Event τ κ α)} {e : Event τ κ α} {t : τ} {a : κ}

/-- Each living node is on the chain or held by a thread. -/
def Covered (h : History τ κ α) (s : Stack τ κ α) : Prop :=
  ∀ a, s.mem a ≠ none → a ∈ pushedNodes h.exchanges ∨ ∃ t, (s.pc t).Holds a

omit [DecidableEq τ] in
theorem Covered.of_step (hc : Covered h s) (hpc : ∀ u, u ≠ t → s'.pc u = s.pc u)
    (hmem : ∀ a, s'.mem a ≠ none → s.mem a ≠ none ∨ (s'.pc t).Holds a)
    (hmove : ∀ a, s'.mem a ≠ none → a ∈ pushedNodes h.exchanges ∨ (s.pc t).Holds a →
      a ∈ pushedNodes h'.exchanges ∨ (s'.pc t).Holds a) : Covered h' s' := by
  intro a ha
  have hlast : a ∈ pushedNodes h.exchanges ∨ (s.pc t).Holds a →
      a ∈ pushedNodes h'.exchanges ∨ ∃ u, (s'.pc u).Holds a :=
    fun hin => (hmove a ha hin).imp_right fun ht => ⟨t, ht⟩
  rcases hmem a ha with hlive | hnew
  · rcases hc a hlive with hin | ⟨u, hu⟩
    · exact hlast (.inl hin)
    · by_cases hut : u = t
      · exact hlast (.inr (hut ▸ hu))
      · rw [← hpc u hut] at hu
        exact .inr ⟨u, hu⟩
  · exact .inr ⟨t, hnew⟩

theorem Covered.goto (hc : Covered h s) {p p' : Pc κ α} (hpc : s.pc t = p)
    (hex : h'.exchanges = h.exchanges) (hheld : ∀ a, p.Holds a → p'.Holds a) :
    Covered h' (s.goto t p') := by
  refine hc.of_step (fun u hu => goto_pc_ne hu) (fun a ha => .inl ha) ?_
  rintro a - (hin | hown)
  · exact .inl (hex ▸ hin)
  · rw [hpc] at hown
    rw [goto_pc_self]
    exact .inr (hheld a hown)

theorem Covered.step (hc : Covered h s) (hstep : Step s e s') : Covered (h.record e) s' := by
  cases hstep with
  | @pushNew t data newNode hpc hmem =>
    have hnew : (Pc.pushLoad data newNode).Holds newNode := .inl rfl
    refine hc.of_step (t := t) (fun u hu => goto_pc_ne hu) ?_ ?_
    · intro a ha
      by_cases hne : a = newNode
      · rw [goto_pc_self, hne]
        exact .inr hnew
      · rw [goto_mem, write_mem_ne hne] at ha
        exact .inl ha
    · rintro a - (hin | hown)
      · exact .inl hin
      · rw [hpc] at hown
        simp [Pc.Holds, Pc.pushing, Pc.removing] at hown
  | @pushLoad t data newNode hpc => exact hc.goto hpc rfl fun a hown => hown
  | @pushLink t data newNode curHead hpc =>
    refine hc.of_step (t := t) (fun u hu => goto_pc_ne hu) ?_ ?_
    · intro a ha
      by_cases hne : a = newNode
      · rw [goto_mem, hne, write_mem_self] at ha
        exact .inl fun hnone => ha (by rw [← hne, hnone, Option.map_none])
      · rw [goto_mem, write_mem_ne hne] at ha
        exact .inl ha
    · rintro a - (hin | hown)
      · exact .inl hin
      · rw [hpc] at hown
        rw [goto_pc_self]
        exact .inr hown
  | @pushSwapped t data newNode curHead hpc hhead =>
    refine hc.of_step (t := t) (fun u hu => goto_pc_ne hu) (fun a ha => .inl ha) ?_
    rintro a - hin
    left
    rw [History.record, pushedNodes_push]
    rcases hin with hin | hown
    · exact List.mem_cons_of_mem _ hin
    · obtain rfl : newNode = a := by
        rw [hpc] at hown
        simpa [Pc.Holds, Pc.pushing, Pc.removing] using hown
      exact List.mem_cons_self
  | @pushRetried t data newNode curHead hpc => exact hc.goto hpc rfl fun a hown => hown
  | @popLoad t hpc => exact hc.goto hpc rfl fun a hown => hown
  | @popEmpty t hpc => exact hc.goto hpc rfl fun a hown => hown
  | @popPrev t curHead prev hpc hread => exact hc.goto hpc rfl fun a hown => hown
  | @popSwapped t curHead prev hpc hhead =>
    refine hc.of_step (t := t) (fun u hu => goto_pc_ne hu) (fun a ha => .inl ha) ?_
    rintro a - (hin | hown)
    · by_cases hne : a = curHead
      · rw [goto_pc_self, hne]
        exact .inr (.inr rfl)
      · left
        rw [History.record, pushedNodes_pop]
        exact (List.mem_erase_of_ne hne).mpr hin
    · rw [hpc] at hown
      simp [Pc.Holds, Pc.pushing, Pc.removing] at hown
  | @popRetried t curHead prev hpc => exact hc.goto hpc rfl fun a hown => hown
  | @popRead t curHead ans hpc hread => exact hc.goto hpc rfl fun a hown => hown
  | @popDelete t curHead ans hpc =>
    have hne : ∀ a, ((s.write curHead none).goto t .idle).mem a ≠ none → a ≠ curHead := by
      rintro a ha rfl
      rw [goto_mem, write_mem_self] at ha
      exact ha rfl
    refine hc.of_step (t := t) (fun u hu => goto_pc_ne hu) ?_ ?_
    · intro a ha
      have hother := hne a ha
      rw [goto_mem, write_mem_ne hother] at ha
      exact .inl ha
    · rintro a ha (hin | hown)
      · exact .inl hin
      · rw [hpc] at hown
        have heq : curHead = a := by simpa [Pc.Holds, Pc.pushing, Pc.removing] using hown
        exact absurd heq.symm (hne a ha)

variable [DecidableEq α]

theorem run_covered (hr : system.Run abaFree tr s) : Covered (hist tr) s := by
  refine System.run_invariant (P := fun tr s => Covered (hist tr) s) ?_ ?_ hr
  · intro s hs a ha
    rw [show s = _ from hs] at ha
    exact absurd rfl ha
  · intro tr s e s' _ hc _ hstep
    rw [hist_concat]
    exact hc.step (step_cases hstep)

/-- No node is lost and none is deleted twice: the living nodes are those on the chain and the one
of each thread that is about to push or delete it, and a thread deletes a living node. -/
theorem nodes_accounted (hr : system.Run abaFree tr s) :
    Linked s.prevOf s.head (pushedNodes (hist tr).exchanges) ∧
      (∀ a, s.mem a ≠ none ↔ a ∈ pushedNodes (hist tr).exchanges ∨ ∃ t, (s.pc t).Holds a) ∧
      (∀ t a, (s.pc t).Holds a → a ∉ pushedNodes (hist tr).exchanges ∧
        ∀ u, (s.pc u).Holds a → u = t) ∧
      ((∀ t, s.pc t = .idle) → ∀ a, s.mem a ≠ none ↔ a ∈ pushedNodes (hist tr).exchanges) ∧
      ∀ t curHead ans s', system.step s (.popDelete t curHead ans) s' → s.mem curHead ≠ none := by
  have hs := run_sound hr
  have hc := run_covered hr
  have hlive : ∀ a, a ∈ pushedNodes (hist tr).exchanges ∨ (∃ t, (s.pc t).Holds a) →
      s.mem a ≠ none := by
    rintro a (hin | ⟨t, ht⟩)
    · exact hs.live a hin
    · exact (hs.held t a ht).1
  refine ⟨hs.chain, fun a => ⟨hc a, hlive a⟩, fun t a ht => ?_, fun hidle a => ?_, ?_⟩
  · exact ⟨(hs.held t a ht).2, fun u hu => hs.held_unique u t a hu ht⟩
  · refine ⟨fun ha => ?_, fun hin => hlive a (.inl hin)⟩
    rcases hc a ha with hin | ⟨t, ht⟩
    · exact hin
    · rw [hidle t] at ht
      simp [Pc.Holds, Pc.pushing, Pc.removing] at ht
  · intro t curHead ans s' hstep
    cases step_cases hstep with
    | popDelete hpc => exact hlive curHead (.inr ⟨t, by rw [hpc]; exact .inr rfl⟩)

theorem nodes_accounted_sample : ∃ tr s,
    (system : System (Stack Bool ℕ ℕ) _).Run abaFree tr s ∧ s.mem 1 ≠ none ∧ s.mem 2 ≠ none ∧
      (2 ∈ pushedNodes (hist tr).exchanges ∨ ∃ t, (s.pc t).Holds 2) := by
  have hr : ∃ s, (system : System (Stack Bool ℕ ℕ) _).Run abaFree
      [.pushNew false 10 1, .pushLoad false, .pushLink false, .pushExchange false 10 1 true,
        .pushNew true 20 2, .popLoad false] s ∧ s.mem 1 ≠ none ∧ s.mem 2 ≠ none :=
    ⟨_, System.run_of_exec (fun _ _ _ h => h) rfl rfl, by decide, by decide⟩
  obtain ⟨s, hr, hone, htwo⟩ := hr
  exact ⟨_, s, hr, hone, htwo, ((nodes_accounted hr).2.1 2).mp htwo⟩

end ModCpp.LocklessStack
