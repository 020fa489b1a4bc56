import ModCpp.ListPoolRuns
import ModCpp.ObjectPoolRuns
import ModCpp.Recycling

/-!
# Which slot a pool uses again

The intrusive list of object-pool.cc is a stack of the released chunks, and the list of opool.cc a
queue of the released slots. In both a node gives up a new slot only when none is free.
-/

namespace ModCpp

theorem lifo_perm {κ : Type*} (x : κ) (l : List κ) : (lifo x l).Perm (x :: l) := List.Perm.refl _

theorem fifo_perm {κ : Type*} (x : κ) (l : List κ) : (fifo x l).Perm (x :: l) :=
  List.perm_append_singleton x l

namespace ObjectPool
variable {c : Layout} {p p' : Pool} {h : History} {tr : List Op} {e : Op} {l : List ℕ} {block : ℕ}

def Op.turnover : Op → Option (Turnover ℕ)
  | .new _ _ res => res.map .take
  | .release obj _ => some (.give obj)
  | .write _ _ => none

def Chained (c : Layout) (h : History) (p : Pool) (l : List ℕ) : Prop :=
  ∃ chs full last k, Sound c h p chs l full last k

theorem Chained.isSound (hc : Chained c h p l) : IsSound c h p := by
  obtain ⟨chs, full, last, k, hs⟩ := hc
  exact ⟨chs, l, full, last, k, hs⟩

theorem Chained.linked (hc : Chained c h p l) : Linked p.link (ptr p.freeList) l := by
  obtain ⟨chs, full, last, k, hs⟩ := hc
  exact hs.chain

theorem Chained.nodup (hc : Chained c h p l) : (h.live ++ l.map toObject).Nodup := by
  obtain ⟨chs, full, last, k, hs⟩ := hc
  rw [hs.live, ← List.map_append]
  exact hs.nodup.map Sound.toObject_injective

theorem IsSound.chained_nil (hs : IsSound c h p) (hnil : h.released = []) : Chained c h p [] := by
  obtain ⟨chs, l, full, last, k, hs⟩ := hs
  obtain rfl : l = [] := List.perm_nil.mp (hnil ▸ hs.released)
  exact ⟨chs, full, last, k, hs⟩

theorem Chained.new_cons {a : ℕ} (hc : Chained c h p (a :: l)) (block : ℕ)
    (bytes : ℕ → UInt8) :
    ∃ p', p.new c block bytes false = .ok (p', some (toObject a)) ∧
      Chained c (h.record (.new block bytes (some (toObject a)))) p' l := by
  obtain ⟨chs, full, last, k, hs⟩ := hc
  have hchain := hs.chain.1
  have hne : p.freeList ≠ 0 := by
    intro hzero
    rw [ptr, if_pos hzero] at hchain
    cases hchain
  rw [ptr, if_neg hne] at hchain
  obtain rfl : p.freeList = a := Option.some_inj.mp hchain
  have hcall : p.new c block bytes false =
      .ok ({ p.write c (toObject p.freeList) bytes with
        freeList := p.memory.loadWord p.freeList }, some (toObject p.freeList)) := by
    rw [Pool.new, ok_bind (prepare_reuse hne)]
    rfl
  exact ⟨_, hcall, _, _, _, _, hs.reuse.write List.mem_cons_self⟩

theorem Chained.new_nil (hc : Chained c h p []) (hcap : 1 ≤ c.nodeCapacity) (bytes : ℕ → UInt8)
    (hfresh : NeedsNode c p → FreshBlock c p.memoryNodeList block) :
    ∃ p' obj, p.new c block bytes false = .ok (p', some obj) ∧
      Chained c (h.record (.new block bytes (some obj))) p' [] := by
  obtain ⟨p', obj, hnew, hs'⟩ := hc.isSound.new_ok bytes hcap hfresh
  refine ⟨p', obj, hnew, hs'.chained_nil ?_⟩
  obtain ⟨chs, full, last, k, hs⟩ := hc
  rw [History.record, ← hs.released.nil_eq]
  rfl

theorem Chained.step (hc : Chained c (hist tr) p l) (hcap : 1 ≤ c.nodeCapacity)
    (hok : permitted tr e) (hstep : next c p e = some p') :
    ∃ l', Chained c (hist (tr ++ [e])) p' l' ∧
      ((∃ turn, e.turnover = some turn ∧ Recycles lifo ⟨l.map toObject, (hist tr).live⟩ turn
        ⟨l'.map toObject, (hist (tr ++ [e])).live⟩) ∨
      e.turnover = none ∧ l' = l ∧ (hist (tr ++ [e])).live = (hist tr).live) := by
  rw [hist_concat]
  cases e with
  | new block bytes res =>
    rw [next] at hstep
    split_ifs at hstep with hfresh
    cases res with
    | none => exact absurd rfl hok
    | some r =>
      cases l with
      | cons a l =>
        obtain ⟨q, hnew, hq⟩ := hc.new_cons block bytes
        simp only [Option.isNone_some, hnew] at hstep
        split_ifs at hstep with hres
        obtain rfl := Option.some_inj.mp hres
        obtain rfl := Option.some_inj.mp hstep
        exact ⟨l, hq, .inl ⟨_, rfl, .reuse⟩⟩
      | nil =>
        obtain ⟨q, obj, hnew, hq⟩ := hc.new_nil hcap bytes hfresh
        simp only [Option.isNone_some, hnew] at hstep
        split_ifs at hstep with hres
        obtain rfl := Option.some_inj.mp hres
        obtain rfl := Option.some_inj.mp hstep
        have hnodup := hq.nodup
        rw [List.map_nil, List.append_nil] at hnodup
        exact ⟨[], hq, .inl ⟨_, rfl, .make (List.nodup_cons.mp hnodup).1⟩⟩
  | release obj bytes =>
    cases hstep
    obtain ⟨chs, full, last, k, hs⟩ := hc
    have hmem : obj ∈ (hist tr).live := hok
    have hobj := hmem
    rw [hs.live] at hobj
    obtain ⟨a, ha, rfl⟩ := List.mem_map.mp hobj
    refine ⟨a :: l, ⟨_, _, _, _, (hs.write ha).putBack ha⟩, .inl ⟨_, rfl, ?_⟩⟩
    exact .give hmem
  | write obj bytes =>
    cases hstep
    obtain ⟨chs, full, last, k, hs⟩ := hc
    have hobj : obj ∈ (hist tr).live := hok
    rw [hs.live] at hobj
    obtain ⟨a, ha, rfl⟩ := List.mem_map.mp hobj
    exact ⟨l, ⟨_, _, _, _, hs.write ha⟩, .inr ⟨rfl, rfl, rfl⟩⟩

theorem run_recycles (hfits : c.Fits) (hcap : 1 ≤ c.nodeCapacity)
    (hr : (system c).Run permitted tr p) :
    ∃ s : Stock ℕ, (recycler lifo).Run System.always (tr.filterMap Op.turnover) s ∧
      ∃ l, Chained c (hist tr) p l ∧ s = ⟨l.map toObject, (hist tr).live⟩ := by
  refine System.run_simulates (T := recycler lifo) Op.turnover (R := fun tr p s =>
    ∃ l, Chained c (hist tr) p l ∧ s = ⟨l.map toObject, (hist tr).live⟩) ?_ ?_ hr
  · intro p hp
    obtain ⟨memory, block, hf, rfl⟩ := hp
    exact ⟨⟨[], []⟩, rfl, [], (isSound_construct hfits memory hf).chained_nil rfl, rfl⟩
  · rintro tr p e p' s ⟨l, hc, rfl⟩ hok hstep
    obtain ⟨l', hc', hmove⟩ := hc.step hcap hok hstep
    refine ⟨_, ⟨l', hc', rfl⟩, ?_⟩
    rcases hmove with hmove | ⟨hnone, rfl, hlive⟩
    · exact .inl hmove
    · exact .inr ⟨hnone, by rw [hlive]⟩

/-- The pool is a stack of released chunks: `New` takes the chunk released last, carves one that no
call had before only when none is free, and no chunk is lost. -/
theorem reuses_last (hfits : c.Fits) (hcap : 1 ≤ c.nodeCapacity)
    (hr : (system c).Run permitted tr p) :
    ∃ l, Linked p.link (ptr p.freeList) l ∧
      (recycler lifo).Run System.always (tr.filterMap Op.turnover)
        ⟨l.map toObject, (hist tr).live⟩ ∧
      (l.map toObject).reverse.Sublist ((tr.filterMap Op.turnover).filterMap Turnover.given) ∧
      ∀ obj, .take obj ∈ tr.filterMap Op.turnover →
        obj ∈ (hist tr).live ∨ obj ∈ l.map toObject := by
  obtain ⟨s, hrun, l, hc, rfl⟩ := run_recycles hfits hcap hr
  exact ⟨l, hc.linked, hrun, lifo_order hrun, fun obj => recycler_keeps lifo_perm hrun⟩

/-- Of two chunks released, the second is used again first. -/
theorem reuses_last_sample : ∃ tr p, (system ⟨8, 2⟩).Run permitted tr p ∧
    (hist tr).live = [124] ∧ ∃ l, Linked p.link (ptr p.freeList) l ∧
      (l.map toObject).reverse.Sublist [108, 124] := by
  have hr : ∃ p, (system ⟨8, 2⟩).Run permitted
      [.new 0 (fun _ => 1) (some 108), .new 0 (fun _ => 2) (some 124),
        .release 108 (fun _ => 0), .release 124 (fun _ => 7),
        .new 0 (fun _ => 4) (some 124)] p :=
    ⟨_, System.run_of_exec (fun _ _ _ h => h) ⟨fun _ => 0, 100, by decide, rfl⟩ rfl⟩
  obtain ⟨p, hr⟩ := hr
  obtain ⟨l, hlinked, -, hsub, -⟩ := reuses_last (by decide) (by decide) hr
  exact ⟨_, p, hr, rfl, l, hlinked, hsub⟩

end ObjectPool

namespace ListPool
variable {capacity : ℕ} {p p' : ListPool} {h : History} {tr : List Op} {e : Op} {slot : Slot}

def Op.turnover : Op → Option (Turnover Slot)
  | .new _ res => res.map .take
  | .release obj => some (.give obj)

def quiet (tr : List Op) : Op → Prop
  | .new _ res => res ≠ none
  | .release obj => obj ∈ (hist tr).live

instance (tr : List Op) : (e : Op) → Decidable (quiet tr e)
  | .new _ _ => inferInstanceAs (Decidable (_ ≠ _))
  | .release _ => inferInstanceAs (Decidable (_ ∈ _))

theorem IsSound.nodup (hs : IsSound capacity h p) : (h.live ++ p.freelist).Nodup := by
  obtain ⟨full, k, hs⟩ := hs
  exact hs.nodup

theorem IsSound.new_cons (hs : IsSound capacity h p) (realloc : Bool) {rest : List Slot}
    (hfree : p.freelist = slot :: rest) :
    ∃ p', new capacity realloc false p = .ok (p', some slot) ∧ p'.freelist = rest ∧
      IsSound capacity (h.record (.new realloc (some slot))) p' := by
  obtain ⟨full, k, hs⟩ := hs
  obtain ⟨hcall, hs'⟩ := hs.reuse realloc hfree
  exact ⟨_, ok_bind hcall, rfl, full, k, hs' _⟩

theorem IsSound.new_nil (hs : IsSound capacity h p) (realloc : Bool) (hcap : 1 ≤ capacity)
    (hmax : capacity < 2 ^ 31) (hfree : p.freelist = []) :
    ∃ p' slot, new capacity realloc false p = .ok (p', some slot) ∧ p'.freelist = [] ∧
      IsSound capacity (h.record (.new realloc (some slot))) p' := by
  obtain ⟨p', slot, hnew, hs'⟩ := hs.new_ok realloc hcap (.inl hmax)
  refine ⟨p', slot, hnew, ?_, hs'⟩
  obtain ⟨full, k, hs⟩ := hs
  obtain ⟨full', k', hs'⟩ := hs'
  have hpeak := hs.peak
  have hpeak' := hs'.peak
  rw [hfree, List.append_nil] at hpeak
  simp only [History.record, List.length_append, List.length_cons] at hpeak'
  exact List.eq_nil_of_length_eq_zero (by omega)

theorem IsSound.step (hs : IsSound capacity (hist tr) p) (hcap : 1 ≤ capacity)
    (hmax : capacity < 2 ^ 31) (hok : quiet tr e) (hstep : next capacity p e = some p') :
    IsSound capacity (hist (tr ++ [e])) p' ∧ ∃ turn, e.turnover = some turn ∧
      Recycles fifo ⟨p.freelist, (hist tr).live⟩ turn ⟨p'.freelist, (hist (tr ++ [e])).live⟩ := by
  rw [hist, history_concat]
  cases e with
  | new realloc res =>
    rw [next] at hstep
    cases res with
    | none => exact absurd rfl hok
    | some r =>
      cases hfree : p.freelist with
      | cons slot rest =>
        obtain ⟨q, hnew, hrest, hq⟩ := hs.new_cons realloc hfree
        simp only [Option.isNone_some, hnew] at hstep
        split_ifs at hstep with hres
        obtain rfl := Option.some_inj.mp hres
        obtain rfl := Option.some_inj.mp hstep
        refine ⟨hq, _, rfl, ?_⟩
        rw [hrest]
        exact .reuse
      | nil =>
        obtain ⟨q, slot, hnew, hrest, hq⟩ := hs.new_nil realloc hcap hmax hfree
        simp only [Option.isNone_some, hnew] at hstep
        split_ifs at hstep with hres
        obtain rfl := Option.some_inj.mp hres
        obtain rfl := Option.some_inj.mp hstep
        have hnodup := hq.nodup
        rw [hrest, List.append_nil] at hnodup
        refine ⟨hq, _, rfl, ?_⟩
        rw [hrest]
        exact .make (List.nodup_cons.mp hnodup).1
  | release obj =>
    cases hstep
    have hgive : Recycles fifo ⟨p.freelist, (hist tr).live⟩ (.give obj)
        ⟨fifo obj p.freelist, (hist tr).live.erase obj⟩ := .give hok
    exact ⟨hs.release hok, _, rfl, hgive⟩

theorem run_recycles (hcap : 1 ≤ capacity) (hmax : capacity < 2 ^ 31)
    (hr : (system capacity).Run quiet tr p) :
    ∃ s : Stock Slot, (recycler fifo).Run System.always (tr.filterMap Op.turnover) s ∧
      IsSound capacity (hist tr) p ∧ s = ⟨p.freelist, (hist tr).live⟩ := by
  refine System.run_simulates (T := recycler fifo) Op.turnover (R := fun tr p s =>
    IsSound capacity (hist tr) p ∧ s = ⟨p.freelist, (hist tr).live⟩) ?_ ?_ hr
  · rintro p rfl
    exact ⟨⟨[], []⟩, rfl, ⟨[], 0, .construct⟩, rfl⟩
  · rintro tr p e p' s ⟨hs, rfl⟩ hok hstep
    obtain ⟨hs', hmove⟩ := hs.step hcap hmax hok hstep
    exact ⟨_, ⟨hs', rfl⟩, .inl hmove⟩

/-- The pool is a queue of released slots: the slots used again and then the list of free slots are
the released slots in their order, a node gives up a slot that no call had before only when none is
free, and no slot is lost. -/
theorem reuses_first (hcap : 1 ≤ capacity) (hmax : capacity < 2 ^ 31)
    (hr : (system capacity).Run quiet tr p) :
    (recycler fifo).Run System.always (tr.filterMap Op.turnover) ⟨p.freelist, (hist tr).live⟩ ∧
      (∃ reused, reused.Sublist ((tr.filterMap Op.turnover).filterMap Turnover.taken) ∧
        reused ++ p.freelist = (tr.filterMap Op.turnover).filterMap Turnover.given) ∧
      ∀ slot, .take slot ∈ tr.filterMap Op.turnover →
        slot ∈ (hist tr).live ∨ slot ∈ p.freelist := by
  obtain ⟨s, hrun, -, rfl⟩ := run_recycles hcap hmax hr
  exact ⟨hrun, fifo_order hrun, fun slot => recycler_keeps fifo_perm hrun⟩

/-- Of two slots released, the first is used again first. -/
theorem reuses_first_sample : ∃ tr p, (system 2).Run quiet tr p ∧
    (hist tr).live = [(0, 0)] ∧ ∃ reused, reused ++ p.freelist = [(0, 0), (0, 1)] := by
  have hr : ∃ p, (system 2).Run quiet [.new false (some (0, 0)), .new false (some (0, 1)),
      .release (0, 0), .release (0, 1), .new true (some (0, 0))] p :=
    ⟨_, System.run_of_exec (fun _ _ _ h => h) rfl rfl⟩
  obtain ⟨p, hr⟩ := hr
  obtain ⟨-, ⟨reused, -, horder⟩, -⟩ := reuses_first (by decide) (by decide) hr
  exact ⟨_, p, hr, rfl, reused, horder⟩

end ListPool
end ModCpp
