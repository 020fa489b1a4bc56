import ModCpp.ObjectPoolChunks

/-!
# Runs of the object pool

Every call of a client returns and keeps the chunks sound. Chunks are carved only when no
chunk is free, so as many have been carved as objects were ever live at one time.
-/

namespace ModCpp.ObjectPool
variable {c : Layout} {p p' : Pool} {h : History} {tr : List Op} {e : Op} {block : ℕ}

def IsSound (c : Layout) (h : History) (p : Pool) : Prop :=
  ∃ chs l full last k, Sound c h p chs l full last k

theorem isSound_construct (hfits : c.Fits) (memory : Memory) (hf : FreshBlock c [] block) :
    IsSound c ⟨[], [], 0⟩ (construct memory block) := by
  refine ⟨[], [], [], ⟨block, block⟩, 0, ?_⟩
  constructor
  · rfl
  · have hplaced : ∀ n ∈ [] ++ [(⟨block, block⟩ : MemoryNode)],
        n.mem ≠ 0 ∧ n.mem + c.nodeSize ≤ 2 ^ 64 := by
      intro n hn
      rw [List.mem_singleton.mp hn]
      exact ⟨hf.1, hf.2.1⟩
    exact ⟨hfits, by simp, by simp, Nat.zero_le _, by simp, hplaced, by simp⟩
  · rfl
  · exact linked_nil.mpr rfl
  all_goals simp

theorem IsSound.mem_live (hs : IsSound c h p) {obj : ℕ} (ho : obj ∈ h.live) :
    ∃ chs l full last k a, Sound c h p chs l full last k ∧ a ∈ chs ∧ obj = toObject a := by
  obtain ⟨chs, l, full, last, k, hs⟩ := hs
  rw [hs.live] at ho
  obtain ⟨a, ha, rfl⟩ := List.mem_map.mp ho
  exact ⟨chs, l, full, last, k, a, hs, ha, rfl⟩

theorem IsSound.putBack (hs : IsSound c h p) {obj : ℕ} (ho : obj ∈ h.live)
    (bytes : ℕ → UInt8) : IsSound c (h.record (.release obj bytes)) (p.putBack obj) := by
  obtain ⟨chs, l, full, last, k, a, hs, ha, rfl⟩ := hs.mem_live ho
  exact ⟨_, _, _, _, _, hs.putBack ha⟩

theorem IsSound.write (hs : IsSound c h p) {obj : ℕ} (ho : obj ∈ h.live)
    (bytes : ℕ → UInt8) : IsSound c (h.record (.write obj bytes)) (p.write c obj bytes) := by
  obtain ⟨chs, l, full, last, k, a, hs, ha, rfl⟩ := hs.mem_live ho
  exact ⟨_, _, _, _, _, hs.write ha⟩

theorem IsSound.release (hs : IsSound c h p) {obj : ℕ} (ho : obj ∈ h.live)
    (bytes : ℕ → UInt8) : IsSound c (h.record (.release obj bytes)) (p.release c obj bytes) :=
  (hs.write ho bytes).putBack ho bytes

theorem IsSound.prepare_fresh (hs : IsSound c h p) (hcap : 1 ≤ c.nodeCapacity)
    (hfree : p.freeList = 0) (hfresh : NeedsNode c p → FreshBlock c p.memoryNodeList block) :
    ∃ p' chunk, p.prepare c block = .ok (p', chunk, none) ∧ ∀ bytes,
      IsSound c (h.record (.new block bytes (some (toObject chunk)))) p' := by
  obtain ⟨chs, l, full, last, k, hs⟩ := hs
  have hb := hs.bumped
  obtain rfl := hs.nil_of_null hfree
  by_cases hk : k < c.nodeCapacity
  · let bumped : MemoryNode := { last with current := last.current + c.chunkSize }
    have hmono : ∀ b, Carved c (full ++ [last]) b → Carved c (full ++ [bumped]) b := by
      intro b hcarved
      apply hcarved.mono
      intro n hn
      rcases List.mem_append.mp hn with hn | hn
      · exact ⟨n, List.mem_append_left _ hn, rfl, le_rfl⟩
      · rw [List.mem_singleton.mp hn]
        exact ⟨bumped, by simp, rfl, Nat.le_add_right _ _⟩
    have hnew : Carved c (full ++ [bumped]) last.current :=
      ⟨bumped, by simp, k, hb.last_current, le_rfl⟩
    exact ⟨_, _, prepare_bump hb.fits hfree hs.nodes hb.last_current hk, fun _ => ⟨_, _, _, _, _,
      hs.carve hfree (hb.bump hk) hmono hnew (fun _ => hb.apart_current hk) (by omega)⟩⟩
  · have hkcap : k = c.nodeCapacity := le_antisymm hb.le (not_lt.mp hk)
    subst hkcap
    have hneeds : NeedsNode c p := by
      refine ⟨hfree, ?_⟩
      rw [hs.nodes, List.getLast?_concat]
      intro n hn
      cases hn
      rw [hb.last_current, nodeSize_eq hb.fits]
    have hblock := hfresh hneeds
    rw [hs.nodes] at hblock
    let node : MemoryNode := ⟨block, block + c.chunkSize⟩
    have hmono : ∀ b, Carved c (full ++ [last]) b → Carved c (full ++ [last] ++ [node]) b :=
      fun b hcarved => hcarved.mono fun n hn => ⟨n, List.mem_append_left _ hn, rfl, le_rfl⟩
    have hnew : Carved c (full ++ [last] ++ [node]) block :=
      ⟨node, by simp, 0, by simp [node], le_rfl⟩
    have hcount : (full ++ [last]).length * c.nodeCapacity + 1 =
        full.length * c.nodeCapacity + c.nodeCapacity + 1 := by
      simp only [List.length_append, List.length_singleton, Nat.add_mul, Nat.one_mul]
    refine ⟨_, _, prepare_grow hb.fits hfree hs.nodes hb.last_current hk hcap, fun _ => ?_⟩
    exact ⟨_, _, _, _, _, hs.carve hfree (hb.grow hcap hblock) hmono hnew
      (fun _ => hb.apart_block hcap hblock) hcount⟩

theorem IsSound.new_ok (hs : IsSound c h p) (bytes : ℕ → UInt8) (hcap : 1 ≤ c.nodeCapacity)
    (hfresh : NeedsNode c p → FreshBlock c p.memoryNodeList block) :
    ∃ p' obj, p.new c block bytes false = .ok (p', some obj) ∧
      IsSound c (h.record (.new block bytes (some obj))) p' := by
  by_cases hfree : p.freeList = 0
  · obtain ⟨q, chunk, hprepare, hq⟩ := hs.prepare_fresh hcap hfree hfresh
    refine ⟨q.write c (toObject chunk) bytes, toObject chunk, ?_, ?_⟩
    · rw [Pool.new, ok_bind hprepare]
      rfl
    · exact (hq bytes).write List.mem_cons_self bytes
  · obtain ⟨chs, l, full, last, k, hs⟩ := hs
    have hchain := hs.chain
    rw [ptr, if_neg hfree] at hchain
    obtain ⟨rest, rfl, _⟩ := hchain.exists_cons
    have hcall : p.new c block bytes false =
        .ok ({ p.write c (toObject p.freeList) bytes with
          freeList := p.memory.loadWord p.freeList }, some (toObject p.freeList)) := by
      rw [Pool.new, ok_bind (prepare_reuse hfree)]
      rfl
    exact ⟨_, _, hcall, _, _, _, _, _, hs.reuse.write List.mem_cons_self⟩

theorem IsSound.not_needsNode (hs : IsSound c h p) (hlt : h.peak < c.nodeCapacity) :
    ¬ NeedsNode c p := by
  obtain ⟨chs, l, full, last, k, hs⟩ := hs
  have hcount := hs.peak.trans hs.count
  have hk : k < c.nodeCapacity := by omega
  intro ⟨_, hfull⟩
  have hle := hfull last (by rw [hs.nodes, List.getLast?_concat]; rfl)
  rw [hs.bumped.last_current, nodeSize_eq hs.bumped.fits, Nat.add_le_add_iff_left] at hle
  exact absurd (Nat.le_of_mul_le_mul_right hle chunkSize_pos) (by omega)

theorem IsSound.step (hs : IsSound c (hist tr) p) (hcap : 1 ≤ c.nodeCapacity)
    (hok : permitted tr e) (hstep : next c p e = some p') :
    IsSound c ((hist tr).record e) p' := by
  cases e with
  | new block bytes res =>
    rw [next] at hstep
    split_ifs at hstep with hfresh
    cases res with
    | none => exact absurd rfl hok
    | some r =>
      obtain ⟨q, obj, hnew, hq⟩ := hs.new_ok bytes hcap hfresh
      simp only [Option.isNone_some, hnew] at hstep
      split_ifs at hstep with hres
      obtain rfl := Option.some_inj.mp hres
      obtain rfl := Option.some_inj.mp hstep
      exact hq
  | release obj bytes =>
    cases hstep
    exact hs.release hok bytes
  | write obj bytes =>
    cases hstep
    exact hs.write hok bytes

theorem run_isSound (hfits : c.Fits) (hcap : 1 ≤ c.nodeCapacity)
    (hr : (system c).Run permitted tr p) :
    IsSound c (hist tr) p := by
  refine System.run_invariant (P := fun tr p => IsSound c (hist tr) p) ?_ ?_ hr
  · intro p hp
    obtain ⟨memory, block, hf, rfl⟩ := hp
    exact isSound_construct hfits memory hf
  · intro tr p e p' _ hs hok hstep
    rw [hist_concat]
    exact hs.step hcap hok hstep

theorem Bumped.nodes_length {full : List MemoryNode} {last : MemoryNode} {k : ℕ}
    (hb : Bumped c full last k) (hcap : 1 ≤ c.nodeCapacity) :
    (full ++ [last]).length =
      max 1 ((full.length * c.nodeCapacity + k + (c.nodeCapacity - 1)) / c.nodeCapacity) := by
  have hk := hb.le
  have hdiv : (full.length * c.nodeCapacity + k + (c.nodeCapacity - 1)) / c.nodeCapacity =
      (k + (c.nodeCapacity - 1)) / c.nodeCapacity + full.length := by
    rw [Nat.add_assoc, Nat.add_comm, Nat.add_mul_div_right _ _ hcap]
  rw [hdiv, List.length_append, List.length_singleton]
  rcases Nat.eq_zero_or_pos k with hz | hpos
  · have hfull : full = [] := by
      by_contra hne
      have hk1 := hb.pos hne
      omega
    rw [hz, hfull, Nat.zero_add, Nat.div_eq_of_lt (by omega)]
    rfl
  · have hone : (k + (c.nodeCapacity - 1)) / c.nodeCapacity = 1 :=
      Nat.div_eq_of_lt_le (by omega) (by omega)
    omega

/-- Live objects lie in chunks that do not overlap, the free list is the chain of the chunks
released and not reused, and the nodes are as many as the peak of live objects needs. -/
theorem pool_sound (hfits : c.Fits) (hcap : 1 ≤ c.nodeCapacity)
    (hr : (system c).Run permitted tr p) :
    ((hist tr).live.Pairwise (Apart c.chunkSize) ∧
      ∀ obj ∈ (hist tr).live, ∃ n ∈ p.memoryNodeList, ∃ i < c.nodeCapacity,
        obj = toObject (n.mem + i * c.chunkSize)) ∧
    (∃ l, Linked p.link (ptr p.freeList) l ∧ l.Nodup ∧ l.Perm (hist tr).released) ∧
    p.memoryNodeList.length =
      max 1 (((hist tr).peak + (c.nodeCapacity - 1)) / c.nodeCapacity) := by
  obtain ⟨chs, l, full, last, k, hs⟩ := run_isSound hfits hcap hr
  refine ⟨⟨?_, ?_⟩, ⟨l, hs.chain, hs.chain.nodup, hs.released⟩, ?_⟩
  · rw [hs.live, List.pairwise_map]
    apply (List.pairwise_append.mp hs.apart).1.imp
    intro a b hab
    rw [Apart] at hab ⊢
    rw [toObject, toObject]
    omega
  · intro obj hobj
    rw [hs.live] at hobj
    obtain ⟨a, ha, rfl⟩ := List.mem_map.mp hobj
    obtain ⟨n, hn, i, rfl, hle⟩ := hs.carved a (List.mem_append_left _ ha)
    have hcur := hle.trans (hs.bumped.current_le hn)
    rw [nodeSize_eq hs.bumped.fits, Nat.add_assoc, ← Nat.succ_mul, Nat.add_le_add_iff_left] at hcur
    exact ⟨n, hs.nodes ▸ hn, i, Nat.le_of_mul_le_mul_right hcur chunkSize_pos, rfl⟩
  · rw [hs.nodes, hs.peak, hs.count]
    exact hs.bumped.nodes_length hcap

/-- `node_size ()` has wrapped to 16, the size of a chunk. -/
theorem pool_sound_fails : ¬ ∀ c tr p, 1 ≤ c.nodeCapacity → (system c).Run permitted tr p →
    ((hist tr).live.Pairwise (Apart c.chunkSize) ∧
      ∀ obj ∈ (hist tr).live, ∃ n ∈ p.memoryNodeList, ∃ i < c.nodeCapacity,
        obj = toObject (n.mem + i * c.chunkSize)) ∧
    (∃ l, Linked p.link (ptr p.freeList) l ∧ l.Nodup ∧ l.Perm (hist tr).released) ∧
    p.memoryNodeList.length =
      max 1 (((hist tr).peak + (c.nodeCapacity - 1)) / c.nodeCapacity) := by
  intro hall
  have hr : ∃ p, (system ⟨8, 2 ^ 60 + 1⟩).Run permitted
      [.new 0 (fun _ => 1) (some 108), .new 200 (fun _ => 2) (some 208)] p ∧
      p.memoryNodeList.length = 2 :=
    ⟨_, System.run_of_exec (fun _ _ _ h => h) ⟨fun _ => 0, 100, by decide, rfl⟩ rfl, rfl⟩
  obtain ⟨p, hr, hlength⟩ := hr
  obtain ⟨-, -, hneeded⟩ := hall ⟨8, 2 ^ 60 + 1⟩ _ p (by decide) hr
  rw [hlength] at hneeded
  revert hneeded
  decide

theorem pool_sound_sample : ∃ tr p, (system ⟨8, 2⟩).Run permitted tr p ∧
    p.memoryNodeList.length = 2 ∧
      ∃ l, Linked p.link (ptr p.freeList) l ∧ l.Nodup ∧ l.Perm [100] := by
  have hr : ∃ p, (system ⟨8, 2⟩).Run permitted
      [.new 0 (fun _ => 1) (some 108), .new 0 (fun _ => 2) (some 124),
        .new 200 (fun _ => 3) (some 208), .write 108 (fun _ => 255),
        .release 124 (fun _ => 0), .release 108 (fun _ => 7), .new 0 (fun _ => 4) (some 108),
        .new 0 (fun _ => 5) (some 124), .release 108 (fun _ => 9)] p :=
    ⟨_, System.run_of_exec (fun _ _ _ h => h) ⟨fun _ => 0, 100, by decide, rfl⟩ rfl⟩
  obtain ⟨p, hr⟩ := hr
  have hs := pool_sound (by decide) (by decide) hr
  exact ⟨_, p, hr, hs.2.2, hs.2.1⟩

end ModCpp.ObjectPool
