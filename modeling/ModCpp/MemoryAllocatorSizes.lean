import ModCpp.MemoryAllocatorRuns

/-!
# Sizes of blocks

`allocate` rejects sizes above `NodeSize` only. A block of size zero leaves its region as
it was, so the next call returns the same pointer. Where all sizes and all nodes are
multiples of a number, so are all pointers.
-/

open Set

namespace ModCpp.MemoryAllocator
variable {NodeSize : ℕ} {a a' : Allocator} {F : Set (ℕ × ℕ)} {A : Arena ℕ} {tr : List Op}
  {e : Op} {nodes : List ℕ} {d l m r p n len mem res : ℕ}

section zero

theorem takeRegion_zero (h : Indexed a F) {mr : MemoryRegion} (hmr : mr ∈ a.freeMemoryRegion)
    (hlt : mr.left < mr.right) (hr : mr.right < 2 ^ 64) :
    ∃ a', takeRegion a 0 mr = .ok (a', mr.left) ∧ Indexed a' F ∧
      a'.memoryNodeList = a.memoryNodeList := by
  obtain ⟨k, l, r⟩ := mr
  obtain ⟨hp, rfl : k = r - l⟩ := (h.region _).mp hmr
  simp only at hp hlt hr ⊢
  obtain ⟨a₁, hok₁, hi₁, hnodes₁, hlen₁⟩ := deleteMemoryRegion_ok h hp hlt.le hr
  have hl' : ∀ q ∈ F \ {(l, r)}, q.1 ≠ l := fun q hq he => hq.2 (h.right_unique hp hq.1 he)
  have hr' : ∀ q ∈ F \ {(l, r)}, q.2 ≠ r := fun q hq he => hq.2 (h.left_unique hp hq.1 he)
  obtain ⟨a₂, hok₂, hi₂, hnodes₂, hlen₂⟩ := insertMemoryRegion_ok hi₁ hlt.le hr hl' hr'
  rw [insert_sdiff_self_of_mem hp] at hi₂
  have hrest : sub64 0 (r - l) ≠ 0 := by
    rw [ne_eq, sub64_eq_zero (by omega) (by omega)]
    omega
  have hadd : add64 l 0 = l := add64_of_lt (by omega)
  refine ⟨{ a₂ with addr2len := Function.update a₂.addr2len l (some 0) }, ?_,
    ⟨hi₂.region, hi₂.right, hi₂.left⟩, hnodes₂.trans hnodes₁⟩
  rw [takeRegion, ok_bind (assert_of (Nat.zero_le _)), ok_bind hok₁, if_pos hrest, hadd,
    ok_bind hok₂]
  rfl

theorem Indexed.regions_eq {b : Allocator} (ha : Indexed a F) (hb : Indexed b F) :
    a.freeMemoryRegion = b.freeMemoryRegion := by
  ext mr
  exact (ha.region mr).trans (hb.region mr).symm

theorem allocate_of_lowerBound {mr : MemoryRegion} (hn : n ≤ NodeSize)
    (hmr : lowerBound a.freeMemoryRegion ⟨n, 0, 0⟩ = some mr) :
    allocate NodeSize a n mem = takeRegion a n mr := by
  have hneed : ¬ NeedsNode a n := by simp [NeedsNode, hmr]
  rw [allocate, if_neg (not_lt.mpr hn)]
  change (if NeedsNode a n then createMemoryNode NodeSize a mem else pure a) >>= _ = _
  rw [if_neg hneed, ok_bind (show pure a = Except.ok a from rfl), hmr]

/-- After a call with size zero the next one returns the same pointer. -/
theorem Represents.allocate_zero (h : Represents NodeSize a A) (hN : 1 ≤ NodeSize)
    (hm : NeedsNode a 0 → DisjointBlock NodeSize a.memoryNodeList mem) :
    ∃ a' a'' l, allocate NodeSize a 0 mem = .ok (a', l) ∧ ¬ NeedsNode a' 0 ∧
      (∀ mem', allocate NodeSize a' 0 mem' = .ok (a'', l)) ∧ a.addr2len l = none := by
  obtain ⟨b, B, hb, hrep, hlive, mr, hmr⟩ : ∃ b B,
      (if NeedsNode a 0 then createMemoryNode NodeSize a mem else pure a) = .ok b ∧
      Represents NodeSize b B ∧ B.live = A.live ∧
      ∃ mr, lowerBound b.freeMemoryRegion ⟨0, 0, 0⟩ = some mr := by
    by_cases hneed : NeedsNode a 0
    · obtain ⟨b, hlr, hd, hok, hrep, hnodes, hlen⟩ := h.createMemoryNode_ok hN (hm hneed)
      have hnew : (⟨NodeSize, mem, mem + NodeSize⟩ : MemoryRegion) ∈ b.freeMemoryRegion :=
        (hrep.indexed.region _).mpr ⟨mem_insert _ _, by simp⟩
      exact ⟨b, _, by rw [if_pos hneed, hok], hrep, rfl, Represents.lowerBound_of_long hnew
        (Nat.zero_le _)⟩
    · exact ⟨a, A, by rw [if_neg hneed]; rfl, h, rfl, Option.ne_none_iff_exists'.mp hneed⟩
  have hin := lowerBound_mem hmr
  have hfree := ((hrep.indexed.region mr).mp hin).1
  obtain ⟨a', hok, hi, -⟩ := takeRegion_zero hrep.indexed hin (B.lt_of_free hfree)
    (hrep.snd_lt (Or.inl hfree))
  have hmr' : lowerBound a'.freeMemoryRegion ⟨0, 0, 0⟩ = some mr := by
    rw [hi.regions_eq hrep.indexed, hmr]
  obtain ⟨a'', hok', -⟩ := takeRegion_zero hi (lowerBound_mem hmr') (B.lt_of_free hfree)
    (hrep.snd_lt (Or.inl hfree))
  refine ⟨a', a'', mr.left, ?_, ?_, ?_, ?_⟩
  · rw [allocate, if_neg (by omega)]
    change (if NeedsNode a 0 then createMemoryNode NodeSize a mem else pure a) >>= _ = _
    rw [ok_bind hb, hmr]
    exact hok
  · simp [NeedsNode, hmr']
  · intro mem'
    rw [allocate_of_lowerBound (Nat.zero_le _) hmr', hok']
  · rw [Option.eq_none_iff_forall_ne_some]
    intro k hk
    have hk' : (mr.left, mr.left + k) ∈ B.live := by
      rw [hlive]
      exact h.mem_live.mpr hk
    exact B.fst_ne hfree hk' rfl

end zero

/-- The calls that `allocate` does not reject, with the pointers returned and not released. -/
def Unrejected (NodeSize : ℕ) (tr : List Op) : Op → Prop
  | .allocate len _ _ => len ≤ NodeSize
  | .release ptr => ptr ∈ livePtrs tr

instance (NodeSize : ℕ) (tr : List Op) : (e : Op) → Decidable (Unrejected NodeSize tr e)
  | .allocate _ _ _ => inferInstanceAs (Decidable (_ ≤ _))
  | .release _ => inferInstanceAs (Decidable (_ ∈ _))

structure Distinct (NodeSize : ℕ) (tr : List Op) (a : Allocator) : Prop where
  live : (livePtrs tr).Nodup
  allocate : ∀ len mem, len ≤ NodeSize →
    (NeedsNode a len → DisjointBlock NodeSize a.memoryNodeList mem) →
    ∃ a' res, allocate NodeSize a len mem = .ok (a', res) ∧ res ∉ livePtrs tr
  release : ∀ ptr ∈ livePtrs tr, ∃ a', release a ptr = .ok a'

def isZero : Op → Bool
  | .allocate len _ _ => len = 0
  | .release _ => false

theorem permitted_of_unrejected (h : Unrejected NodeSize tr e) (hz : isZero e = false) :
    Permitted NodeSize tr e := by
  cases e with
  | allocate len mem res =>
    simp only [isZero, decide_eq_false_iff_not] at hz
    exact ⟨Nat.pos_of_ne_zero hz, h⟩
  | release ptr => exact h

abbrev disjointSystem (NodeSize : ℕ) : System Allocator Op :=
  system NodeSize (DisjointBlock NodeSize)

theorem run_permitted (hr : (disjointSystem NodeSize).Run (Unrejected NodeSize) tr a)
    (hz : ∀ e ∈ tr, isZero e = false) :
    (disjointSystem NodeSize).Run (Permitted NodeSize) tr a := by
  induction hr with
  | start hi => exact .start hi
  | step _ hok hs ih =>
    rw [List.forall_mem_append, List.forall_mem_singleton] at hz
    exact .step (ih hz.1) (permitted_of_unrejected hok hz.2) hs

theorem run_represents (hN : 1 ≤ NodeSize)
    (hr : (disjointSystem NodeSize).Run (Permitted NodeSize) tr a) :
    ∃ A, Represents NodeSize a A ∧ Tracked tr a := by
  obtain ⟨A, hrep, -, ht⟩ := run_kept (fun _ _ h => h) kept_true hN hr
  exact ⟨A, hrep, ht⟩

theorem Represents.distinct (h : Represents NodeSize a A) (ht : Tracked tr a)
    (hN : 1 ≤ NodeSize) : Distinct NodeSize tr a := by
  refine ⟨ht.1, ?_, ?_⟩
  · intro len mem hlen hm
    rcases Nat.eq_zero_or_pos len with rfl | hpos
    · obtain ⟨a', _, l, hok, -, -, hnone⟩ := h.allocate_zero hN hm
      refine ⟨a', l, hok, ?_⟩
      rw [ht.2, hnone]
      simp
    · obtain ⟨a', _, _, l, _, _, _, _, hok, -⟩ := h.allocate_ok hpos hlen hm
      have hstep : (disjointSystem NodeSize).step a (.allocate len mem l) a' := ⟨hm, hok⟩
      have hperm : Permitted NodeSize tr (.allocate len mem l) := ⟨hpos, hlen⟩
      obtain ⟨_, _, _, ht'⟩ := step_change (fun _ _ h => h) h ht hperm hstep
      refine ⟨a', l, hok, ?_⟩
      have hnodup := ht'.1
      rw [livePtrs_allocate] at hnodup
      exact (List.nodup_cons.mp hnodup).1
  · intro ptr hptr
    obtain ⟨k, hk⟩ := (ht.2 ptr).mp hptr
    obtain ⟨a', _, _, _, _, _, hok, -⟩ := h.release_ok hk
    exact ⟨a', hok⟩

theorem not_distinct (h : Represents NodeSize a A) (hN : 1 ≤ NodeSize) (hz : isZero e = true)
    (hs : (disjointSystem NodeSize).step a e a') : ¬ Distinct NodeSize (tr ++ [e]) a' := by
  cases e with
  | release ptr => cases hz
  | allocate len mem res =>
    simp only [isZero, decide_eq_true_eq] at hz
    subst hz
    obtain ⟨hm, hcall⟩ := hs
    obtain ⟨a₁, a₂, l, hok, hneed, hagain, -⟩ := h.allocate_zero hN hm
    obtain ⟨rfl, rfl⟩ := Prod.mk.inj (Except.ok.inj (hcall.symm.trans hok))
    intro hd
    obtain ⟨a₃, res', hok', hnew⟩ := hd.allocate 0 0 (Nat.zero_le _) fun hn => absurd hn hneed
    obtain ⟨-, rfl⟩ := Prod.mk.inj (Except.ok.inj ((hagain 0).symm.trans hok'))
    rw [livePtrs_allocate] at hnew
    exact hnew (List.mem_cons_self ..)

/-- All along a run the pointers differ and no assertion fails exactly if no size is zero. -/
theorem pointers_distinct (hN : 1 ≤ NodeSize)
    (hr : (disjointSystem NodeSize).Run (Unrejected NodeSize) tr a) :
    (∀ pre s, pre <+: tr → (disjointSystem NodeSize).Run (Unrejected NodeSize) pre s →
      Distinct NodeSize pre s) ↔ ∀ e ∈ tr, isZero e = false := by
  constructor
  · intro hall
    induction hr with
    | start _ => simp
    | @step tr s t e hr hok hs ih =>
      have hpre := ih fun pre u hp => hall pre u (hp.trans (List.prefix_append _ _))
      obtain ⟨A, hrep, _⟩ := run_represents hN (run_permitted hr hpre)
      rw [List.forall_mem_append, List.forall_mem_singleton]
      refine ⟨hpre, ?_⟩
      by_contra hz
      exact not_distinct hrep hN (Bool.eq_true_of_not_eq_false hz) hs
        (hall _ t List.prefix_rfl (.step hr hok hs))
  · intro hz pre s hp hr'
    have hz' : ∀ e ∈ pre, isZero e = false := fun e he => hz e (hp.subset he)
    obtain ⟨A, hrep, ht⟩ := run_represents hN (run_permitted hr' hz')
    exact hrep.distinct ht hN

theorem pointers_distinct_sample : ∃ a,
    (disjointSystem 4).Run (Unrejected 4) [.allocate 3 0 100, .release 100] a ∧
    ((∀ pre s, pre <+: [.allocate 3 0 100, .release 100] →
      (disjointSystem 4).Run (Unrejected 4) pre s → Distinct 4 pre s) ↔
        ∀ e ∈ [Op.allocate 3 0 100, .release 100], isZero e = false) := by
  have hr : ∃ a, (disjointSystem 4).Run (Unrejected 4) [.allocate 3 0 100, .release 100] a :=
    ⟨_, System.run_of_exec exec_step ⟨100, by decide, rfl⟩ rfl⟩
  obtain ⟨a, hr⟩ := hr
  exact ⟨a, hr, pointers_distinct (by decide) hr⟩

/-- Two calls with size zero return the same pointer, and its second release fails. -/
theorem pointers_distinct_fails : ¬ ∀ NodeSize, 1 ≤ NodeSize → ∀ tr a,
    (disjointSystem NodeSize).Run (Unrejected NodeSize) tr a → Distinct NodeSize tr a := by
  intro hall
  have hr : ∃ a, (disjointSystem 4).Run (Unrejected 4)
      [.allocate 0 0 100, .allocate 0 0 100, .release 100] a ∧
      release a 100 = .error (.assertion "addr2len.count(mem)") :=
    ⟨_, System.run_of_exec exec_step ⟨100, by decide, rfl⟩ rfl, rfl⟩
  obtain ⟨a, hr, hfail⟩ := hr
  obtain ⟨a', hok⟩ := (hall 4 (by decide) _ a hr).release 100 (by decide)
  rw [hfail] at hok
  cases hok

section aligned

def Aligned (d : ℕ) (A : Arena ℕ) : Prop := ∀ q ∈ A.free ∪ A.live, d ∣ q.1 ∧ d ∣ q.2

theorem Aligned.take (h : Aligned d A) (hp : (l, r) ∈ A.free) (hlm : l < m) (hmr : m ≤ r)
    (hm : d ∣ m) : Aligned d (A.take hp hlm hmr) := by
  obtain ⟨hl, hr⟩ := h _ (Or.inl hp)
  intro q hq
  rcases hq with (⟨rfl, -⟩ | hq) | (rfl | hq)
  · exact ⟨hm, hr⟩
  · exact h q (Or.inl hq.1)
  · exact ⟨hl, hm⟩
  · exact h q (Or.inr hq)

theorem Aligned.grow (h : Aligned d A) (hlr : l < r) (hd : Disjoint (span (l, r)) A.points)
    (hl : d ∣ l) (hr : d ∣ r) : Aligned d (A.grow hlr hd) := by
  intro q hq
  rcases hq with (rfl | hq) | hq
  · exact ⟨hl, hr⟩
  · exact h q (Or.inl hq)
  · exact h q (Or.inr hq)

theorem Aligned.absorb {x y : ℕ} (h : Aligned d A) (hp : (l, r) ∈ A.live)
    (hx : x = l ∨ (x, l) ∈ A.free) (hy : y = r ∨ (r, y) ∈ A.free) :
    Aligned d (A.absorb hp hx hy) := by
  obtain ⟨hl, hr⟩ := h _ (Or.inr hp)
  have hdx : d ∣ x := hx.elim (fun he => he ▸ hl) fun hf => (h _ (Or.inl hf)).1
  have hdy : d ∣ y := hy.elim (fun he => he ▸ hr) fun hf => (h _ (Or.inl hf)).2
  intro q hq
  rcases hq with (rfl | hq) | hq
  · exact ⟨hdx, hdy⟩
  · exact h q (Or.inl hq.1)
  · exact h q (Or.inr hq.1)

def AlignedBlock (NodeSize d : ℕ) (nodes : List ℕ) (mem : ℕ) : Prop :=
  DisjointBlock NodeSize nodes mem ∧ d ∣ mem

def AlignedSize (d : ℕ) : Op → Prop
  | .allocate len _ _ => d ∣ len
  | .release _ => True

def AlignedCall (NodeSize d : ℕ) (tr : List Op) (e : Op) : Prop :=
  Permitted NodeSize tr e ∧ AlignedSize d e

instance (nodes : List ℕ) (mem : ℕ) : Decidable (AlignedBlock NodeSize d nodes mem) :=
  inferInstanceAs (Decidable (_ ∧ _))

instance : (e : Op) → Decidable (AlignedSize d e)
  | .allocate _ _ _ => inferInstanceAs (Decidable (_ ∣ _))
  | .release _ => inferInstanceAs (Decidable True)

instance (e : Op) : Decidable (AlignedCall NodeSize d tr e) := inferInstanceAs (Decidable (_ ∧ _))

def AlignedResult (d : ℕ) : Op → Prop
  | .allocate _ _ res => d ∣ res
  | .release _ => True

theorem Aligned.change {A' : Arena ℕ} (h : Aligned d A) (hN : d ∣ NodeSize) (he : AlignedSize d e)
    (hc : Change NodeSize (AlignedBlock NodeSize d) a A e nodes A') :
    Aligned d A' ∧ AlignedResult d e := by
  cases hc with
  | take hp hlm hmr =>
    obtain ⟨hl, hr⟩ := h _ (Or.inl hp)
    exact ⟨h.take hp hlm hmr (Nat.dvd_add hl he), hl⟩
  | growTake hlr hd hm hp hlm hmr =>
    have hgrown := h.grow hlr hd hm.2 (Nat.dvd_add hm.2 hN)
    obtain ⟨hl, hr⟩ := hgrown _ (Or.inl hp)
    exact ⟨hgrown.take hp hlm hmr (Nat.dvd_add hl he), hl⟩
  | absorb hl hx hy hprev hnext => exact ⟨h.absorb hl hx hy, trivial⟩

theorem Aligned.empty : Aligned d .empty := by
  intro q hq
  rcases hq with hq | hq <;> cases hq

/-- Where `d` divides the node size, the nodes' addresses and the sizes asked for, it divides
every pointer. -/
theorem pointers_aligned (hpos : 1 ≤ NodeSize) (hN : d ∣ NodeSize)
    (hr : (system NodeSize (AlignedBlock NodeSize d)).Run (AlignedCall NodeSize d) tr a) :
    ∀ len mem res, .allocate len mem res ∈ tr → d ∣ res := by
  have hinv : ∃ A, Represents NodeSize a A ∧ (Aligned d A ∧ ∀ e ∈ tr, AlignedResult d e) ∧
      Tracked tr a := by
    refine run_change (P := fun tr _ A => Aligned d A ∧ ∀ e ∈ tr, AlignedResult d e) hpos
      (fun _ _ h => h.1) (fun _ _ h => h.1) ?_ ?_ (System.restrict_of_run hr)
    · intro m hlr hd hm
      exact ⟨Aligned.empty.grow hlr hd hm.2 (Nat.dvd_add hm.2 hN), by simp⟩
    · intro tr a A e nodes A' _ hA hok _ hc
      obtain ⟨hA', he⟩ := hA.1.change hN hok.2 hc
      rw [List.forall_mem_append, List.forall_mem_singleton]
      exact ⟨hA', hA.2, he⟩
  obtain ⟨A, _, ⟨_, hres⟩, _⟩ := hinv
  exact fun len mem res hmem => hres _ hmem

theorem pointers_aligned_sample : ∃ a,
    (system 16 (AlignedBlock 16 8)).Run (AlignedCall 16 8)
      [.allocate 8 0 96, .allocate 16 112 112, .release 96, .allocate 8 0 96] a ∧ 8 ∣ 112 := by
  have hr : ∃ a, (system 16 (AlignedBlock 16 8)).Run (AlignedCall 16 8)
      [.allocate 8 0 96, .allocate 16 112 112, .release 96, .allocate 8 0 96] a :=
    ⟨_, System.run_of_exec exec_step ⟨96, by decide, rfl⟩ rfl⟩
  obtain ⟨a, hr⟩ := hr
  exact ⟨a, hr, pointers_aligned (by decide) (by decide) hr 16 112 112 (by decide)⟩

end aligned

end ModCpp.MemoryAllocator
