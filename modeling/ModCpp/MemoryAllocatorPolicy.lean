import Mathlib.Algebra.BigOperators.Group.Finset.Basic
import Mathlib.Algebra.Order.BigOperators.Group.Finset
import ModCpp.BestFit
import ModCpp.MemoryAllocatorSizes
import ModCpp.Progress

/-!
# How the memory allocator uses its nodes

A request is served from the least region that is long enough, the lowest one of these, and from a
new node where there is none. Over nodes that do not touch there are few regions, and what a new
allocator does with some nodes one that has got everything back does without another node.
-/

open Set

namespace ModCpp.MemoryAllocator
variable {NodeSize : ℕ} {a a' : Allocator} {F : Set (ℕ × ℕ)} {A : Arena ℕ} {l r m n mem : ℕ}
  {mr : MemoryRegion} {tr rest : List Op} {fresh : List ℕ → ℕ → Prop}

/-- The regions `free` with what a request of `n` bytes leaves of `mr`. -/
def MemoryRegion.cut (mr : MemoryRegion) (n : ℕ) (free : Finset MemoryRegion) :
    Finset MemoryRegion :=
  if mr.len = n then free else insert ⟨mr.len - n, mr.left + n, mr.right⟩ free

theorem search_le_iff : (⟨n, 0, 0⟩ : MemoryRegion) ≤ mr ↔ n ≤ mr.len := by
  change toLex (n, toLex (0, 0)) ≤ toLex (mr.len, toLex (mr.left, mr.right)) ↔ _
  rw [Prod.Lex.toLex_le_toLex]
  constructor
  · rintro (hlt | ⟨he, -⟩)
    · exact hlt.le
    · exact he.le
  · intro hle
    rcases hle.lt_or_eq with hlt | he
    · exact .inl hlt
    · refine .inr ⟨he, Prod.Lex.toLex_le_toLex.mpr ?_⟩
      rcases (Nat.zero_le mr.left).lt_or_eq with hlt | he'
      · exact .inl hlt
      · exact .inr ⟨he', Nat.zero_le _⟩

theorem needsNode_iff : NeedsNode a n ↔ ∀ mr ∈ a.freeMemoryRegion, mr.len < n := by
  rw [NeedsNode, lowerBound_eq_none]
  refine forall₂_congr fun mr _ => ?_
  rw [← not_le, search_le_iff, not_le]

section effect

theorem Represents.taken_free (h : Represents NodeSize a A) (hn : 0 < n)
    (hmr : mr ∈ a.freeMemoryRegion) (hle : n ≤ mr.len) {hp : (mr.left, mr.right) ∈ A.free}
    {hlm : mr.left < mr.left + n} {hmr' : mr.left + n ≤ mr.right}
    (h' : Represents NodeSize a' (A.take hp hlm hmr')) :
    a'.freeMemoryRegion = mr.cut n (a.freeMemoryRegion.erase mr) := by
  obtain ⟨k, l, r⟩ := mr
  obtain ⟨-, rfl : k = r - l⟩ := (h.indexed.region _).mp hmr
  dsimp only at hlm hmr'
  have hrest : ∀ j x y, (⟨j, x, y⟩ : MemoryRegion) ∈ a.freeMemoryRegion.erase ⟨r - l, l, r⟩ ↔
      ((x, y) ∈ A.free ∧ (x, y) ≠ (l, r)) ∧ j = y - x := by
    intro j x y
    rw [Finset.mem_erase, h.indexed.region, ne_eq, ne_eq, MemoryRegion.mk.injEq, Prod.mk.injEq]
    constructor
    · rintro ⟨hne, hin, rfl : j = y - x⟩
      refine ⟨⟨hin, ?_⟩, rfl⟩
      rintro ⟨rfl, rfl⟩
      exact hne ⟨rfl, rfl, rfl⟩
    · rintro ⟨⟨hin, hne⟩, hj⟩
      exact ⟨fun he => hne he.2, hin, hj⟩
  ext ⟨j, x, y⟩
  rw [h'.indexed.region]
  change ((x, y) = (l + n, r) ∧ l + n < r ∨ (x, y) ∈ A.free ∧ (x, y) ≠ (l, r)) ∧ j = y - x ↔ _
  rw [MemoryRegion.cut]
  split_ifs with hlen
  · rw [hrest]
    dsimp only at hlen
    constructor
    · rintro ⟨⟨-, hlt⟩ | hin, hj⟩
      · omega
      · exact ⟨hin, hj⟩
    · rintro ⟨hin, hj⟩
      exact ⟨.inr hin, hj⟩
  · rw [Finset.mem_insert, hrest, MemoryRegion.mk.injEq]
    dsimp only at hlen ⊢
    constructor
    · rintro ⟨⟨he, -⟩ | hin, hj⟩
      · obtain ⟨rfl, rfl⟩ := Prod.mk.inj he
        exact .inl ⟨by omega, rfl, rfl⟩
      · exact .inr ⟨hin, hj⟩
    · rintro (⟨rfl, rfl, rfl⟩ | ⟨hin, hj⟩)
      · exact ⟨.inl ⟨rfl, by omega⟩, by omega⟩
      · exact ⟨.inr hin, hj⟩

theorem Represents.grown_free (h : Represents NodeSize a A)
    {hlr : mem < mem + NodeSize} {hd : Disjoint (span (mem, mem + NodeSize)) A.points}
    (h' : Represents NodeSize a' (A.grow hlr hd)) :
    (⟨NodeSize, mem, mem + NodeSize⟩ : MemoryRegion) ∉ a.freeMemoryRegion ∧
      a'.freeMemoryRegion = insert ⟨NodeSize, mem, mem + NodeSize⟩ a.freeMemoryRegion := by
  constructor
  · intro hin
    exact A.not_mem_of_disjoint hlr hd (.inl ((h.indexed.region _).mp hin).1)
  · ext ⟨j, x, y⟩
    rw [Finset.mem_insert, h'.indexed.region, h.indexed.region, MemoryRegion.mk.injEq]
    change ((x, y) = (mem, mem + NodeSize) ∨ (x, y) ∈ A.free) ∧ j = y - x ↔ _
    rw [Prod.mk.injEq]
    constructor
    · rintro ⟨⟨rfl, rfl⟩ | hin, hj⟩
      · exact .inl ⟨by omega, rfl, rfl⟩
      · exact .inr ⟨hin, hj⟩
    · rintro (⟨rfl, rfl, rfl⟩ | ⟨hin, hj⟩)
      · exact ⟨.inl ⟨rfl, rfl⟩, by omega⟩
      · exact ⟨.inr hin, hj⟩

inductive Fitted (NodeSize : ℕ) (a : Allocator) (n mem : ℕ) (a' : Allocator) : ℕ → Prop
  | fit {mr : MemoryRegion} (hmr : mr ∈ a.freeMemoryRegion) (hle : n ≤ mr.len)
      (hleast : ∀ mr' ∈ a.freeMemoryRegion, n ≤ mr'.len →
        mr.len < mr'.len ∨ mr.len = mr'.len ∧ mr.left ≤ mr'.left)
      (hnodes : a'.memoryNodeList = a.memoryNodeList)
      (hnew : ⟨mr.len - n, mr.left + n, mr.right⟩ ∉ a.freeMemoryRegion)
      (hfree : a'.freeMemoryRegion = mr.cut n (a.freeMemoryRegion.erase mr)) :
      Fitted NodeSize a n mem a' mr.left
  | create (hnone : ∀ mr ∈ a.freeMemoryRegion, mr.len < n)
      (hnodes : a'.memoryNodeList = a.memoryNodeList ++ [mem])
      (hnew : ⟨NodeSize - n, mem + n, mem + NodeSize⟩ ∉ a.freeMemoryRegion)
      (hfree : a'.freeMemoryRegion =
        MemoryRegion.cut ⟨NodeSize, mem, mem + NodeSize⟩ n a.freeMemoryRegion) :
      Fitted NodeSize a n mem a' mem

theorem Indexed.rest_notMem (h : Indexed a F) (hn : 0 < n) (hmr : mr ∈ a.freeMemoryRegion) :
    ⟨mr.len - n, mr.left + n, mr.right⟩ ∉ a.freeMemoryRegion := by
  intro hin
  have heq := h.left_unique ((h.region mr).mp hmr).1 ((h.region _).mp hin).1 rfl
  have hleft : mr.left + n = mr.left := (Prod.mk.inj heq).1
  omega

theorem len_lt_or_of_le {mr' : MemoryRegion} (h : mr ≤ mr') :
    mr.len < mr'.len ∨ mr.len = mr'.len ∧ mr.left ≤ mr'.left := by
  change toLex (mr.len, toLex (mr.left, mr.right)) ≤ toLex (mr'.len, toLex (mr'.left, mr'.right))
    at h
  rcases Prod.Lex.toLex_le_toLex.mp h with hlt | ⟨he, hle⟩
  · exact .inl hlt
  · refine .inr ⟨he, ?_⟩
    rcases Prod.Lex.toLex_le_toLex.mp hle with hlt | ⟨he', -⟩
    · exact hlt.le
    · exact he'.le

theorem Represents.allocate_fitted (h : Represents NodeSize a A) (hn : 0 < n) (hle : n ≤ NodeSize)
    (hm : NeedsNode a n → DisjointBlock NodeSize a.memoryNodeList mem)
    (hok : allocate NodeSize a n mem = .ok (a', l)) : Fitted NodeSize a n mem a' l := by
  by_cases hneed : NeedsNode a n
  · obtain ⟨b, hlr, hd, hcreate, hb, hnodes, -⟩ := h.createMemoryNode_ok (by omega) (hm hneed)
    obtain ⟨hnew, hfree⟩ := h.grown_free hb
    have hnone := needsNode_iff.mp hneed
    have hin : (⟨NodeSize, mem, mem + NodeSize⟩ : MemoryRegion) ∈ b.freeMemoryRegion := by
      rw [hfree]
      exact Finset.mem_insert_self _ _
    have hbound : lowerBound b.freeMemoryRegion ⟨n, 0, 0⟩ =
        some ⟨NodeSize, mem, mem + NodeSize⟩ := by
      apply lowerBound_eq_some.mpr
      refine ⟨⟨hin, search_le_iff.mpr hle⟩, ?_⟩
      rintro mr ⟨hmr, hlen⟩
      rw [hfree] at hmr
      rcases Finset.mem_insert.mp hmr with rfl | hmr
      · exact le_rfl
      · exact absurd (hnone mr hmr) (not_lt.mpr (search_le_iff.mp hlen))
    obtain ⟨a₁, hp, hlm, hmr', htake, hrep, hnodes', -⟩ := hb.takeRegion_ok hin hn hle
    have hcall : allocate NodeSize a n mem = .ok (a₁, mem) := by
      rw [allocate, if_neg (not_lt.mpr hle)]
      change (if NeedsNode a n then createMemoryNode NodeSize a mem else pure a) >>= _ = _
      rw [if_pos hneed, ok_bind hcreate, hbound]
      exact htake
    obtain ⟨rfl, rfl⟩ := Prod.mk.inj (Except.ok.inj (hok.symm.trans hcall))
    refine .create hnone (hnodes'.trans hnodes) ?_ ?_
    · intro hmem
      apply hb.indexed.rest_notMem hn hin
      rw [hfree]
      exact Finset.mem_insert_of_mem hmem
    · rw [hb.taken_free hn hin hle hrep, hfree, Finset.erase_insert hnew]
  · obtain ⟨mr, hmr⟩ := Option.ne_none_iff_exists'.mp hneed
    obtain ⟨⟨hin, hlen⟩, hleast⟩ := lowerBound_eq_some.mp hmr
    obtain ⟨a₁, hp, hlm, hmr', htake, hrep, hnodes, -⟩ :=
      h.takeRegion_ok hin hn (search_le_iff.mp hlen)
    have hcall : allocate NodeSize a n mem = .ok (a₁, mr.left) :=
      (allocate_of_lowerBound hle hmr).trans htake
    obtain ⟨rfl, rfl⟩ := Prod.mk.inj (Except.ok.inj (hok.symm.trans hcall))
    refine .fit hin (search_le_iff.mp hlen) ?_ hnodes (h.indexed.rest_notMem hn hin)
      (h.taken_free hn hin (search_le_iff.mp hlen) hrep)
    intro mr' hmr' hlen'
    exact len_lt_or_of_le (hleast ⟨hmr', search_le_iff.mpr hlen'⟩)

/-- Every request of every run is served by best fit, and a node is created only where no region
is long enough. -/
theorem best_fit (hN : 1 ≤ NodeSize)
    (hr : (system NodeSize (DisjointBlock NodeSize)).Run (Permitted NodeSize)
      (tr ++ [.allocate n mem l]) a') :
    ∃ a, (system NodeSize (DisjointBlock NodeSize)).Run (Permitted NodeSize) tr a ∧
      Fitted NodeSize a n mem a' l := by
  obtain ⟨a, hra, hok, hfresh, hcall⟩ := System.run_concat hr
  obtain ⟨A, hrep, -, -⟩ := run_kept (fun _ _ h => h) kept_true hN hra
  exact ⟨a, hra, hrep.allocate_fitted hok.1 hok.2 hfresh hcall⟩

/-- The second request takes the shorter region, although the longer one lies lower. -/
theorem best_fit_sample : ∃ a a' : Allocator, Fitted 8 a 2 0 a' 106 := by
  have hr : ∃ a', (system 8 (DisjointBlock 8)).Run (Permitted 8)
      ([.allocate 4 0 100, .allocate 2 0 104, .release 100] ++ [.allocate 2 0 106]) a' :=
    ⟨_, System.run_of_exec exec_step ⟨100, by decide, rfl⟩ rfl⟩
  obtain ⟨a', hr⟩ := hr
  obtain ⟨a, -, hfit⟩ := best_fit (by decide) hr
  exact ⟨a, a', hfit⟩

end effect

section lengths
open BestFit

def Allocator.lens (a : Allocator) : Multiset ℕ := a.freeMemoryRegion.val.map MemoryRegion.len

theorem mem_lens {k : ℕ} : k ∈ a.lens ↔ ∃ mr ∈ a.freeMemoryRegion, mr.len = k := Multiset.mem_map

theorem cut_lens (mr : MemoryRegion) {free : Finset MemoryRegion}
    (hnew : ⟨mr.len - n, mr.left + n, mr.right⟩ ∉ free) :
    (mr.cut n free).val.map MemoryRegion.len =
      free.val.map MemoryRegion.len + remainder n mr.len := by
  rw [MemoryRegion.cut, remainder]
  split_ifs with h1 h2 h2
  · rw [add_zero]
  · omega
  · omega
  · rw [Finset.insert_val_of_notMem hnew, Multiset.map_cons, ← Multiset.singleton_add]
    exact add_comm _ _

theorem Fitted.serve (h : Fitted NodeSize a n mem a' l) :
    (a'.lens, a'.memoryNodeList.length) =
      serve NodeSize (a.lens, a.memoryNodeList.length) n := by
  cases h with
  | @fit mr hmr hlen hleast hnodes hnew hfree =>
    rw [serve_fit (mem_lens.mpr ⟨mr, hmr, rfl⟩) hlen, hnodes, Allocator.lens, hfree,
      cut_lens _ (fun h => hnew (Finset.mem_of_mem_erase h)), Finset.erase_val,
      Multiset.map_erase_of_mem _ _ (Finset.mem_val.mpr hmr)]
    · rfl
    · intro j hj hnj
      obtain ⟨mr', hmr', rfl⟩ := mem_lens.mp hj
      rcases hleast mr' hmr' hnj with hlt | ⟨he, -⟩
      · exact hlt.le
      · exact he.le
  | create hnone hnodes hnew hfree =>
    rw [serve_fresh, hnodes, List.length_append, List.length_singleton, Allocator.lens, hfree,
      cut_lens ⟨NodeSize, l, l + NodeSize⟩ hnew]
    · rfl
    · intro j hj
      obtain ⟨mr, hmr, rfl⟩ := mem_lens.mp hj
      exact hnone mr hmr

def Op.size : Op → Option ℕ
  | .allocate len _ _ => some len
  | .release _ => none

theorem serve_run (hN : 1 ≤ NodeSize)
    (hfresh : ∀ nodes m, fresh nodes m → DisjointBlock NodeSize nodes m)
    (hr : (system NodeSize fresh).Run (Permitted NodeSize) tr a)
    (hrest : ((system NodeSize fresh).resumed a).Run (System.after (Permitted NodeSize) tr) rest a')
    {ns : List ℕ} (hsizes : rest.map Op.size = ns.map some) :
    (a'.lens, a'.memoryNodeList.length) =
        serveAll NodeSize (a.lens, a.memoryNodeList.length) ns ∧
      (∀ n ∈ ns, n ≤ NodeSize) ∧ a.memoryNodeList <+: a'.memoryNodeList := by
  induction hrest generalizing ns with
  | start hi =>
    cases hi
    obtain rfl : ns = [] := by simpa using hsizes.symm
    exact ⟨rfl, by simp, List.prefix_rfl⟩
  | @step rest b b' e hrest hok hs ih =>
    rcases List.eq_nil_or_concat ns with rfl | ⟨ns, n, rfl⟩
    · simp at hsizes
    · rw [List.concat_eq_append, List.map_append, List.map_append] at hsizes
      obtain ⟨hinit, hlast⟩ := List.append_inj' hsizes rfl
      obtain ⟨hserve, hle, hpre⟩ := ih hinit
      cases e with
      | release ptr => cases hlast
      | allocate len mem res =>
        obtain rfl : len = n := by
          cases hlast
          rfl
        obtain ⟨hpos, hlen⟩ := hok
        obtain ⟨hmem, hcall⟩ := hs
        obtain ⟨A, hrep, -, -⟩ := run_kept hfresh kept_true hN (System.run_resumed hr hrest)
        have hfit := hrep.allocate_fitted hpos hlen (fun hneed => hfresh _ _ (hmem hneed)) hcall
        rw [List.concat_eq_append]
        refine ⟨?_, ?_, ?_⟩
        · rw [serveAll_concat, ← hserve]
          exact hfit.serve
        · intro k hk
          rcases List.mem_append.mp hk with hk | hk
          · exact hle k hk
          · rwa [List.mem_singleton.mp hk]
        · cases hfit with
          | fit _ _ _ hnodes => rwa [hnodes]
          | create _ hnodes => exact hnodes ▸ hpre.trans (List.prefix_append _ _)

theorem lens_of_nothing_live (hN : 1 ≤ NodeSize)
    (hr : (system NodeSize (SeparateBlock NodeSize)).Run (Permitted NodeSize) tr a)
    (hlive : livePtrs tr = []) :
    a.lens = Multiset.replicate a.memoryNodeList.length NodeSize := by
  obtain ⟨hregions, hnodup⟩ := regions_of_nothing_live hN hr hlive
  rw [Allocator.lens, hregions, List.toFinset_val, hnodup.dedup, Multiset.map_coe, List.map_map,
    ← Multiset.coe_replicate]
  exact congrArg _ (List.map_const' ..)

/-- Once everything has been released, requests that a new allocator serves with no more nodes
than there are need no other node, whatever has happened before and wherever the nodes lie. What
they leave is the same, too, but for the nodes that were not needed. -/
theorem replay_needs_no_node (hN : 1 ≤ NodeSize)
    (hr : (system NodeSize (SeparateBlock NodeSize)).Run (Permitted NodeSize) tr a)
    (hlive : livePtrs tr = []) {first : List Op} {b : Allocator} {ns : List ℕ}
    (hfirst : (system NodeSize (SeparateBlock NodeSize)).Run (Permitted NodeSize) first b)
    (hsizes : first.map Op.size = ns.map some)
    (hfew : b.memoryNodeList.length ≤ a.memoryNodeList.length)
    (hrest : ((system NodeSize (SeparateBlock NodeSize)).resumed a).Run
      (System.after (Permitted NodeSize) tr) rest a')
    (hagain : rest.map Op.size = ns.map some) :
    a'.memoryNodeList = a.memoryNodeList ∧ a'.freeMemoryRegion.val.map MemoryRegion.len =
      b.freeMemoryRegion.val.map MemoryRegion.len +
        Multiset.replicate (a.memoryNodeList.length - b.memoryNodeList.length) NodeSize := by
  have hfresh : ∀ nodes m, SeparateBlock NodeSize nodes m → DisjointBlock NodeSize nodes m :=
    fun _ _ h => separate_disjoint h
  obtain ⟨b₀, hinit, hrun⟩ := System.resumed_of_run hfirst
  have hone : b₀.memoryNodeList.length = 1 := by
    obtain ⟨m, hm, hok⟩ := hinit
    obtain ⟨b₁, -, -, hok₁, -, hnodes, -⟩ := construct_ok hN (hfresh _ _ hm)
    obtain rfl := Except.ok.inj (hok.symm.trans hok₁)
    rw [hnodes, List.length_singleton]
  have hlens := lens_of_nothing_live hN (.start hinit) rfl
  rw [hone] at hlens
  obtain ⟨hserve, hle, hpre⟩ := serve_run hN hfresh (.start hinit) hrun hsizes
  rw [hlens, hone] at hserve
  obtain ⟨hserve', -, hpre'⟩ := serve_run hN hfresh hr hrest hagain
  have hpos := hpre.length_le
  -- the nodes of `a` are the one that the new allocator starts with and some that lie ready
  have hready : a.lens = Multiset.replicate 1 NodeSize +
      Multiset.replicate (a.memoryNodeList.length - 1) NodeSize := by
    rw [lens_of_nothing_live hN hr hlive, ← Multiset.replicate_add,
      Nat.add_sub_cancel' (by omega)]
  have hone' : ∀ k ∈ Multiset.replicate 1 NodeSize, k ≤ NodeSize :=
    fun k hk => (Multiset.eq_of_mem_replicate hk).le
  have hspare := serveAll_spare (d := a.memoryNodeList.length) hone' hle
    (show (serveAll NodeSize (Multiset.replicate 1 NodeSize, 1) ns).2 ≤
      a.memoryNodeList.length by rwa [← hserve])
  rw [← hready, ← hserve, ← hserve'] at hspare
  obtain ⟨hl, hn⟩ := Prod.mk.inj hspare
  exact ⟨(hpre'.eq_of_length hn.symm).symm, hl⟩

theorem replay_needs_no_node_sample : ∃ a a' : Allocator, a.memoryNodeList = [100, 200] ∧
    ((system 4 (SeparateBlock 4)).resumed a).Run (System.after (Permitted 4)
      [.allocate 3 0 100, .allocate 3 200 200, .release 100, .release 200])
      [.allocate 3 0 100, .allocate 2 0 200] a' ∧ a'.memoryNodeList = [100, 200] := by
  have hr : ∃ a, (system 4 (SeparateBlock 4)).Run (Permitted 4)
      [.allocate 3 0 100, .allocate 3 200 200, .release 100, .release 200] a ∧
      a.memoryNodeList = [100, 200] ∧
      ∃ a', ((system 4 (SeparateBlock 4)).resumed a).Run (System.after (Permitted 4)
        [.allocate 3 0 100, .allocate 3 200 200, .release 100, .release 200])
        [.allocate 3 0 100, .allocate 2 0 200] a' :=
    ⟨_, System.run_of_exec exec_step ⟨100, by decide, rfl⟩ rfl, rfl, _,
      System.run_of_exec (S := (system 4 (SeparateBlock 4)).resumed _) exec_step rfl rfl⟩
  have hfirst : ∃ b, (system 4 (SeparateBlock 4)).Run (Permitted 4)
      [.allocate 3 0 300, .allocate 2 400 400] b ∧ b.memoryNodeList = [300, 400] :=
    ⟨_, System.run_of_exec exec_step ⟨300, by decide, rfl⟩ rfl, rfl⟩
  obtain ⟨a, hr, hnodes, a', hrest⟩ := hr
  obtain ⟨b, hfirst, hnodes'⟩ := hfirst
  have hfew : b.memoryNodeList.length ≤ a.memoryNodeList.length := by rw [hnodes, hnodes']; rfl
  have hsizes : [Op.allocate 3 0 300, .allocate 2 400 400].map Op.size = [3, 2].map some := rfl
  have hreplay := replay_needs_no_node (by decide) hr (by decide) hfirst hsizes hfew hrest rfl
  exact ⟨a, a', hnodes, hrest, hreplay.1.trans hnodes⟩

end lengths

section fragmentation

/-- Behind a free region lies a live block or the end of a node. -/
theorem behind_free (hrep : Represents NodeSize a A) (hc : Coalesced A.free)
    (hmr : mr ∈ a.freeMemoryRegion) :
    mr.right ∈ a.memoryNodeList.map (· + NodeSize) ∨ ∃ n, a.addr2len mr.right = some n := by
  have hin := ((hrep.indexed.region mr).mp hmr).1
  have hlt : mr.left < mr.right := A.lt_of_free hin
  by_cases hend : mr.right ∈ A.points
  · obtain ⟨q, hq, hqr⟩ := A.tiles.exists_next (Or.inl hin) hend
    have hq' : q ∈ A.live := hq.resolve_left fun hqf => hc _ hin q hqf hqr.symm
    rw [hrep.live] at hq'
    obtain ⟨n, hn, -⟩ := hq'
    exact .inr ⟨n, by rw [← hn, hqr]⟩
  · have hlast : mr.right - 1 ∈ A.points :=
      A.tiles.span_subset (Or.inl hin) ⟨by dsimp only; omega, by dsimp only; omega⟩
    rw [hrep.points] at hend hlast
    obtain ⟨m, hm, hx⟩ := hlast
    refine .inl (List.mem_map.mpr ⟨m, hm, ?_⟩)
    by_contra hne
    exact hend ⟨m, hm, by omega, by omega⟩

/-- There are no more free regions than live blocks and nodes, so where a request makes the
allocator get another node it leaves less than so many times its own size unused. -/
theorem fragments_bounded (hN : 1 ≤ NodeSize)
    (hr : (system NodeSize (SeparateBlock NodeSize)).Run (Permitted NodeSize) tr a) :
    a.freeMemoryRegion.card ≤ (livePtrs tr).length + a.memoryNodeList.length ∧
      ∀ n, NeedsNode a n → ∑ mr ∈ a.freeMemoryRegion, mr.len ≤
        ((livePtrs tr).length + a.memoryNodeList.length) * (n - 1) := by
  obtain ⟨A, hrep, ⟨hc, -⟩, ht⟩ :=
    run_kept (fun _ _ h => separate_disjoint h) kept_coalesced hN hr
  have hcard : a.freeMemoryRegion.card ≤ (livePtrs tr).length + a.memoryNodeList.length := by
    have hsub : a.freeMemoryRegion.image MemoryRegion.right ⊆
        (livePtrs tr).toFinset ∪ (a.memoryNodeList.map (· + NodeSize)).toFinset := by
      intro x hx
      obtain ⟨mr, hmr, rfl⟩ := Finset.mem_image.mp hx
      rw [Finset.mem_union, List.mem_toFinset, List.mem_toFinset, ht.2]
      exact (behind_free hrep hc hmr).symm
    have hinj : Set.InjOn MemoryRegion.right a.freeMemoryRegion := by
      intro mr hmr mr' hmr' he
      obtain ⟨hin, hlen⟩ := (hrep.indexed.region mr).mp hmr
      obtain ⟨hin', hlen'⟩ := (hrep.indexed.region mr').mp hmr'
      have hleft := (Prod.mk.inj (hrep.indexed.left_unique hin' hin he)).1
      obtain ⟨k, l, r⟩ := mr
      obtain ⟨k', l', r'⟩ := mr'
      dsimp only at he hleft hlen hlen'
      rw [hlen, hlen', hleft, he]
    calc a.freeMemoryRegion.card
        = (a.freeMemoryRegion.image MemoryRegion.right).card :=
          (Finset.card_image_of_injOn hinj).symm
      _ ≤ ((livePtrs tr).toFinset ∪ (a.memoryNodeList.map (· + NodeSize)).toFinset).card :=
          Finset.card_le_card hsub
      _ ≤ (livePtrs tr).toFinset.card + (a.memoryNodeList.map (· + NodeSize)).toFinset.card :=
          Finset.card_union_le _ _
      _ ≤ (livePtrs tr).length + (a.memoryNodeList.map (· + NodeSize)).length :=
          Nat.add_le_add (List.toFinset_card_le _) (List.toFinset_card_le _)
      _ = (livePtrs tr).length + a.memoryNodeList.length := by rw [List.length_map]
  refine ⟨hcard, ?_⟩
  intro n hneed
  calc ∑ mr ∈ a.freeMemoryRegion, mr.len
      ≤ ∑ _mr ∈ a.freeMemoryRegion, (n - 1) :=
        Finset.sum_le_sum fun mr hmr => Nat.le_sub_one_of_lt (needsNode_iff.mp hneed mr hmr)
    _ = a.freeMemoryRegion.card * (n - 1) := Finset.sum_const_nat fun _ _ => rfl
    _ ≤ ((livePtrs tr).length + a.memoryNodeList.length) * (n - 1) :=
        Nat.mul_le_mul_right _ hcard

theorem fragments_bounded_sample : ∃ a, (system 4 (SeparateBlock 4)).Run (Permitted 4)
      [.allocate 1 0 100, .allocate 1 0 101, .release 100] a ∧
    a.freeMemoryRegion.card ≤ 1 + a.memoryNodeList.length := by
  have hr : ∃ a, (system 4 (SeparateBlock 4)).Run (Permitted 4)
      [.allocate 1 0 100, .allocate 1 0 101, .release 100] a :=
    ⟨_, System.run_of_exec exec_step ⟨100, by decide, rfl⟩ rfl⟩
  obtain ⟨a, hr⟩ := hr
  exact ⟨a, hr, (fragments_bounded (by decide) hr).1⟩

end fragmentation
end ModCpp.MemoryAllocator
