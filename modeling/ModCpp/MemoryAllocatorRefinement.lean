import ModCpp.MemoryAllocator
import ModCpp.MemoryArena

/-!
# The memory allocator keeps an arena

The three indexes of free regions list one set of intervals. With the blocks of
`addr2len` these tile the bytes of the nodes: the allocator represents an `Arena`,
and each call that a client may make returns and carries out one arena operation.
-/

open Set

namespace ModCpp.MemoryAllocator
variable {NodeSize : ℕ} {a a' : Allocator} {F : Set (ℕ × ℕ)} {A : Arena ℕ} {l r m n p : ℕ}

/-- The indexes of free regions all list the intervals of `F`. -/
structure Indexed (a : Allocator) (F : Set (ℕ × ℕ)) : Prop where
  region : ∀ mr, mr ∈ a.freeMemoryRegion ↔ (mr.left, mr.right) ∈ F ∧ mr.len = mr.right - mr.left
  right : ∀ l r, a.left2right l = some r ↔ (l, r) ∈ F
  left : ∀ l r, a.right2left r = some l ↔ (l, r) ∈ F

theorem Indexed.right_unique (h : Indexed a F) {q : ℕ × ℕ} (hp : (l, r) ∈ F) (hq : q ∈ F)
    (he : q.1 = l) : q = (l, r) := by
  obtain ⟨x, y⟩ := q
  subst he
  have hx := (h.right x y).mpr hq
  rw [(h.right x r).mpr hp] at hx
  rw [Option.some_inj.mp hx]

theorem Indexed.left_unique (h : Indexed a F) {q : ℕ × ℕ} (hp : (l, r) ∈ F) (hq : q ∈ F)
    (he : q.2 = r) : q = (l, r) := by
  obtain ⟨x, y⟩ := q
  subst he
  have hx := (h.left x y).mpr hq
  rw [(h.left l y).mpr hp] at hx
  rw [← Option.some_inj.mp hx]

theorem deleteMemoryRegion_ok (h : Indexed a F) (hp : (l, r) ∈ F) (hlr : l ≤ r)
    (hr : r < 2 ^ 64) :
    ∃ a', deleteMemoryRegion a l r = .ok a' ∧ Indexed a' (F \ {(l, r)}) ∧
      a'.memoryNodeList = a.memoryNodeList ∧ a'.addr2len = a.addr2len := by
  have hs : sub64 r l = r - l := sub64_of_le hlr hr
  have h1 : (⟨sub64 r l, l, r⟩ : MemoryRegion) ∈ a.freeMemoryRegion :=
    (h.region _).mpr ⟨hp, hs⟩
  have h2 : a.right2left r ≠ none := by rw [(h.left l r).mpr hp]; simp
  have h3 : a.left2right l ≠ none := by rw [(h.right l r).mpr hp]; simp
  have hok : deleteMemoryRegion a l r = .ok { a with
      freeMemoryRegion := a.freeMemoryRegion.erase ⟨sub64 r l, l, r⟩
      right2left := Function.update a.right2left r none
      left2right := Function.update a.left2right l none } := by
    rw [deleteMemoryRegion, ok_bind (assert_of h1), ok_bind (assert_of h2),
      ok_bind (assert_of h3)]
    rfl
  refine ⟨_, hok, ⟨?_, ?_, ?_⟩, rfl, rfl⟩
  · intro m
    obtain ⟨n, x, y⟩ := m
    simp only [Finset.mem_erase, h.region, mem_sdiff, mem_singleton_iff, ne_eq,
      MemoryRegion.mk.injEq, Prod.mk.injEq, hs]
    constructor
    · intro hm
      refine ⟨⟨hm.2.1, fun he => hm.1 ⟨?_, he⟩⟩, hm.2.2⟩
      rw [hm.2.2, he.1, he.2]
    · intro hm
      exact ⟨fun he => hm.1.2 he.2, hm.1.1, hm.2⟩
  · intro x y
    by_cases hx : x = l
    · subst hx
      simp only [Function.update_self, mem_sdiff, mem_singleton_iff]
      exact iff_of_false (by simp) fun hm => hm.2 (h.right_unique hp hm.1 rfl)
    · simp [h.right, hx]
  · intro x y
    by_cases hy : y = r
    · subst hy
      simp only [Function.update_self, mem_sdiff, mem_singleton_iff]
      exact iff_of_false (by simp) fun hm => hm.2 (h.left_unique hp hm.1 rfl)
    · simp [h.left, hy]

theorem insertMemoryRegion_ok (h : Indexed a F) (hlr : l ≤ r) (hr : r < 2 ^ 64)
    (hl' : ∀ q ∈ F, q.1 ≠ l) (hr' : ∀ q ∈ F, q.2 ≠ r) :
    ∃ a', insertMemoryRegion a l r = .ok a' ∧ Indexed a' (insert (l, r) F) ∧
      a'.memoryNodeList = a.memoryNodeList ∧ a'.addr2len = a.addr2len := by
  have hs : sub64 r l = r - l := sub64_of_le hlr hr
  have h1 : (⟨sub64 r l, l, r⟩ : MemoryRegion) ∉ a.freeMemoryRegion := fun hm =>
    hl' _ ((h.region _).mp hm).1 rfl
  have h2 : a.right2left r = none := by
    rw [Option.eq_none_iff_forall_ne_some]
    exact fun x hx => hr' _ ((h.left x r).mp hx) rfl
  have h3 : a.left2right l = none := by
    rw [Option.eq_none_iff_forall_ne_some]
    exact fun y hy => hl' _ ((h.right l y).mp hy) rfl
  have hok : insertMemoryRegion a l r = .ok { a with
      freeMemoryRegion := insert ⟨sub64 r l, l, r⟩ a.freeMemoryRegion
      right2left := Function.update a.right2left r (some l)
      left2right := Function.update a.left2right l (some r) } := by
    rw [insertMemoryRegion, ok_bind (assert_of h1), ok_bind (assert_of h2),
      ok_bind (assert_of h3)]
    rfl
  refine ⟨_, hok, ⟨?_, ?_, ?_⟩, rfl, rfl⟩
  · intro m
    obtain ⟨n, x, y⟩ := m
    simp only [Finset.mem_insert, h.region, mem_insert_iff, MemoryRegion.mk.injEq,
      Prod.mk.injEq, hs]
    constructor
    · intro hm
      rcases hm with he | hm
      · refine ⟨Or.inl he.2, ?_⟩
        rw [he.1, he.2.1, he.2.2]
      · exact ⟨Or.inr hm.1, hm.2⟩
    · intro hm
      rcases hm.1 with he | hin
      · refine Or.inl ⟨?_, he⟩
        rw [hm.2, he.1, he.2]
      · exact Or.inr ⟨hin, hm.2⟩
  · intro x y
    by_cases hx : x = l
    · subst hx
      have hno : (x, y) ∉ F := fun hm => hl' _ hm rfl
      simp [hno, eq_comm]
    · simp [h.right, hx]
  · intro x y
    by_cases hy : y = r
    · subst hy
      have hno : (x, y) ∉ F := fun hm => hr' _ hm rfl
      simp [hno, eq_comm]
    · simp [h.left, hy]

def freeIntervals (a : Allocator) : Set (ℕ × ℕ) :=
  {q | ∃ len, (⟨len, q.1, q.2⟩ : MemoryRegion) ∈ a.freeMemoryRegion}

def liveBlocks (a : Allocator) : Set (ℕ × ℕ) :=
  {q | ∃ n, a.addr2len q.1 = some n ∧ q.2 = q.1 + n}

def nodeBytes (NodeSize : ℕ) (a : Allocator) : Set ℕ :=
  {x | ∃ m ∈ a.memoryNodeList, m ≤ x ∧ x < m + NodeSize}

theorem Indexed.free_eq (h : Indexed a F) : F = freeIntervals a := by
  ext q
  constructor
  · exact fun hq => ⟨q.2 - q.1, (h.region _).mpr ⟨hq, rfl⟩⟩
  · intro hq
    obtain ⟨n, hn⟩ := hq
    exact ((h.region _).mp hn).1

structure Represents (NodeSize : ℕ) (a : Allocator) (A : Arena ℕ) : Prop where
  indexed : Indexed a A.free
  live : A.live = liveBlocks a
  points : A.points = nodeBytes NodeSize a
  bound : ∀ m ∈ a.memoryNodeList, m + NodeSize < 2 ^ 64

namespace Represents

theorem snd_lt (h : Represents NodeSize a A) {q : ℕ × ℕ} (hq : q ∈ A.free ∪ A.live) :
    q.2 < 2 ^ 64 := by
  have hn := A.tiles.nonempty q hq
  have hx : q.2 - 1 ∈ A.points := A.tiles.span_subset hq ⟨by omega, by omega⟩
  rw [h.points] at hx
  obtain ⟨m, hm, hx⟩ := hx
  have hb := h.bound m hm
  omega

theorem mem_live (h : Represents NodeSize a A) : (p, p + n) ∈ A.live ↔ a.addr2len p = some n := by
  rw [h.live]
  constructor
  · intro hq
    obtain ⟨k, hk, he⟩ := hq
    simp only at hk he
    rw [hk, Option.some_inj]
    omega
  · exact fun hp => ⟨n, hp, rfl⟩

theorem pos_of_addr2len (h : Represents NodeSize a A) (hp : a.addr2len p = some n) : 0 < n := by
  have hl := A.lt_of_live (h.mem_live.mpr hp)
  simp only at hl
  omega

theorem disjoint_points (h : Represents NodeSize a A)
    (hm : DisjointBlock NodeSize a.memoryNodeList m) :
    Disjoint (span (m, m + NodeSize)) A.points := by
  rw [h.points, disjoint_left]
  intro x hx hin
  obtain ⟨m', hm', hx'⟩ := hin
  rw [mem_span] at hx
  simp only at hx
  have hd := hm.2 m' hm'
  omega

theorem createMemoryNode_ok (h : Represents NodeSize a A) (hN : 0 < NodeSize)
    (hm : DisjointBlock NodeSize a.memoryNodeList m) :
    ∃ a' hlr hd, createMemoryNode NodeSize a m = .ok a' ∧
      Represents NodeSize a' (A.grow (l := m) (r := m + NodeSize) hlr hd) ∧
      a'.memoryNodeList = a.memoryNodeList ++ [m] ∧ a'.addr2len = a.addr2len := by
  have hlr : m < m + NodeSize := by omega
  have hd := h.disjoint_points hm
  have hout : ∀ x ∈ A.points, ¬ (m ≤ x ∧ x < m + NodeSize) := fun x hx hm' =>
    disjoint_left.mp hd hm' hx
  have hl' : ∀ q ∈ A.free, q.1 ≠ m := fun q hq he =>
    hout q.1 (A.tiles.span_subset (Or.inl hq) ⟨le_rfl, A.lt_of_free hq⟩) (by omega)
  have hr' : ∀ q ∈ A.free, q.2 ≠ m + NodeSize := fun q hq he => by
    have hn := A.lt_of_free hq
    exact hout (q.2 - 1) (A.tiles.span_subset (Or.inl hq) ⟨by omega, by omega⟩) (by omega)
  have hi : Indexed { a with memoryNodeList := a.memoryNodeList ++ [m] } A.free :=
    ⟨h.indexed.region, h.indexed.right, h.indexed.left⟩
  obtain ⟨a', hok, hi', hnodes, hlen⟩ := insertMemoryRegion_ok hi hlr.le hm.1 hl' hr'
  refine ⟨a', hlr, hd, ?_, ⟨hi', ?_, ?_, ?_⟩, hnodes, hlen⟩
  · rw [createMemoryNode, add64_of_lt hm.1]
    exact hok
  · change A.live = liveBlocks a'
    rw [h.live, liveBlocks, liveBlocks, hlen]
  · change A.points ∪ span (m, m + NodeSize) = nodeBytes NodeSize a'
    ext x
    simp [h.points, nodeBytes, hnodes, mem_span, or_and_right, exists_or]
  · rw [hnodes]
    intro m' hm'
    rcases List.mem_append.mp hm' with hm' | hm'
    · exact h.bound m' hm'
    · rw [List.mem_singleton.mp hm']
      exact hm.1

theorem takeRegion_ok (h : Represents NodeSize a A) {mr : MemoryRegion}
    (hmr : mr ∈ a.freeMemoryRegion) (hn : 0 < n) (hle : n ≤ mr.len) :
    ∃ a' hp hlm hmr', takeRegion a n mr = .ok (a', mr.left) ∧
      Represents NodeSize a' (A.take (l := mr.left) (m := mr.left + n) (r := mr.right)
        hp hlm hmr') ∧
      a'.memoryNodeList = a.memoryNodeList ∧
      a'.addr2len = Function.update a.addr2len mr.left (some n) := by
  obtain ⟨k, l, r⟩ := mr
  obtain ⟨hp, rfl : k = r - l⟩ := (h.indexed.region _).mp hmr
  simp only at hp hle ⊢
  have hlr : l < r := A.lt_of_free hp
  have hr : r < 2 ^ 64 := h.snd_lt (Or.inl hp)
  have hlm : l < l + n := by omega
  have hmr' : l + n ≤ r := by omega
  obtain ⟨a₁, hok₁, hi₁, hnodes₁, hlen₁⟩ := deleteMemoryRegion_ok h.indexed hp hlr.le hr
  have hzero : sub64 n (r - l) = 0 ↔ n = r - l := sub64_eq_zero (by omega) (by omega)
  -- the second index update happens exactly when part of the region is left
  obtain ⟨a₂, hok₂, hi₂, hnodes₂, hlen₂⟩ : ∃ a₂,
      (if sub64 n (r - l) ≠ 0 then insertMemoryRegion a₁ (add64 l n) r else pure a₁) = .ok a₂ ∧
      Indexed a₂ (A.take hp hlm hmr').free ∧ a₂.memoryNodeList = a₁.memoryNodeList ∧
      a₂.addr2len = a₁.addr2len := by
    by_cases he : n = r - l
    · have hm : l + n = r := by omega
      refine ⟨a₁, by rw [if_neg (not_not.mpr (hzero.mpr he))]; rfl, ?_, rfl, rfl⟩
      simpa [Arena.take, hm] using hi₁
    · have hm : l + n < r := by omega
      have hl' : ∀ q ∈ A.free \ {(l, r)}, q.1 ≠ l + n := by
        rintro q ⟨hq, hne⟩ he
        rcases A.tiles.le_or_le (Or.inl hq) (Or.inl hp) hne with hle | hle
        · exact absurd (A.lt_of_free hq) (not_lt.mpr (by simp only at hle; omega))
        · simp only at hle; omega
      have hr' : ∀ q ∈ A.free \ {(l, r)}, q.2 ≠ r := fun q hq he =>
        hq.2 (A.tiles.eq_of_snd_eq (Or.inl hq.1) (Or.inl hp) he)
      obtain ⟨a₂, hok₂, hi₂, hnodes₂, hlen₂⟩ := insertMemoryRegion_ok hi₁ hm.le hr hl' hr'
      refine ⟨a₂, ?_, ?_, hnodes₂, hlen₂⟩
      · rw [if_pos (mt hzero.mp he), add64_of_lt (by omega)]
        exact hok₂
      · have hf : (A.take hp hlm hmr').free = insert (l + n, r) (A.free \ {(l, r)}) := by
          ext q
          simp [Arena.take, hm]
        rwa [hf]
  refine ⟨{ a₂ with addr2len := Function.update a₂.addr2len l (some n) }, hp, hlm, hmr', ?_,
    ⟨⟨hi₂.region, hi₂.right, hi₂.left⟩, ?_, ?_, ?_⟩, hnodes₂.trans hnodes₁, ?_⟩
  · rw [takeRegion, ok_bind (assert_of (Nat.zero_le _)), ok_bind hok₁, ok_bind hok₂]
    rfl
  · change insert (l, l + n) A.live = _
    ext q
    obtain ⟨x, y⟩ := q
    by_cases hx : x = l
    · subst hx
      have hno : (x, y) ∉ A.live := fun hq => A.fst_ne hp hq rfl
      simp [hno, liveBlocks]
    · simp [hx, h.live, liveBlocks, hlen₂, hlen₁]
  · change A.points = _
    rw [h.points, nodeBytes, nodeBytes]
    simp only [hnodes₂, hnodes₁]
  · simp only [hnodes₂, hnodes₁]
    exact h.bound
  · simp only [hlen₂, hlen₁]

/-- The search that `allocate` repeats finds a region once a node of `NodeSize` bytes is there. -/
theorem lowerBound_of_long {mr : MemoryRegion} (hmr : mr ∈ a.freeMemoryRegion)
    (hle : n ≤ mr.len) : ∃ mr', lowerBound a.freeMemoryRegion ⟨n, 0, 0⟩ = some mr' := by
  apply lowerBound_isSome hmr
  change toLex (n, toLex (0, 0)) ≤ toLex (mr.len, toLex (mr.left, mr.right))
  rcases hle.lt_or_eq with hlt | rfl
  · exact Prod.Lex.left _ _ hlt
  · apply Prod.Lex.right
    rcases (Nat.zero_le mr.left).lt_or_eq with hlt | he
    · exact Prod.Lex.left _ _ hlt
    · rw [← he]
      exact Prod.Lex.right _ (Nat.zero_le _)

theorem le_len_of_lowerBound {mr : MemoryRegion}
    (h : lowerBound a.freeMemoryRegion ⟨n, 0, 0⟩ = some mr) : n ≤ mr.len := by
  have hle : (⟨n, 0, 0⟩ : MemoryRegion) ≤ mr := le_of_lowerBound h
  change toLex (n, toLex (0, 0)) ≤ toLex (mr.len, toLex (mr.left, mr.right)) at hle
  rcases Prod.Lex.toLex_le_toLex.mp hle with hlt | ⟨he, -⟩
  · exact hlt.le
  · exact he.le

theorem allocate_ok (h : Represents NodeSize a A) (hn : 0 < n) (hle : n ≤ NodeSize)
    (hm : NeedsNode a n → DisjointBlock NodeSize a.memoryNodeList m) :
    ∃ a' b B l r hp hlm hmr, allocate NodeSize a n m = .ok (a', l) ∧
      (b = a ∧ B = A ∨ NeedsNode a n ∧ b.memoryNodeList = a.memoryNodeList ++ [m] ∧
        ∃ hlr hd, B = A.grow (l := m) (r := m + NodeSize) hlr hd) ∧
      Represents NodeSize b B ∧
      Represents NodeSize a' (B.take (l := l) (m := l + n) (r := r) hp hlm hmr) ∧
      a'.memoryNodeList = b.memoryNodeList ∧
      a'.addr2len = Function.update a.addr2len l (some n) := by
  have hguard : ¬ n > NodeSize := not_lt.mpr hle
  obtain ⟨b, B, hb, hrep, hlen, hcase, mr, hmr⟩ : ∃ b B,
      (if NeedsNode a n then createMemoryNode NodeSize a m else pure a) = .ok b ∧
      Represents NodeSize b B ∧ b.addr2len = a.addr2len ∧
      (b = a ∧ B = A ∨ NeedsNode a n ∧ b.memoryNodeList = a.memoryNodeList ++ [m] ∧
        ∃ hlr hd, B = A.grow (l := m) (r := m + NodeSize) hlr hd) ∧
      ∃ mr, lowerBound b.freeMemoryRegion ⟨n, 0, 0⟩ = some mr := by
    by_cases hneed : NeedsNode a n
    · obtain ⟨b, hlr, hd, hok, hrep, hnodes, hlen⟩ := h.createMemoryNode_ok (by omega) (hm hneed)
      have hnew : (⟨NodeSize, m, m + NodeSize⟩ : MemoryRegion) ∈ b.freeMemoryRegion :=
        (hrep.indexed.region _).mpr ⟨mem_insert _ _, by simp⟩
      exact ⟨b, _, by rw [if_pos hneed, hok], hrep, hlen,
        Or.inr ⟨hneed, hnodes, hlr, hd, rfl⟩, lowerBound_of_long hnew hle⟩
    · refine ⟨a, A, by rw [if_neg hneed]; rfl, h, rfl, Or.inl ⟨rfl, rfl⟩, ?_⟩
      exact Option.ne_none_iff_exists'.mp hneed
  obtain ⟨a', hp, hlm, hmr', hok, hrep', hnodes, hlen'⟩ :=
    hrep.takeRegion_ok (lowerBound_mem hmr) hn (le_len_of_lowerBound hmr)
  refine ⟨a', b, B, mr.left, mr.right, hp, hlm, hmr', ?_, hcase, hrep, hrep', hnodes,
    by rw [hlen', hlen]⟩
  rw [allocate, if_neg hguard]
  change (if NeedsNode a n then createMemoryNode NodeSize a m else pure a) >>= _ = _
  rw [ok_bind hb, hmr]
  exact hok

theorem mergePrev_ok (hi : Indexed a F) (hF : ∀ q ∈ F, q.1 < q.2 ∧ q.2 < 2 ^ 64) :
    ∃ a' x, mergePrev a l = .ok (a', x) ∧ Indexed a' (F \ {(x, l)}) ∧ (x = l ∨ (x, l) ∈ F) ∧
      (∀ q ∈ F, q.2 = l → q = (x, l)) ∧ a'.memoryNodeList = a.memoryNodeList ∧
      a'.addr2len = a.addr2len := by
  cases hx : a.right2left l with
  | none =>
    have hno : ∀ q ∈ F, q.2 ≠ l := fun q hq he => by
      have hq' := (hi.left q.1 l).mpr (he ▸ hq)
      rw [hx] at hq'
      cases hq'
    have hF' : F \ {(l, l)} = F := sdiff_singleton_eq_self fun hm => hno _ hm rfl
    exact ⟨a, l, by rw [mergePrev, hx]; rfl, by rwa [hF'], Or.inl rfl,
      fun q hq he => absurd he (hno q hq), rfl, rfl⟩
  | some x =>
    have hp : (x, l) ∈ F := (hi.left x l).mp hx
    obtain ⟨a', hok, hi', hnodes, hlen⟩ :=
      deleteMemoryRegion_ok hi hp (hF _ hp).1.le (hF _ hp).2
    refine ⟨a', x, ?_, hi', Or.inr hp, fun q hq he => hi.left_unique hp hq he, hnodes, hlen⟩
    rw [mergePrev, hx]
    exact ok_bind hok

theorem mergeNext_ok (hi : Indexed a F) (hF : ∀ q ∈ F, q.1 < q.2 ∧ q.2 < 2 ^ 64) :
    ∃ a' y, mergeNext a r = .ok (a', y) ∧ Indexed a' (F \ {(r, y)}) ∧ (y = r ∨ (r, y) ∈ F) ∧
      (∀ q ∈ F, q.1 = r → q = (r, y)) ∧ a'.memoryNodeList = a.memoryNodeList ∧
      a'.addr2len = a.addr2len := by
  cases hy : a.left2right r with
  | none =>
    have hno : ∀ q ∈ F, q.1 ≠ r := fun q hq he => by
      have hq' := (hi.right r q.2).mpr (he ▸ hq)
      rw [hy] at hq'
      cases hq'
    have hF' : F \ {(r, r)} = F := sdiff_singleton_eq_self fun hm => hno _ hm rfl
    exact ⟨a, r, by rw [mergeNext, hy]; rfl, by rwa [hF'], Or.inl rfl,
      fun q hq he => absurd he (hno q hq), rfl, rfl⟩
  | some y =>
    have hp : (r, y) ∈ F := (hi.right r y).mp hy
    obtain ⟨a', hok, hi', hnodes, hlen⟩ :=
      deleteMemoryRegion_ok hi hp (hF _ hp).1.le (hF _ hp).2
    refine ⟨a', y, ?_, hi', Or.inr hp, fun q hq he => hi.right_unique hp hq he, hnodes, hlen⟩
    rw [mergeNext, hy]
    exact ok_bind hok

theorem release_ok (h : Represents NodeSize a A) (hp : a.addr2len p = some n) :
    ∃ a' x y hl hx hy, release a p = .ok a' ∧
      Represents NodeSize a' (A.absorb (l := p) (r := p + n) (a := x) (b := y) hl hx hy) ∧
      (∀ q ∈ A.free, q.2 = p → q = (x, p)) ∧
      (∀ q ∈ A.free, q.1 = p + n → q = (p + n, y)) ∧
      a'.memoryNodeList = a.memoryNodeList ∧
      a'.addr2len = Function.update a.addr2len p none := by
  have hl : (p, p + n) ∈ A.live := h.mem_live.mpr hp
  have hr : p + n < 2 ^ 64 := h.snd_lt (Or.inr hl)
  have hn : 0 < n := h.pos_of_addr2len hp
  have hF : ∀ q ∈ A.free, q.1 < q.2 ∧ q.2 < 2 ^ 64 := fun q hq =>
    ⟨A.lt_of_free hq, h.snd_lt (Or.inl hq)⟩
  have hi₀ : Indexed { a with addr2len := Function.update a.addr2len p none } A.free :=
    ⟨h.indexed.region, h.indexed.right, h.indexed.left⟩
  obtain ⟨a₁, x, hok₁, hi₁, hx, hprev, hnodes₁, hlen₁⟩ := mergePrev_ok (l := p) hi₀ hF
  obtain ⟨a₂, y, hok₂, hi₂, hy₁, hnext₁, hnodes₂, hlen₂⟩ :=
    mergeNext_ok (r := p + n) hi₁ fun q hq => hF q hq.1
  have hxp : x ≤ p := hx.elim (fun he => he.le) fun hf => (hF _ hf).1.le
  have hy : y = p + n ∨ (p + n, y) ∈ A.free := hy₁.imp_right fun hm => hm.1
  have hnext : ∀ q ∈ A.free, q.1 = p + n → q = (p + n, y) := by
    intro q hq he
    refine hnext₁ q ⟨hq, ?_⟩ he
    rintro rfl
    simp only at he
    omega
  have hB := (A.absorb hl hx hy).tiles
  have hmem : (x, y) ∈ (A.absorb hl hx hy).free ∪ (A.absorb hl hx hy).live :=
    Or.inl (mem_insert _ _)
  have hy' : y < 2 ^ 64 := hy.elim (fun he => he ▸ hr) fun hf => (hF _ hf).2
  have hset : (A.free \ {(x, p)}) \ {(p + n, y)} = A.free \ {(x, p), (p + n, y)} := by
    rw [sdiff_sdiff, singleton_union]
  rw [hset] at hi₂
  have hl' : ∀ q ∈ A.free \ {(x, p), (p + n, y)}, q.1 ≠ x := by
    rintro q ⟨hq, hne⟩ rfl
    rcases hx with rfl | hx
    · exact A.fst_ne hq hl rfl
    · exact hne (Or.inl (A.tiles.eq_of_fst_eq (Or.inl hq) (Or.inl hx) rfl))
  have hr' : ∀ q ∈ A.free \ {(x, p), (p + n, y)}, q.2 ≠ y := by
    rintro q ⟨hq, hne⟩ rfl
    rcases hy with hy | hy
    · exact A.snd_ne hq hl hy
    · exact hne (Or.inr (A.tiles.eq_of_snd_eq (Or.inl hq) (Or.inl hy) rfl))
  obtain ⟨a', hok, hi, hnodes, hlen⟩ :=
    insertMemoryRegion_ok hi₂ (hB.nonempty _ hmem).le hy' hl' hr'
  have hlen' : a'.addr2len = Function.update a.addr2len p none := by rw [hlen, hlen₂, hlen₁]
  have hnodes' : a'.memoryNodeList = a.memoryNodeList := by rw [hnodes, hnodes₂, hnodes₁]
  refine ⟨a', x, y, hl, hx, hy, ?_, ⟨hi, ?_, ?_, ?_⟩, hprev, hnext, hnodes', hlen'⟩
  · have hright : add64 p ((a.addr2len p).getD 0) = p + n := by
      rw [hp]
      exact add64_of_lt hr
    rw [release, ok_bind (assert_of (by rw [hp]; simp))]
    simp only [hright]
    rw [ok_bind hok₁]
    change mergeNext a₁ (p + n) >>= _ = _
    rw [ok_bind hok₂]
    exact hok
  · change A.live \ {(p, p + n)} = liveBlocks a'
    rw [h.live]
    ext ⟨u, v⟩
    by_cases hu : u = p
    · subst hu
      simp only [liveBlocks, hlen', mem_sdiff, mem_ofPred_eq, hp, Option.some_inj,
        mem_singleton_iff, Function.update_self]
      refine iff_of_false (fun hmem => ?_) (by simp)
      obtain ⟨k, hk, hv⟩ := hmem.1
      exact hmem.2 (by rw [hv, ← hk])
    · simp [liveBlocks, hlen', hu]
  · change A.points = _
    rw [h.points, nodeBytes, nodeBytes, hnodes']
  · rw [hnodes']
    exact h.bound

end Represents

theorem represents_empty : Represents NodeSize .empty .empty := by
  refine ⟨⟨?_, ?_, ?_⟩, ?_, ?_, ?_⟩ <;>
    simp [Allocator.empty, Arena.empty, liveBlocks, nodeBytes]

end ModCpp.MemoryAllocator
