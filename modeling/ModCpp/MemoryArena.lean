import ModCpp.Tiling

/-!
# Arenas

What an allocator is for: a set of points split into free and live intervals. An
`Arena` carries the proof that its intervals tile its points. It grows by a new
interval, hands out the front of a free interval, and takes a live interval back,
joining it with the free intervals on either side. Joining keeps the free part
coalesced, as does growing where the new interval touches no old point.
-/

open Set

namespace ModCpp

structure Arena (α : Type*) [LinearOrder α] where
  free : Set (α × α)
  live : Set (α × α)
  points : Set α
  tiles : Tiles (free ∪ live) points
  apart : Disjoint free live

namespace Arena
variable {α : Type*} [LinearOrder α] {A : Arena α} {l m r : α} {p q : α × α}

theorem lt_of_free (hp : p ∈ A.free) : p.1 < p.2 := A.tiles.nonempty p (Or.inl hp)

theorem lt_of_live (hp : p ∈ A.live) : p.1 < p.2 := A.tiles.nonempty p (Or.inr hp)

theorem not_live_of_free (hp : p ∈ A.free) : p ∉ A.live := disjoint_left.mp A.apart hp

theorem not_free_of_live (hp : p ∈ A.live) : p ∉ A.free := disjoint_right.mp A.apart hp

theorem fst_ne (hp : p ∈ A.free) (hq : q ∈ A.live) : p.1 ≠ q.1 := fun he =>
  A.not_live_of_free hp (A.tiles.eq_of_fst_eq (Or.inl hp) (Or.inr hq) he ▸ hq)

theorem snd_ne (hp : p ∈ A.free) (hq : q ∈ A.live) : p.2 ≠ q.2 := fun he =>
  A.not_live_of_free hp (A.tiles.eq_of_snd_eq (Or.inl hp) (Or.inr hq) he ▸ hq)

theorem not_mem_of_disjoint (hlr : l < r) (hd : Disjoint (span (l, r)) A.points) :
    (l, r) ∉ A.free ∪ A.live := fun hp =>
  disjoint_left.mp hd ⟨le_rfl, hlr⟩ (A.tiles.span_subset hp ⟨le_rfl, hlr⟩)

def empty : Arena α := ⟨∅, ∅, ∅, by simpa using Tiles.empty, by simp⟩

def grow (A : Arena α) (hlr : l < r) (hd : Disjoint (span (l, r)) A.points) : Arena α where
  free := insert (l, r) A.free
  live := A.live
  points := A.points ∪ span (l, r)
  tiles := by
    rw [insert_union]
    exact A.tiles.insert hlr hd
  apart := by
    rw [disjoint_insert_left]
    exact ⟨fun hp => A.not_mem_of_disjoint hlr hd (Or.inr hp), A.apart⟩

/-- Hands out the front `(l, m)` of a free interval `(l, r)`, or all of it if `m = r`. -/
def take (A : Arena α) (hp : (l, r) ∈ A.free) (hlm : l < m) (hmr : m ≤ r) : Arena α where
  free := {q | q = (m, r) ∧ m < r} ∪ A.free \ {(l, r)}
  live := insert (l, m) A.live
  points := A.points
  tiles := by
    have hnl : (l, r) ∉ A.live := A.not_live_of_free hp
    rcases hmr.eq_or_lt with rfl | hmr
    · have he : {q | q = (m, m) ∧ m < m} ∪ A.free \ {(l, m)} ∪ insert (l, m) A.live =
          A.free ∪ A.live := by
        ext q
        by_cases hq : q = (l, m)
        · subst hq; simp [hp]
        · simp [hq]
      rw [he]
      exact A.tiles
    · have he : {q | q = (m, r) ∧ m < r} ∪ A.free \ {(l, r)} ∪ insert (l, m) A.live =
          {(l, m), (m, r)} ∪ (A.free ∪ A.live) \ {(l, r)} := by
        rw [union_sdiff_distrib, sdiff_singleton_eq_self hnl]
        ext q
        simp only [mem_union, mem_insert_iff, mem_singleton_iff, mem_ofPred_eq, hmr, and_true]
        tauto
      rw [he]
      exact A.tiles.split (Or.inl hp) hlm hmr
  apart := by
    rw [disjoint_insert_right]
    refine ⟨?_, disjoint_union_left.mpr ⟨?_, A.apart.mono_left sdiff_subset⟩⟩
    · intro hin
      rcases hin with ⟨he, -⟩ | ⟨hq, hne⟩
      · exact hlm.ne (Prod.ext_iff.mp he).1
      · exact hne (A.tiles.eq_of_fst_eq (Or.inl hq) (Or.inl hp) rfl)
    · rw [disjoint_left]
      intro q hrest hq
      obtain ⟨rfl, -⟩ := hrest
      exact A.snd_ne hp hq rfl

section absorb
variable {a b : α}

/-- The live interval `(l, r)` and its free neighbours tile the interval they span. -/
theorem neighbours_tile (hp : (l, r) ∈ A.live) (ha : a = l ∨ (a, l) ∈ A.free)
    (hb : b = r ∨ (r, b) ∈ A.free) :
    Tiles {q ∈ A.free ∪ A.live | q = (a, l) ∨ q = (l, r) ∨ q = (r, b)} (span (a, b)) := by
  have hlr : l < r := A.lt_of_live hp
  have hal : a ≤ l := ha.elim (fun h => h.le) fun h => (A.lt_of_free h).le
  have hrb : r ≤ b := hb.elim (fun h => h.ge) fun h => (A.lt_of_free h).le
  refine ⟨fun q hq => A.tiles.nonempty q hq.1, A.tiles.disjoint.subset fun q hq => hq.1, ?_⟩
  ext x
  simp only [mem_iUnion, mem_ofPred_eq, exists_prop]
  constructor
  · intro hin
    obtain ⟨q, ⟨-, rfl | rfl | rfl⟩, hx⟩ := hin
    · exact ⟨hx.1, hx.2.trans_le (hlr.le.trans hrb)⟩
    · exact ⟨hal.trans hx.1, hx.2.trans_le hrb⟩
    · exact ⟨hal.trans (hlr.le.trans hx.1), hx.2⟩
  · intro hx
    rcases lt_or_ge x l with hxl | hlx
    · have hne : a ≠ l := fun he => absurd hxl (not_lt.mpr (he ▸ hx.1))
      exact ⟨(a, l), ⟨Or.inl (ha.resolve_left hne), Or.inl rfl⟩, hx.1, hxl⟩
    · rcases lt_or_ge x r with hxr | hrx
      · exact ⟨(l, r), ⟨Or.inr hp, Or.inr (Or.inl rfl)⟩, hlx, hxr⟩
      · have hne : b ≠ r := fun he => absurd hrx (not_le.mpr (he ▸ hx.2))
        exact ⟨(r, b), ⟨Or.inl (hb.resolve_left hne), Or.inr (Or.inr rfl)⟩, hrx, hx.2⟩

/-- Takes back the live interval `(l, r)`, joined with the free intervals `(a, l)` before and
`(r, b)` after it where there are such; `a = l` or `b = r` where there are not. -/
def absorb (A : Arena α) (hp : (l, r) ∈ A.live) (ha : a = l ∨ (a, l) ∈ A.free)
    (hb : b = r ∨ (r, b) ∈ A.free) : Arena α where
  free := insert (a, b) (A.free \ {(a, l), (r, b)})
  live := A.live \ {(l, r)}
  points := A.points
  tiles := by
    have hlr : l < r := A.lt_of_live hp
    have hal : a ≤ l := ha.elim (fun h => h.le) fun h => (A.lt_of_free h).le
    have hrb : r ≤ b := hb.elim (fun h => h.ge) fun h => (A.lt_of_free h).le
    have hpf : (l, r) ∉ A.free := A.not_free_of_live hp
    have hal' : (a, l) ∉ A.live := fun h =>
      ha.elim (fun he => absurd (A.lt_of_live h) (he ▸ lt_irrefl a)) fun hf =>
        A.not_live_of_free hf h
    have hrb' : (r, b) ∉ A.live := fun h =>
      hb.elim (fun he => absurd (A.lt_of_live h) (he ▸ lt_irrefl b)) fun hf =>
        A.not_live_of_free hf h
    have he : insert (a, b) (A.free \ {(a, l), (r, b)}) ∪ A.live \ {(l, r)} =
        {(a, b)} ∪ (A.free ∪ A.live) \
          {q ∈ A.free ∪ A.live | q = (a, l) ∨ q = (l, r) ∨ q = (r, b)} := by
      ext q
      simp only [mem_union, mem_insert_iff, mem_sdiff, mem_singleton_iff, mem_ofPred_eq]
      by_cases h1 : q = (a, l)
      · subst h1; simp [hal']
      · by_cases h2 : q = (r, b)
        · subst h2; simp [hrb']
        · by_cases h3 : q = (l, r)
          · subst h3; simp [hpf]
          · simp only [h1, h2, h3]; tauto
    rw [he]
    exact A.tiles.exchange (fun q hq => hq.1) (A.neighbours_tile hp ha hb)
      (Tiles.single (hal.trans_lt (hlr.trans_le hrb)))
  apart := by
    have hlr : l < r := A.lt_of_live hp
    rw [disjoint_insert_left]
    refine ⟨?_, A.apart.mono sdiff_subset sdiff_subset⟩
    intro hin
    obtain ⟨hq, hne⟩ := hin
    rcases ha with rfl | ha
    · exact hne (A.tiles.eq_of_fst_eq (Or.inr hq) (Or.inr hp) rfl)
    · exact A.fst_ne ha hq rfl

end absorb

section coalesced
variable {a b : α}

theorem grow_coalesced (hc : Coalesced A.free) (hlr : l < r)
    (hd : Disjoint (span (l, r)) A.points) (hl : ∀ p ∈ A.free, p.2 ≠ l)
    (hr : ∀ p ∈ A.free, p.1 ≠ r) : Coalesced (A.grow hlr hd).free := by
  intro p hp q hq
  rcases hp with rfl | hp
  · rcases hq with rfl | hq
    · exact hlr.ne'
    · exact (hr q hq).symm
  · rcases hq with rfl | hq
    · exact hl p hp
    · exact hc p hp q hq

theorem take_coalesced (hc : Coalesced A.free) (hp : (l, r) ∈ A.free) (hlm : l < m)
    (hmr : m ≤ r) : Coalesced (A.take hp hlm hmr).free := by
  intro p hp' q hq
  rcases hp' with ⟨rfl, hlt⟩ | hp'
  · rcases hq with ⟨rfl, hlt⟩ | hq
    · exact hlt.ne'
    · exact hc _ hp q hq.1
  · rcases hq with ⟨rfl, hlt⟩ | hq
    · intro he
      change p.2 = m at he
      rcases A.tiles.le_or_le (Or.inl hp'.1) (Or.inl hp) hp'.2 with hle | hle
      · exact absurd hlm (not_lt.mpr (he ▸ hle))
      · exact absurd ((A.lt_of_free hp'.1).trans_eq he) (not_lt.mpr (hmr.trans hle))
    · exact hc p hp'.1 q hq.1

/-- Joining moves no point at which two free intervals meet. -/
theorem absorb_seams (hp : (l, r) ∈ A.live) (ha : a = l ∨ (a, l) ∈ A.free)
    (hb : b = r ∨ (r, b) ∈ A.free) (hprev : ∀ q ∈ A.free, q.2 = l → q = (a, l))
    (hnext : ∀ q ∈ A.free, q.1 = r → q = (r, b)) :
    seams (A.absorb hp ha hb).free = seams A.free := by
  have hab : a < b := (A.absorb hp ha hb).lt_of_free (mem_insert _ _)
  ext x
  constructor
  · intro hx
    obtain ⟨⟨p, hp', hpx⟩, q, hq', hqx⟩ := hx
    rcases hp' with rfl | ⟨hp', hpn⟩
    · rcases hq' with rfl | ⟨hq', hqn⟩
      · exact absurd (hqx.trans hpx.symm) hab.ne
      · rcases hb with rfl | hb
        · exact absurd (Or.inr (hnext q hq' (hqx.trans hpx.symm))) hqn
        · exact ⟨⟨_, hb, hpx⟩, q, hq', hqx⟩
    · rcases hq' with rfl | ⟨hq', hqn⟩
      · rcases ha with rfl | ha
        · exact absurd (Or.inl (hprev p hp' (hpx.trans hqx.symm))) hpn
        · exact ⟨⟨p, hp', hpx⟩, _, ha, hqx⟩
      · exact ⟨⟨p, hp', hpx⟩, q, hq', hqx⟩
  · intro hx
    obtain ⟨⟨p, hp', hpx⟩, q, hq', hqx⟩ := hx
    have hpl : p ≠ (a, l) := by
      intro he
      subst he
      exact A.fst_ne hq' hp (hqx.trans hpx.symm)
    have hqr : q ≠ (r, b) := by
      intro he
      subst he
      exact A.snd_ne hp' hp (hpx.trans hqx.symm)
    refine ⟨?_, ?_⟩
    · by_cases hpr : p = (r, b)
      · exact ⟨(a, b), mem_insert _ _, by rw [← hpx, hpr]⟩
      · exact ⟨p, Or.inr ⟨hp', fun hm => hm.elim hpl hpr⟩, hpx⟩
    · by_cases hql : q = (a, l)
      · exact ⟨(a, b), mem_insert _ _, by rw [← hqx, hql]⟩
      · exact ⟨q, Or.inr ⟨hq', fun hm => hm.elim hql hqr⟩, hqx⟩

theorem absorb_coalesced (hc : Coalesced A.free) (hp : (l, r) ∈ A.live)
    (ha : a = l ∨ (a, l) ∈ A.free) (hb : b = r ∨ (r, b) ∈ A.free)
    (hprev : ∀ q ∈ A.free, q.2 = l → q = (a, l)) (hnext : ∀ q ∈ A.free, q.1 = r → q = (r, b)) :
    Coalesced (A.absorb hp ha hb).free := by
  rw [coalesced_iff_seams] at hc ⊢
  rw [absorb_seams hp ha hb hprev hnext, hc]

end coalesced

/-- The free intervals are determined by the points, the live intervals and the seams. -/
theorem free_eq {A B : Arena ℕ} (hpoints : A.points = B.points) (hlive : A.live = B.live)
    (hs : seams A.free = seams B.free) : A.free = B.free := by
  have hA := A.tiles.left_part A.apart
  rw [hpoints, hlive] at hA
  exact hA.eq_of_seams (B.tiles.left_part B.apart) hs

end Arena
end ModCpp
