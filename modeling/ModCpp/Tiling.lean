import Mathlib.Data.Set.Lattice
import Mathlib.Data.Set.Pairwise.Lattice
import Mathlib.Order.CompletePartialOrder
import Mathlib.Order.Interval.Set.Disjoint
import Mathlib.Tactic.Common

/-!
# Tilings of a set by half-open intervals

A pair `(l, r)` stands for the points from `l` up to, not including, `r`. A set of
pairs tiles `S` when its intervals are nonempty, pairwise disjoint and cover `S`
exactly. Adding a disjoint piece, and exchanging pieces for others over the same
points, keep a tiling. Over the natural numbers the
pieces of a coalesced part of a tiling are the maximal intervals of what the other
part leaves over, so they are determined by the set they cover.
-/

open Set

namespace ModCpp

variable {α : Type*} [LinearOrder α]

def span (p : α × α) : Set α := Ico p.1 p.2

theorem mem_span {p : α × α} {x : α} : x ∈ span p ↔ p.1 ≤ x ∧ x < p.2 := Iff.rfl

structure Tiles (I : Set (α × α)) (S : Set α) : Prop where
  nonempty : ∀ p ∈ I, p.1 < p.2
  disjoint : I.PairwiseDisjoint span
  cover : ⋃ p ∈ I, span p = S

namespace Tiles
variable {I J : Set (α × α)} {S T : Set α} {l m r : α} {p q : α × α} {x : α}

theorem mem_iff (h : Tiles I S) : x ∈ S ↔ ∃ p ∈ I, x ∈ span p := by
  rw [← h.cover]
  simp

theorem span_subset (h : Tiles I S) (hp : p ∈ I) : span p ⊆ S :=
  fun _ hx => h.mem_iff.mpr ⟨p, hp, hx⟩

theorem eq_of_mem (h : Tiles I S) (hp : p ∈ I) (hq : q ∈ I) (hxp : x ∈ span p)
    (hxq : x ∈ span q) : p = q := by
  by_contra hne
  exact disjoint_left.mp (h.disjoint hp hq hne) hxp hxq

theorem eq_of_fst_eq (h : Tiles I S) (hp : p ∈ I) (hq : q ∈ I) (he : p.1 = q.1) : p = q :=
  h.eq_of_mem hp hq ⟨le_rfl, h.nonempty p hp⟩ ⟨he.ge, he ▸ h.nonempty q hq⟩

theorem le_or_le (h : Tiles I S) (hp : p ∈ I) (hq : q ∈ I) (hne : p ≠ q) :
    p.2 ≤ q.1 ∨ q.2 ≤ p.1 := by
  have hd : Disjoint (Ico p.1 p.2) (Ico q.1 q.2) := h.disjoint hp hq hne
  have hpn := h.nonempty p hp
  have hqn := h.nonempty q hq
  rw [Ico_disjoint_Ico] at hd
  rcases le_total p.1 q.1 with hle | hle
  · rw [max_eq_right hle] at hd
    rcases min_le_iff.mp hd with h1 | h1
    · exact Or.inl h1
    · exact absurd h1 (not_le.mpr hqn)
  · rw [max_eq_left hle] at hd
    rcases min_le_iff.mp hd with h1 | h1
    · exact absurd h1 (not_le.mpr hpn)
    · exact Or.inr h1

theorem eq_of_snd_eq (h : Tiles I S) (hp : p ∈ I) (hq : q ∈ I) (he : p.2 = q.2) : p = q := by
  by_contra hne
  have hpn := h.nonempty p hp
  have hqn := h.nonempty q hq
  rcases h.le_or_le hp hq hne with hle | hle
  · exact absurd (he ▸ hle) (not_le.mpr hqn)
  · exact absurd (he ▸ hle) (not_le.mpr hpn)

theorem empty : Tiles (∅ : Set (α × α)) ∅ :=
  ⟨by simp, by simp, by simp⟩

theorem insert (h : Tiles I S) (hlr : l < r) (hd : Disjoint (span (l, r)) S) :
    Tiles (insert (l, r) I) (S ∪ span (l, r)) := by
  refine ⟨?_, ?_, ?_⟩
  · intro p hp
    rcases hp with rfl | hp
    · exact hlr
    · exact h.nonempty p hp
  · exact h.disjoint.insert fun q hq _ => hd.mono_right (h.span_subset hq)
  · rw [biUnion_insert, h.cover, union_comm]

/-- Exchanging some pieces for others that tile the same points keeps a tiling. -/
theorem exchange (h : Tiles I S) (hJI : J ⊆ I) {K : Set (α × α)} (hJ : Tiles J T)
    (hK : Tiles K T) : Tiles (K ∪ I \ J) S := by
  refine ⟨?_, ?_, ?_⟩
  · intro p hp
    rcases hp with hp | hp
    · exact hK.nonempty p hp
    · exact h.nonempty p hp.1
  · apply hK.disjoint.union (h.disjoint.subset sdiff_subset)
    intro p hp q hq _
    apply disjoint_left.mpr
    intro x hxp hxq
    obtain ⟨j, hj, hxj⟩ := hJ.mem_iff.mp (hK.span_subset hp hxp)
    exact hq.2 (h.eq_of_mem hq.1 (hJI hj) hxq hxj ▸ hj)
  · rw [biUnion_union, hK.cover, ← hJ.cover, ← biUnion_union, union_sdiff_cancel hJI, h.cover]

theorem single (hlr : l < r) : Tiles {(l, r)} (span (l, r)) :=
  ⟨by simpa using hlr, by simp, by simp⟩

theorem pair (hlm : l < m) (hmr : m < r) : Tiles {(l, m), (m, r)} (span (l, r)) := by
  have hd : Disjoint (span (l, m)) (span (m, r)) :=
    disjoint_left.mpr fun x hx hy => absurd hx.2 (not_lt.mpr hy.1)
  have hu : span (m, r) ∪ span (l, m) = span (l, r) := by
    rw [union_comm]
    exact Ico_union_Ico_eq_Ico hlm.le hmr.le
  simpa only [hu] using (single hmr).insert hlm hd

theorem split (h : Tiles I S) (hI : (l, r) ∈ I) (hlm : l < m) (hmr : m < r) :
    Tiles ({(l, m), (m, r)} ∪ I \ {(l, r)}) S :=
  h.exchange (singleton_subset_iff.mpr hI) (single (hlm.trans hmr)) (pair hlm hmr)

end Tiles

/-- No piece ends where another begins. -/
def Coalesced (I : Set (α × α)) : Prop := ∀ p ∈ I, ∀ q ∈ I, p.2 ≠ q.1

/-- The points at which one piece ends and another begins. -/
def seams (I : Set (α × α)) : Set α := {x | (∃ p ∈ I, p.2 = x) ∧ ∃ q ∈ I, q.1 = x}

theorem coalesced_iff_seams {β : Type*} {I : Set (β × β)} : Coalesced I ↔ seams I = ∅ := by
  rw [eq_empty_iff_forall_notMem]
  constructor
  · intro h x hx
    obtain ⟨⟨p, hp, hpx⟩, q, hq, hqx⟩ := hx
    exact h p hp q hq (hpx.trans hqx.symm)
  · intro h p hp q hq he
    exact h q.1 ⟨⟨p, hp, he⟩, q, hq, rfl⟩

/-- A nonempty interval inside `S` that no larger interval inside `S` contains. -/
def IsMaximalIn (S : Set α) (p : α × α) : Prop :=
  p.1 < p.2 ∧ span p ⊆ S ∧ ∀ q : α × α, q.1 ≤ p.1 → p.2 ≤ q.2 → span q ⊆ S → q = p

variable {F L : Set (ℕ × ℕ)} {S : Set ℕ} {p q : ℕ × ℕ}

theorem Tiles.span_subset_left_over (h : Tiles (F ∪ L) S) (hd : Disjoint F L) (hp : p ∈ F) :
    span p ⊆ S \ ⋃ q ∈ L, span q := by
  intro x hx
  refine ⟨h.span_subset (Or.inl hp) hx, ?_⟩
  simp only [mem_iUnion, not_exists]
  intro q hq hxq
  have he := h.eq_of_mem (Or.inl hp) (Or.inr hq) hx hxq
  exact disjoint_left.mp hd hp (he ▸ hq)

theorem Tiles.left_out (h : Tiles (F ∪ L) S) {x : ℕ} (hx : x ∈ S \ ⋃ q ∈ L, span q) :
    ∃ p ∈ F, x ∈ span p := by
  obtain ⟨p, hp | hp, hxp⟩ := h.mem_iff.mp hx.1
  · exact ⟨p, hp, hxp⟩
  · exact absurd (mem_biUnion hp hxp) hx.2

theorem Tiles.left_part (h : Tiles (F ∪ L) S) (hd : Disjoint F L) :
    Tiles F (S \ ⋃ q ∈ L, span q) := by
  refine ⟨fun p hp => h.nonempty p (Or.inl hp), h.disjoint.subset subset_union_left, ?_⟩
  ext x
  simp only [mem_iUnion, exists_prop]
  constructor
  · intro hx
    obtain ⟨p, hp, hxp⟩ := hx
    exact h.span_subset_left_over hd hp hxp
  · exact h.left_out

theorem Tiles.eq_of_span_subset (h : Tiles (F ∪ L) S) (hc : Coalesced F) (hp : p ∈ F)
    (hl : q.1 ≤ p.1) (hr : p.2 ≤ q.2) (hq : span q ⊆ S \ ⋃ q ∈ L, span q) : q = p := by
  have hpn : p.1 < p.2 := h.nonempty p (Or.inl hp)
  have hleft : q.1 = p.1 := by
    by_contra hne
    have hlt : q.1 < p.1 := lt_of_le_of_ne hl hne
    obtain ⟨a, ha, hx⟩ := h.left_out (hq (show p.1 - 1 ∈ span q from ⟨by omega, by omega⟩))
    have hax : a.1 ≤ p.1 - 1 ∧ p.1 - 1 < a.2 := hx
    have hap : a ≠ p := by
      intro he
      subst he
      omega
    rcases h.le_or_le (Or.inl ha) (Or.inl hp) hap with hle | hle
    · exact hc a ha p hp (by omega)
    · omega
  have hright : q.2 = p.2 := by
    by_contra hne
    obtain ⟨a, ha, hx⟩ := h.left_out (hq (show p.2 ∈ span q from ⟨by omega, by omega⟩))
    have hax : a.1 ≤ p.2 ∧ p.2 < a.2 := hx
    have hap : p ≠ a := by
      intro he
      subst he
      omega
    rcases h.le_or_le (Or.inl hp) (Or.inl ha) hap with hle | hle
    · exact hc p hp a ha (by omega)
    · omega
  exact Prod.ext hleft hright

/-- The free part, once coalesced, is exactly the set of maximal intervals of the points
the other part leaves over. -/
theorem Tiles.mem_iff_isMaximalIn (h : Tiles (F ∪ L) S) (hd : Disjoint F L)
    (hc : Coalesced F) : p ∈ F ↔ IsMaximalIn (S \ ⋃ q ∈ L, span q) p := by
  constructor
  · intro hp
    exact ⟨h.nonempty p (Or.inl hp), h.span_subset_left_over hd hp,
      fun q hl hr hq => h.eq_of_span_subset hc hp hl hr hq⟩
  · intro hp
    obtain ⟨hn, hs, hmax⟩ := hp
    obtain ⟨a, ha, hx⟩ := h.left_out (hs (show p.1 ∈ span p from ⟨le_rfl, hn⟩))
    have hax : a.1 ≤ p.1 ∧ p.1 < a.2 := hx
    -- the hull of the piece and `p` is still left over, so both equal it
    have hhull : span (a.1, max a.2 p.2) ⊆ S \ ⋃ q ∈ L, span q := by
      intro y hy
      have hy' : a.1 ≤ y ∧ y < max a.2 p.2 := hy
      by_cases hya : y < a.2
      · exact h.span_subset_left_over hd ha ⟨hy'.1, hya⟩
      · exact hs ⟨by omega, by omega⟩
    have hea : (a.1, max a.2 p.2) = a :=
      h.eq_of_span_subset hc ha le_rfl (le_max_left _ _) hhull
    have hep : (a.1, max a.2 p.2) = p := hmax _ hax.1 (le_max_right _ _) hhull
    exact (hea.symm.trans hep) ▸ ha

theorem Tiles.mem_seams {I J : Set (ℕ × ℕ)} (hI : Tiles I S) (hJ : Tiles J S) (hp : p ∈ I)
    (hq : q ∈ J) (hl : q.1 < p.1) (hr : p.1 < q.2) : p.1 ∈ seams I := by
  have hpn := hI.nonempty p hp
  obtain ⟨a, ha, hx⟩ := hI.mem_iff.mp (hJ.span_subset hq (show p.1 - 1 ∈ span q by
    rw [mem_span]
    omega))
  rw [mem_span] at hx
  have hne : a ≠ p := by
    intro he
    subst he
    omega
  rcases hI.le_or_le ha hp hne with hle | hle
  · exact ⟨⟨a, ha, by omega⟩, p, hp, rfl⟩
  · omega

theorem Tiles.not_mem_seams (h : Tiles F S) (hp : p ∈ F) {x : ℕ} (hl : p.1 < x) (hr : x < p.2) :
    x ∉ seams F := by
  intro hx
  obtain ⟨-, q, hq, hqx⟩ := hx
  have hqn := h.nonempty q hq
  have he := h.eq_of_mem hp hq (show x ∈ span p from ⟨hl.le, hr⟩) ⟨hqx.le, hqx ▸ hqn⟩
  subst he
  omega

theorem Tiles.exists_next (h : Tiles F S) (hp : p ∈ F) (hx : p.2 ∈ S) : ∃ q ∈ F, q.1 = p.2 := by
  have hpn := h.nonempty p hp
  obtain ⟨q, hq, hxq⟩ := h.mem_iff.mp hx
  rw [mem_span] at hxq
  have hne : p ≠ q := by
    intro he
    subst he
    omega
  rcases h.le_or_le hp hq hne with hle | hle
  · exact ⟨q, hq, by omega⟩
  · omega

section unique
variable {I J : Set (ℕ × ℕ)}

/-- Of two tilings with the same seams, no piece starts inside a piece of the other. -/
theorem Tiles.fst_eq (hI : Tiles I S) (hJ : Tiles J S) (hs : seams I = seams J) (hp : p ∈ I)
    (hq : q ∈ J) (hx : p.1 ∈ span q) : q.1 = p.1 := by
  by_contra hne
  rw [mem_span] at hx
  have hseam := hI.mem_seams hJ hp hq (by omega) hx.2
  exact hJ.not_mem_seams hq (by omega) hx.2 (hs ▸ hseam)

theorem Tiles.snd_le (hI : Tiles I S) (hJ : Tiles J S) (hs : seams I = seams J) (hp : p ∈ I)
    (hq : q ∈ J) (he : q.1 = p.1) : p.2 ≤ q.2 := by
  by_contra hlt
  have hqn := hJ.nonempty q hq
  have hx : q.2 ∈ span p := by
    rw [mem_span]
    omega
  obtain ⟨r, hr, hrq⟩ := hJ.exists_next hq (hI.span_subset hp hx)
  have hpr := hJ.fst_eq hI hs.symm hr hp (hrq ▸ hx)
  omega

/-- A tiling is determined by the points that it covers and its seams. -/
theorem Tiles.eq_of_seams (hI : Tiles I S) (hJ : Tiles J S) (hs : seams I = seams J) : I = J := by
  have hsub : ∀ {I J : Set (ℕ × ℕ)}, Tiles I S → Tiles J S → seams I = seams J → I ⊆ J := by
    intro I J hI hJ hs p hp
    obtain ⟨q, hq, hx⟩ := hJ.mem_iff.mp (hI.span_subset hp ⟨le_rfl, hI.nonempty p hp⟩)
    have hfst := hI.fst_eq hJ hs hp hq hx
    have hle := hI.snd_le hJ hs hp hq hfst
    have hge := hJ.snd_le hI hs.symm hq hp hfst.symm
    have he : p = q := Prod.ext hfst.symm (le_antisymm hle hge)
    exact he ▸ hq
  exact Subset.antisymm (hsub hI hJ hs) (hsub hJ hI hs.symm)

end unique

theorem Tiles.eq_of_coalesced {I J : Set (ℕ × ℕ)} (hI : Tiles I S) (hJ : Tiles J S)
    (hcI : Coalesced I) (hcJ : Coalesced J) : I = J :=
  hI.eq_of_seams hJ ((coalesced_iff_seams.mp hcI).trans (coalesced_iff_seams.mp hcJ).symm)

end ModCpp
