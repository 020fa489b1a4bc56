import ModCpp.LinkedList

/-!
# `linked_list` as a double-ended queue

The living nodes form one ring from the sentinel back to it, linked both ways, in which every
element is owned once, by the node before it, and the sentinel twice, by the list and by the
node before it.
-/

namespace ModCpp
variable {T : Type}

namespace LinkedList

def Heap.inserted (h : Heap T) (v : T) (p q : ℕ) : Heap T where
  data := Function.update h.data h.fresh (some v)
  next := Function.update (Function.update h.next p (some h.fresh)) h.fresh (some q)
  prev := Function.update (Function.update h.prev h.fresh (some p)) q (some h.fresh)
  strong := Function.update h.strong h.fresh 1
  fresh := h.fresh + 1

def Heap.removed (h : Heap T) (p q r : ℕ) : Heap T :=
  { h with
    next := Function.update h.next p (some r)
    prev := Function.update h.prev r (some p)
    strong := Function.update h.strong q 0 }

section calls
variable {h h' : Heap T} {head p q r : ℕ} {v : T}

theorem ends_eq {ans : Except String (Ret T)} (hdata : h.data = h'.data)
    (hnext : ∀ x, h.next x = h'.next x) (hprev : h.prev = h'.prev)
    (hstrong : ∀ x, h.strong x = h'.strong x) (hfresh : h.fresh = h'.fresh) :
    (pure (ans, ⟨h, head⟩) : Loop (Result T)) = pure (ans, ⟨h', head⟩) := by
  rw [Heap.ext hdata (funext hnext) hprev (funext hstrong) hfresh]

theorem empty_eq (hprev : h.prev head = some p) (hhead : h.strong head = 2)
    (hp : h.strong p = if p = head then 2 else 1) :
    empty ⟨h, head⟩ = pure (decide (p = head), ⟨h, head⟩) := by
  have hpos : h.strong p ≠ 0 := by split_ifs at hp <;> omega
  simp [empty, hprev, hhead, hpos]

theorem push_back_eq (hprev : h.prev head = some p) (hnext : h.next p = some head)
    (hhead : h.strong head = 2) (hp : h.strong p = if p = head then 2 else 1) (hpf : p ≠ h.fresh)
    (hhf : head ≠ h.fresh) :
    push_back v ⟨h, head⟩ = pure (.ok .done, ⟨h.inserted v p head, head⟩) := by
  by_cases hph : p = head
  · subst hph
    simp [push_back, hprev, hnext, hhead, hpf, hpf.symm]
    refine ends_eq rfl ?_ rfl ?_ rfl
    all_goals
      intro x
      simp only [Heap.inserted, Function.update_apply]
      split_ifs <;> simp_all
  · rw [if_neg hph] at hp
    simp [push_back, hprev, hnext, hhead, hp, hpf, hpf.symm, hhf, hhf.symm, hph, Ne.symm hph]
    refine ends_eq rfl ?_ rfl ?_ rfl
    all_goals
      intro x
      simp only [Heap.inserted, Function.update_apply]
      split_ifs <;> simp_all

theorem push_front_eq (hnext : h.next head = some q) (hhead : h.strong head = 2)
    (hq : h.strong q = if q = head then 2 else 1) (hqf : q ≠ h.fresh) (hhf : head ≠ h.fresh) :
    push_front v ⟨h, head⟩ = pure (.ok .done, ⟨h.inserted v head q, head⟩) := by
  by_cases hqh : q = head
  · subst hqh
    simp [push_front, hnext, hhead, hqf, hqf.symm]
    refine ends_eq rfl ?_ rfl ?_ rfl
    all_goals
      intro x
      simp only [Heap.inserted, Function.update_apply]
      split_ifs <;> simp_all
  · rw [if_neg hqh] at hq
    simp [push_front, hnext, hhead, hq, hqf, hqf.symm, hhf, hhf.symm, Ne.symm hqh]
    refine ends_eq rfl ?_ rfl ?_ rfl
    all_goals
      intro x
      simp only [Heap.inserted, Function.update_apply]
      split_ifs <;> simp_all

/-- The popped node loses its last owner when the local variable that holds it goes. -/
theorem pop_back_eq (hprev : h.prev head = some q) (hprevq : h.prev q = some p)
    (hnextp : h.next p = some q) (hnextq : h.next q = some head) (hhead : h.strong head = 2)
    (hqh : q ≠ head) (hq : h.strong q = 1) (hp : h.strong p = if p = head then 2 else 1)
    (hpq : p ≠ q) (hv : h.data q = some v) (hfresh : 0 < h.fresh) :
    pop_back ⟨h, head⟩ = pure (.ok (.value v), ⟨h.removed p q head, head⟩) := by
  have hempty := empty_eq hprev hhead (by rw [if_neg hqh, hq])
  obtain ⟨fuel, hfuel⟩ : ∃ f, h.fresh = f + 1 := ⟨h.fresh - 1, by omega⟩
  by_cases hph : p = head
  · subst hph
    simp [pop_back, hempty, hprev, hprevq, hnextp, hnextq, hhead, hq, hqh, hpq, hv, hfuel]
    refine ends_eq rfl (fun _ => rfl) rfl ?_ hfuel.symm
    intro x
    simp only [Heap.removed, Function.update_apply]
    split_ifs <;> simp_all
  · rw [if_neg hph] at hp
    simp [pop_back, hempty, hprev, hprevq, hnextp, hnextq, hhead, hq, hp, hqh, hpq, hpq.symm,
      Ne.symm hqh, hv, hfuel, hph, Ne.symm hph]
    refine ends_eq rfl (fun _ => rfl) rfl ?_ hfuel.symm
    intro x
    simp only [Heap.removed, Function.update_apply]
    split_ifs <;> simp_all

theorem pop_front_eq (hprev : h.prev head = some p) (hp : h.strong p = if p = head then 2 else 1)
    (hph : p ≠ head) (hnext : h.next head = some q) (hnextq : h.next q = some r)
    (hhead : h.strong head = 2) (hqh : q ≠ head) (hq : h.strong q = 1)
    (hr : h.strong r = if r = head then 2 else 1) (hrq : r ≠ q) (hv : h.data q = some v)
    (hfresh : 0 < h.fresh) :
    pop_front ⟨h, head⟩ = pure (.ok (.value v), ⟨h.removed head q r, head⟩) := by
  have hempty := empty_eq hprev hhead hp
  obtain ⟨fuel, hfuel⟩ : ∃ f, h.fresh = f + 1 := ⟨h.fresh - 1, by omega⟩
  by_cases hrh : r = head
  · subst hrh
    simp [pop_front, hempty, hph, hnext, hnextq, hhead, hq, hqh, hrq, hv, hfuel]
    refine ends_eq rfl (fun _ => rfl) rfl ?_ hfuel.symm
    intro x
    simp only [Heap.removed, Function.update_apply]
    split_ifs <;> simp_all
  · rw [if_neg hrh] at hr
    simp [pop_front, hempty, hph, hnext, hnextq, hhead, hq, hr, hqh, hrq, hrq.symm, Ne.symm hqh, hv,
      hfuel, Ne.symm hrh]
    refine ends_eq rfl (fun _ => rfl) rfl ?_ hfuel.symm
    intro x
    simp only [Heap.removed, Function.update_apply]
    split_ifs <;> simp_all

end calls

/-- The nodes of a list, from the one after the sentinel on, and their elements. -/
structure Ring (l : LinkedList T) (ids : List ℕ) (xs : List T) : Prop where
  nodup : (l.head :: ids).Nodup
  below : ∀ x ∈ l.head :: ids, x < l.heap.fresh
  chain : (l.head :: (ids ++ [l.head])).IsChain (Link l.heap.next l.heap.prev)
  data : ids.map l.heap.data = xs.map some
  strong : ∀ x, l.heap.strong x = if x = l.head then 2 else if x ∈ ids then 1 else 0

namespace Ring
variable {h : Heap T} {head p q r : ℕ} {v : T} {ids a b l₁ l₂ : List ℕ} {xs ys : List T}

theorem path (hr : Ring ⟨h, head⟩ ids xs) : Path h.next h.prev (head :: (ids ++ [head])) := by
  have hnodup := hr.nodup
  refine ⟨hr.chain, ?_, ?_⟩
  · rw [← List.cons_append, List.dropLast_concat]
    exact hnodup
  · rw [List.tail_cons, List.nodup_append_comm]
    exact hnodup

theorem strong_head (hr : Ring ⟨h, head⟩ ids xs) : h.strong head = 2 := by
  simpa using hr.strong head

theorem strong_mem (hr : Ring ⟨h, head⟩ ids xs) (hp : p ∈ head :: ids) :
    h.strong p = if p = head then 2 else 1 := by
  rw [hr.strong p]
  rcases List.mem_cons.mp hp with rfl | hp
  · simp
  · simp [hp]

theorem ne_fresh (hr : Ring ⟨h, head⟩ ids xs) (hp : p ∈ head :: ids) : p ≠ h.fresh :=
  Nat.ne_of_lt (hr.below p hp)

theorem link (hr : Ring ⟨h, head⟩ (a ++ b) xs) (hp : head :: a = l₁ ++ [p])
    (hq : b ++ [head] = q :: l₂) : Link h.next h.prev p q := by
  have hsplit : head :: ((a ++ b) ++ [head]) = l₁ ++ p :: q :: l₂ := by
    rw [List.append_assoc, hq, ← List.cons_append, hp, List.append_assoc]
    rfl
  have hchain := hr.chain
  simp only [hsplit] at hchain
  exact (List.isChain_append_cons_cons.mp hchain).2.1

theorem insert (hr : Ring ⟨h, head⟩ (a ++ b) xs) (hp : head :: a = l₁ ++ [p])
    (hq : b ++ [head] = q :: l₂) (hdata : (a ++ h.fresh :: b).map
      (Function.update h.data h.fresh (some v)) = ys.map some) :
    Ring ⟨h.inserted v p q, head⟩ (a ++ h.fresh :: b) ys := by
  have hsplit : head :: ((a ++ b) ++ [head]) = l₁ ++ p :: q :: l₂ := by
    rw [List.append_assoc, hq, ← List.cons_append, hp, List.append_assoc]
    rfl
  have hsplit' : head :: ((a ++ h.fresh :: b) ++ [head]) = l₁ ++ p :: h.fresh :: q :: l₂ := by
    rw [List.append_assoc, List.cons_append, hq, ← List.cons_append, hp, List.append_assoc]
    rfl
  have hnew : h.fresh ∉ head :: (a ++ b) := fun hf => hr.ne_fresh hf rfl
  have hperm : (head :: (a ++ h.fresh :: b)).Perm (h.fresh :: head :: (a ++ b)) :=
    (List.perm_middle.cons head).trans (List.Perm.swap ..)
  refine ⟨?_, ?_, ?_, hdata, ?_⟩
  · exact hperm.nodup_iff.mpr (List.nodup_cons.mpr ⟨hnew, hr.nodup⟩)
  · intro x hx
    rcases List.mem_cons.mp (hperm.mem_iff.mp hx) with rfl | hx
    · exact Nat.lt_succ_self _
    · exact Nat.lt_succ_of_lt (hr.below x hx)
  · have hpath := hr.path
    rw [hsplit] at hpath
    simp only [hsplit']
    refine hpath.insert ?_
    rw [← hsplit]
    simpa [or_comm, or_left_comm] using hnew
  · intro x
    have hx := hr.strong x
    simp only [Heap.inserted, Function.update_apply, List.mem_append, List.mem_cons] at hx hnew ⊢
    by_cases hxf : x = h.fresh
    · subst hxf
      simp [Ne.symm (fun he => hnew (.inl he.symm) : head ≠ h.fresh)]
    · simp [hxf, hx]

theorem remove (hr : Ring ⟨h, head⟩ (a ++ q :: b) xs) (hp : head :: a = l₁ ++ [p])
    (hrest : b ++ [head] = r :: l₂) (hdata : (a ++ b).map h.data = ys.map some) :
    Ring ⟨h.removed p q r, head⟩ (a ++ b) ys := by
  have hsplit : head :: ((a ++ q :: b) ++ [head]) = l₁ ++ p :: q :: r :: l₂ := by
    rw [List.append_assoc, List.cons_append, hrest, ← List.cons_append, hp, List.append_assoc]
    rfl
  have hsplit' : head :: ((a ++ b) ++ [head]) = l₁ ++ p :: r :: l₂ := by
    rw [List.append_assoc, hrest, ← List.cons_append, hp, List.append_assoc]
    rfl
  have hperm : (head :: (a ++ q :: b)).Perm (q :: head :: (a ++ b)) :=
    (List.perm_middle.cons head).trans (List.Perm.swap ..)
  obtain ⟨hq, hnodup⟩ := List.nodup_cons.mp (hperm.nodup_iff.mp hr.nodup)
  refine ⟨hnodup, ?_, ?_, hdata, ?_⟩
  · intro x hx
    exact hr.below x (hperm.mem_iff.mpr (List.mem_cons_of_mem _ hx))
  · have hpath := hr.path
    rw [hsplit] at hpath
    simp only [hsplit']
    exact hpath.remove
  · intro x
    have hx := hr.strong x
    simp only [Heap.removed, Function.update_apply, List.mem_append, List.mem_cons] at hx hq ⊢
    by_cases hxq : x = q
    · subst hxq
      simp only [not_or] at hq
      simp [hq]
    · simp [hxq, hx]

end Ring

/-- What a double-ended queue answers to a call, and what it holds after it. -/
def deque (xs : List T) : Call T → Except String (Ret T) × List T
  | .push_back data => (.ok .done, xs ++ [data])
  | .pop_back =>
    match xs.getLast? with
    | none => (.error "list is empty", xs)
    | some v => (.ok (.value v), xs.dropLast)
  | .push_front data => (.ok .done, data :: xs)
  | .pop_front =>
    match xs with
    | [] => (.error "list is empty", [])
    | v :: xs => (.ok (.value v), xs)
  | .empty => (.ok (.isEmpty xs.isEmpty), xs)

def dequeSystem : System (List T) (Call T × Except String (Ret T)) where
  init xs := xs = []
  step xs e xs' := deque xs e.1 = (e.2, xs')

def Answers (l : LinkedList T) (xs : List T) (c : Call T) : Prop :=
  ∃ l' ids', invoke l c = pure ((deque xs c).1, l') ∧ Ring l' ids' (deque xs c).2 ∧
    ∀ what, (deque xs c).1 = .error what → l' = l

section answers
variable {h : Heap T} {head : ℕ} {ids : List ℕ} {xs : List T} {l : LinkedList T}

theorem Ring.exists_last (hr : Ring ⟨h, head⟩ ids xs) : ∃ l₁ p, head :: ids = l₁ ++ [p] ∧
    p ∈ head :: ids ∧ (ids ≠ [] → p ∈ ids) ∧ h.prev head = some p ∧ h.next p = some head := by
  obtain ⟨l₁, p, hp⟩ := (List.eq_nil_or_concat (head :: ids)).resolve_left (by simp)
  rw [List.concat_eq_append] at hp
  have hr' : Ring ⟨h, head⟩ (ids ++ []) xs := by rwa [List.append_nil]
  have hlink := hr'.link hp rfl
  have hlast := congrArg List.getLast? hp
  rw [List.getLast?_concat] at hlast
  refine ⟨l₁, p, hp, List.mem_of_getLast? hlast, ?_, hlink.2, hlink.1⟩
  intro hne
  cases ids with
  | nil => exact absurd rfl hne
  | cons x rest =>
    rw [List.getLast?_cons_cons] at hlast
    exact List.mem_of_getLast? hlast

theorem map_update_fresh (hr : Ring ⟨h, head⟩ ids xs) {v : Option T} :
    ids.map (Function.update h.data h.fresh v) = ids.map h.data := by
  refine List.map_congr_left ?_
  intro x hx
  exact Function.update_of_ne (hr.ne_fresh (List.mem_cons_of_mem _ hx)) ..

theorem Ring.empty (hr : Ring ⟨h, head⟩ ids xs) :
    empty ⟨h, head⟩ = pure (xs.isEmpty, ⟨h, head⟩) := by
  obtain ⟨_, p, _, hmem, hlast, hprev, _⟩ := hr.exists_last
  rw [empty_eq hprev hr.strong_head (hr.strong_mem hmem)]
  have hlen : ids.length = xs.length := by simpa using congrArg List.length hr.data
  have hiff : p = head ↔ xs = [] := by
    constructor
    · intro he
      by_cases hnil : ids = []
      · rw [hnil] at hlen
        exact List.eq_nil_of_length_eq_zero hlen.symm
      · exact absurd (he ▸ hlast hnil) (List.nodup_cons.mp hr.nodup).1
    · intro he
      rw [he, List.length_nil, List.length_eq_zero_iff] at hlen
      rw [hlen, List.mem_singleton] at hmem
      exact hmem
  have hbool : decide (p = head) = xs.isEmpty := by
    rw [Bool.eq_iff_iff, decide_eq_true_iff, List.isEmpty_iff]
    exact hiff
  rw [hbool]

theorem answers_empty (hr : Ring ⟨h, head⟩ ids xs) : Answers ⟨h, head⟩ xs .empty := by
  refine ⟨⟨h, head⟩, ids, ?_, hr, fun _ _ => rfl⟩
  simp only [invoke, hr.empty, pure_bind]
  rfl

theorem answers_push_back (hr : Ring ⟨h, head⟩ ids xs) (v : T) :
    Answers ⟨h, head⟩ xs (.push_back v) := by
  obtain ⟨l₁, p, hp, hmem, _, hprev, hnext⟩ := hr.exists_last
  have hr' : Ring ⟨h, head⟩ (ids ++ []) xs := by rwa [List.append_nil]
  refine ⟨⟨h.inserted v p head, head⟩, ids ++ [h.fresh], ?_, hr'.insert hp rfl ?_, by simp [deque]⟩
  · exact push_back_eq hprev hnext hr.strong_head (hr.strong_mem hmem) (hr.ne_fresh hmem)
      (hr.ne_fresh List.mem_cons_self)
  · rw [List.map_append, map_update_fresh hr, hr.data]
    simp [deque]

theorem answers_push_front (hr : Ring ⟨h, head⟩ ids xs) (v : T) :
    Answers ⟨h, head⟩ xs (.push_front v) := by
  obtain ⟨q, l₂, hq⟩ := List.exists_cons_of_ne_nil (l := ids ++ [head]) (by simp)
  have hmem : q ∈ head :: ids := by
    have : q ∈ ids ++ [head] := by simp [hq]
    simpa [or_comm] using this
  have hr' : Ring ⟨h, head⟩ ([] ++ ids) xs := hr
  have hlink := hr'.link (show [head] = [] ++ [head] from rfl) hq
  refine ⟨⟨h.inserted v head q, head⟩, h.fresh :: ids, ?_,
    hr'.insert (show [head] = [] ++ [head] from rfl) hq ?_, by simp [deque]⟩
  · exact push_front_eq hlink.1 hr.strong_head (hr.strong_mem hmem) (hr.ne_fresh hmem)
      (hr.ne_fresh List.mem_cons_self)
  · rw [List.nil_append, List.map_cons, map_update_fresh hr, hr.data]
    simp [deque]

theorem answers_pop_back (hr : Ring ⟨h, head⟩ ids xs) : Answers ⟨h, head⟩ xs .pop_back := by
  rcases List.eq_nil_or_concat ids with rfl | ⟨a, q, rfl⟩
  · have hxs : xs = [] := by simpa using hr.data.symm
    subst hxs
    refine ⟨⟨h, head⟩, [], ?_, hr, fun _ _ => rfl⟩
    simp only [invoke, pop_back, hr.empty, pure_bind]
    rfl
  · rw [List.concat_eq_append] at hr
    obtain ⟨ys, v, rfl⟩ : ∃ ys v, xs = ys ++ [v] := by
      rcases List.eq_nil_or_concat xs with rfl | ⟨ys, v, rfl⟩
      · simpa using hr.data
      · exact ⟨ys, v, List.concat_eq_append⟩
    have hdata := hr.data
    simp only [List.map_append, List.map_cons, List.map_nil] at hdata
    obtain ⟨hrest, hlast⟩ := List.append_inj' hdata rfl
    have hv : h.data q = some v := by simpa using hlast
    obtain ⟨l₁, p, hp⟩ := (List.eq_nil_or_concat (head :: a)).resolve_left (by simp)
    rw [List.concat_eq_append] at hp
    have hpq := hr.link hp rfl
    have hr' : Ring ⟨h, head⟩ ((a ++ [q]) ++ []) (ys ++ [v]) := by rwa [List.append_nil]
    have hqh := hr'.link (show head :: (a ++ [q]) = (head :: a) ++ [q] from rfl) rfl
    have hpa : p ∈ head :: a := by
      rw [hp]
      simp
    have hnodup : (head :: a).Nodup ∧ q ∉ head :: a := by
      have := hr.nodup
      rw [← List.cons_append, List.nodup_append] at this
      exact ⟨this.1, fun hq => this.2.2 q hq q (by simp) rfl⟩
    have hpmem : p ∈ head :: (a ++ [q]) := by
      rw [← List.cons_append]
      exact List.mem_append_left _ hpa
    have hne : q ≠ head := fun he => hnodup.2 (by simp [he])
    refine ⟨⟨h.removed p q head, head⟩, a, ?_, ?_, by simp [deque]⟩
    · have hpop := pop_back_eq hqh.2 hpq.2 hpq.1 hqh.1 hr.strong_head hne
        (by rw [hr.strong_mem (by simp), if_neg hne]) (hr.strong_mem hpmem)
        (fun he => hnodup.2 (he ▸ hpa)) hv (Nat.zero_lt_of_lt (hr.below head (by simp)))
      simpa [deque, invoke] using hpop
    · have hleft : (a ++ []).map h.data = ys.map some := by simpa using hrest
      have hgone := hr.remove hp (show [] ++ [head] = [head] from rfl) hleft
      simpa [deque] using hgone

theorem answers_pop_front (hr : Ring ⟨h, head⟩ ids xs) : Answers ⟨h, head⟩ xs .pop_front := by
  cases ids with
  | nil =>
    have hxs : xs = [] := by simpa using hr.data.symm
    subst hxs
    refine ⟨⟨h, head⟩, [], ?_, hr, fun _ _ => rfl⟩
    simp only [invoke, pop_front, hr.empty, pure_bind]
    rfl
  | cons q b =>
    obtain ⟨v, ys, rfl⟩ : ∃ v ys, xs = v :: ys := by
      cases xs with
      | nil => simpa using hr.data
      | cons v ys => exact ⟨v, ys, rfl⟩
    have hdata := hr.data
    simp only [List.map_cons, List.cons.injEq] at hdata
    obtain ⟨_, p, _, _, hlast, hprev, _⟩ := hr.exists_last
    have hpmem : p ∈ q :: b := hlast (by simp)
    obtain ⟨r, l₂, hrest⟩ := List.exists_cons_of_ne_nil (l := b ++ [head]) (by simp)
    have hrmem : r ∈ b ∨ r = head := by
      have : r ∈ b ++ [head] := by simp [hrest]
      simpa using this
    have hhead : head ∉ q :: b := (List.nodup_cons.mp hr.nodup).1
    have hqb : q ∉ b := (List.nodup_cons.mp (List.nodup_cons.mp hr.nodup).2).1
    have hr₁ : Ring ⟨h, head⟩ ([] ++ q :: b) (v :: ys) := hr
    have hr₂ : Ring ⟨h, head⟩ ([q] ++ b) (v :: ys) := hr
    have hhq := hr₁.link (show [head] = [] ++ [head] from rfl) rfl
    have hqr := hr₂.link (show [head, q] = [head] ++ [q] from rfl) hrest
    have hqh : q ≠ head := fun he => hhead (by simp [he])
    have hph : p ≠ head := fun he => hhead (he ▸ hpmem)
    have hrq : r ≠ q := by
      intro he
      rcases hrmem with hrb | hrh
      · exact hqb (he ▸ hrb)
      · exact hqh (he ▸ hrh)
    have hr_mem : r ∈ head :: q :: b := by
      rcases hrmem with hrb | hrh
      · simp [hrb]
      · simp [hrh]
    refine ⟨⟨h.removed head q r, head⟩, b, ?_, ?_, by simp [deque]⟩
    · have hpop := pop_front_eq hprev (hr.strong_mem (List.mem_cons_of_mem _ hpmem)) hph hhq.1
        hqr.1 hr.strong_head hqh (by rw [hr.strong_mem (by simp), if_neg hqh])
        (hr.strong_mem hr_mem) hrq hdata.1 (Nat.zero_lt_of_lt (hr.below head (by simp)))
      simpa [deque, invoke] using hpop
    · exact hr₁.remove (show [head] = [] ++ [head] from rfl) hrest hdata.2

theorem answers (hr : Ring l ids xs) (c : Call T) : Answers l xs c := by
  cases c with
  | push_back v => exact answers_push_back hr v
  | pop_back => exact answers_pop_back hr
  | push_front v => exact answers_push_front hr v
  | pop_front => exact answers_pop_front hr
  | empty => exact answers_empty hr

end answers

theorem construct_ring {l : LinkedList T} (h : construct = pure l) : Ring l [] [] := by
  simp [construct] at h
  cases Except.ok.inj (Option.some.inj h)
  refine ⟨by simp, by simp, ?_, rfl, ?_⟩
  · simp [Link]
  · intro x
    simp [Function.update_apply]

theorem run_ring {tr : List (Call T × Except String (Ret T))} {l : LinkedList T}
    (hr : listSystem.Run System.always tr l) :
    ∃ ids xs, dequeSystem.Run System.always tr xs ∧ Ring l ids xs := by
  refine System.run_invariant
    (P := fun tr l => ∃ ids xs, dequeSystem.Run System.always tr xs ∧ Ring l ids xs) ?_ ?_ hr
  · intro l hl
    exact ⟨[], [], .start rfl, construct_ring hl⟩
  · intro tr l e l₁ _ hi _ hs
    obtain ⟨ids, xs, hrun, hring⟩ := hi
    obtain ⟨l', ids', hinv, hring', _⟩ := answers hring e.1
    have heq : invoke l e.1 = pure (e.2, l₁) := hs
    rw [hinv] at heq
    obtain ⟨hans, rfl⟩ := Prod.mk.inj (Except.ok.inj (Option.some.inj heq))
    exact ⟨ids', _, hrun.step trivial (Prod.ext hans rfl), hring'⟩

theorem run_of_deque {tr : List (Call T × Except String (Ret T))} {xs : List T}
    (hr : dequeSystem.Run System.always tr xs) :
    ∃ l ids, listSystem.Run System.always tr l ∧ Ring l ids xs := by
  refine System.run_invariant
    (P := fun tr xs => ∃ l ids, listSystem.Run System.always tr l ∧ Ring l ids xs) ?_ ?_ hr
  · intro xs hxs
    obtain rfl : xs = [] := hxs
    exact ⟨_, [], .start rfl, construct_ring rfl⟩
  · intro tr xs e xs₁ _ hi _ hs
    obtain ⟨l, ids, hrun, hring⟩ := hi
    obtain ⟨l', ids', hinv, hring', _⟩ := answers hring e.1
    have heq : deque xs e.1 = (e.2, xs₁) := hs
    rw [heq] at hinv hring'
    exact ⟨l', ids', hrun.step trivial hinv, hring'⟩

structure Holds (l : LinkedList T) (ids : List ℕ) (xs : List T) : Prop where
  nodup : (l.head :: ids).Nodup
  data : ids.map l.heap.data = xs.map some
  forward : (l.head :: (ids ++ [l.head])).IsChain fun x y => l.heap.next x = some y
  backward : (l.head :: (ids.reverse ++ [l.head])).IsChain
    fun x y => l.heap.lock (l.heap.prev x) = some y
  alive : ∀ x, 0 < l.heap.strong x ↔ x = l.head ∨ x ∈ ids
  locks : ∀ x, 0 < l.heap.strong x → ∃ y, l.heap.lock (l.heap.prev x) = some y

theorem exists_next {α : Type*} {R : α → α → Prop} {l : List α} {z : α}
    (h : (l ++ [z]).IsChain R) : ∀ x ∈ l, ∃ y, R x y := by
  induction l with
  | nil => simp
  | cons a l ih =>
    intro x hx
    rcases List.mem_cons.mp hx with rfl | hx
    · cases l with
      | nil => exact ⟨z, (List.isChain_cons_cons.mp h).1⟩
      | cons b l => exact ⟨b, (List.isChain_cons_cons.mp h).1⟩
    · exact ih h.tail x hx

theorem Ring.alive {l : LinkedList T} {ids : List ℕ} {xs : List T} (hr : Ring l ids xs) {x : ℕ} :
    0 < l.heap.strong x ↔ x ∈ l.head :: ids := by
  rw [hr.strong x, List.mem_cons]
  split_ifs <;> simp_all

theorem Ring.lock_eq {l : LinkedList T} {ids : List ℕ} {xs : List T} (hr : Ring l ids xs) {x : ℕ}
    (hx : x ∈ l.head :: ids) : l.heap.lock (some x) = some x := by
  have halive := hr.alive.mpr hx
  simp [Nat.ne_of_gt halive]

theorem Ring.holds {l : LinkedList T} {ids : List ℕ} {xs : List T} (hr : Ring l ids xs) :
    Holds l ids xs := by
  have hmem : ∀ x ∈ l.head :: (ids ++ [l.head]), x ∈ l.head :: ids := by
    intro x hx
    simpa [or_comm] using hx
  have hback : (l.head :: (ids.reverse ++ [l.head])).IsChain
      fun x y => l.heap.lock (l.heap.prev x) = some y := by
    have hrev : l.head :: (ids.reverse ++ [l.head]) = (l.head :: (ids ++ [l.head])).reverse := by
      simp
    rw [hrev, List.isChain_reverse]
    refine hr.chain.imp_of_mem_imp ?_
    intro x y hx _ hxy
    rw [hxy.2]
    exact hr.lock_eq (hmem x hx)
  refine ⟨hr.nodup, hr.data, ?_, hback, ?_, ?_⟩
  · exact hr.chain.imp fun _ _ h => h.1
  · intro x
    rw [hr.alive, List.mem_cons]
  · intro x hx
    rw [← List.cons_append] at hback
    refine exists_next hback x ?_
    simpa using hr.alive.mp hx

theorem deque_refined {tr : List (Call T × Except String (Ret T))} {l : LinkedList T}
    (hr : listSystem.Run System.always tr l) :
    ∃ ids xs, dequeSystem.Run System.always tr xs ∧ Holds l ids xs ∧
      ∀ c, ∃ l', invoke l c = pure ((deque xs c).1, l') ∧
        ∀ what, (deque xs c).1 = .error what → l' = l := by
  obtain ⟨ids, xs, hrun, hring⟩ := run_ring hr
  refine ⟨ids, xs, hrun, hring.holds, ?_⟩
  intro c
  obtain ⟨l', ids', hinv, _, hsame⟩ := answers hring c
  exact ⟨l', hinv, hsame⟩

theorem pushed_popped : dequeSystem.Run System.always [(.push_back 1, .ok .done),
    (.push_front 2, .ok .done), (.pop_back, .ok (.value 1))] [2] :=
  (((System.Run.start rfl).step trivial (t := [1]) rfl).step trivial (t := [2, 1]) rfl).step
    trivial rfl

theorem deque_refined_sample : ∃ (l : LinkedList ℕ) (ids xs : List ℕ),
    dequeSystem.Run System.always [(.push_back 1, .ok .done), (.push_front 2, .ok .done),
      (.pop_back, .ok (.value 1))] xs ∧ Holds l ids xs ∧
      ∀ c, ∃ l', invoke l c = pure ((deque xs c).1, l') ∧
        ∀ what, (deque xs c).1 = .error what → l' = l := by
  obtain ⟨l, _, hr, _⟩ := run_of_deque pushed_popped
  exact ⟨l, deque_refined hr⟩

def Heap.Freed (h : Heap T) : Prop := ∀ x < h.fresh, h.strong x = 0

/-- The node before the sentinel goes on owning it, and so the whole ring stays. -/
theorem Ring.destroy {l : LinkedList T} {ids : List ℕ} {xs : List T} (hr : Ring l ids xs) :
    LinkedList.destroy l =
      pure { l.heap with strong := Function.update l.heap.strong l.head 1 } := by
  have hhead : l.heap.strong l.head = 2 := by simp [hr.strong]
  simp [LinkedList.destroy, hhead]

theorem destroy_leaks {tr : List (Call T × Except String (Ret T))} {l : LinkedList T}
    (hr : listSystem.Run System.always tr l) :
    ∃ h, destroy l = pure h ∧ ¬ h.Freed ∧ ∀ x, 0 < l.heap.strong x → 0 < h.strong x := by
  obtain ⟨ids, xs, _, hring⟩ := run_ring hr
  refine ⟨_, hring.destroy, ?_, ?_⟩
  · intro hfreed
    have hzero := hfreed l.head (hring.below l.head (by simp))
    simp at hzero
  · intro x hx
    by_cases he : x = l.head
    · subst he
      simp
    · simpa [he] using hx

/-- Neither the sentinel nor the element that is left goes with the list. -/
theorem destroy_leaks_sample : ∃ (l : LinkedList ℕ) (h : Heap ℕ), destroy l = pure h ∧
    ¬ h.Freed ∧ ∃ x ≠ l.head, 0 < h.strong x := by
  obtain ⟨l, ids, hr, hring⟩ := run_of_deque pushed_popped
  obtain ⟨h, hd, hleak, hkept⟩ := destroy_leaks hr
  obtain ⟨x, rest, rfl⟩ : ∃ x rest, ids = x :: rest := by
    cases ids with
    | nil => simpa using hring.data
    | cons x rest => exact ⟨x, rest, rfl⟩
  refine ⟨l, h, hd, hleak, x, ?_, hkept x (hring.alive.mpr (by simp))⟩
  intro he
  exact (List.nodup_cons.mp hring.nodup).1 (by simp [he])

/-- A list that was never used keeps its sentinel alive. -/
theorem destroy_leaks_fails : ¬ ∀ (tr : List (Call ℕ × Except String (Ret ℕ)))
    (l : LinkedList ℕ), listSystem.Run System.always tr l → ∃ h, destroy l = pure h ∧ h.Freed := by
  intro hall
  obtain ⟨l, hl⟩ : ∃ l : LinkedList ℕ, construct = pure l := ⟨_, rfl⟩
  obtain ⟨h, hd, hfreed⟩ := hall [] l (.start hl)
  rw [(construct_ring hl).destroy] at hd
  cases Except.ok.inj (Option.some.inj hd)
  have hzero := hfreed l.head ((construct_ring hl).below l.head (by simp))
  simp at hzero

end LinkedList

end ModCpp
