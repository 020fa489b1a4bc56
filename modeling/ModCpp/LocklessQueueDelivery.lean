import ModCpp.LocklessQueueCounters

/-!
# What the lockless queue delivers

A published slot keeps the value of its ticket, and the write of that ticket as its last
write, until the pop of the same ticket completes. From this follow delivery in ticket order
and the discipline of the slot accesses.
-/

namespace ModCpp.LocklessQueue
variable {τ α : Type*} {cap : ℕ} {q q' : Queue τ α} {h h' : History τ α} {t u : τ} {p : Pc α}

def lastWriter (log : List (Access α)) (slot : ℕ) : Option ℕ :=
  log.foldl (fun last a => match a with
    | .write s k => if s = slot then some k else last
    | .read _ _ _ => last) none

@[simp] theorem lastWriter_nil (slot : ℕ) : lastWriter ([] : List (Access α)) slot = none := rfl

@[simp] theorem lastWriter_concat_read (log : List (Access α)) (s k : ℕ) (v : α) (slot : ℕ) :
    lastWriter (log ++ [.read s k v]) slot = lastWriter log slot := by
  simp [lastWriter]

@[simp] theorem lastWriter_concat_write (log : List (Access α)) (s k slot : ℕ) :
    lastWriter (log ++ [.write s k]) slot = if s = slot then some k else lastWriter log slot := by
  simp [lastWriter]

/-- A slot is read when the write of the same ticket is its last one, and written when the
value of its last write has been read. -/
def SlotRule (log : List (Access α)) : Access α → Prop
  | .write slot _ => ∀ k, lastWriter log slot = some k → ∃ v, Access.read slot k v ∈ log
  | .read slot k _ => lastWriter log slot = some k

def Filled (cap : ℕ) (h : History τ α) (q : Queue τ α) (k : ℕ) : Prop :=
  h.pushed[k]? = some (q.data (k % cap)) ∧ lastWriter h.accesses (k % cap) = some k

def ThreadDelivery (cap : ℕ) (h : History τ α) (q : Queue τ α) (t : τ) : Pc α → Prop
  | .store val _ => h.pushed[h.pushTicket t]? = some val ∧
      lastWriter h.accesses (h.pushTicket t % cap) ≠ some (h.pushTicket t)
  | .pushRelease _ => Filled cap h q (h.pushTicket t)
  | .popRelease ans _ => h.pushed[h.popTicket t]? = some ans ∧
      Access.read (h.popTicket t % cap) (h.popTicket t) ans ∈ h.accesses
  | _ => True

structure Delivery (cap : ℕ) (h : History τ α) (q : Queue τ α) : Prop where
  published : ∀ k i : ℕ, h.published[k]? = some i → i = k
  returned : ∀ (k i : ℕ) (v : α), h.returned[k]? = some (i, v) → i = k ∧ h.pushed[k]? = some v
  filled : ∀ k, h.returned.length ≤ k → k < h.published.length → Filled cap h q k
  thread : ∀ t, ThreadDelivery cap h q t (q.pc t)
  read : ∀ slot k v, Access.read slot k v ∈ h.accesses → h.pushed[k]? = some v
  completed : ∀ k < h.returned.length, ∃ v, Access.read (k % cap) k v ∈ h.accesses
  writer : ∀ slot k, lastWriter h.accesses slot = some k → k < h.pushed.length ∧ k % cap = slot
  rule : Logged SlotRule h.accesses

structure Unwritten (h h' : History τ α) (q q' : Queue τ α) (t : τ) : Prop where
  pc : ∀ u, u ≠ t → q'.pc u = q.pc u
  pushTicket : ∀ u, u ≠ t → h'.pushTicket u = h.pushTicket u
  popTicket : ∀ u, u ≠ t → h'.popTicket u = h.popTicket u
  data : q'.data = q.data
  pushed : h.pushed <+: h'.pushed
  accesses : h.accesses ⊆ h'.accesses
  writer : ∀ slot, lastWriter h'.accesses slot = lastWriter h.accesses slot

theorem Unwritten.getElem (hu : Unwritten h h' q q' t) {k : ℕ} {v : α}
    (hk : h.pushed[k]? = some v) : h'.pushed[k]? = some v :=
  getElem?_of_prefix hu.pushed hk

theorem Unwritten.filled (hu : Unwritten h h' q q' t) {k : ℕ} (hf : Filled cap h q k) :
    Filled cap h' q' k := by
  rw [Filled, hu.data, hu.writer]
  exact ⟨hu.getElem hf.1, hf.2⟩

theorem Unwritten.thread (hu : Unwritten h h' q q' t)
    (hd : ∀ u, ThreadDelivery cap h q u (q.pc u)) (ht : ThreadDelivery cap h' q' t (q'.pc t))
    (u : τ) : ThreadDelivery cap h' q' u (q'.pc u) := by
  by_cases hut : u = t
  · subst hut
    exact ht
  · have hdu := hd u
    rw [hu.pc u hut]
    cases hpc : q.pc u with
    | store val cur =>
      rw [hpc] at hdu
      rw [ThreadDelivery, hu.pushTicket u hut, hu.writer]
      exact ⟨hu.getElem hdu.1, hdu.2⟩
    | pushRelease cur =>
      rw [hpc] at hdu
      rw [ThreadDelivery, hu.pushTicket u hut]
      exact hu.filled hdu
    | popRelease ans cur =>
      rw [hpc] at hdu
      rw [ThreadDelivery, hu.popTicket u hut]
      exact ⟨hu.getElem hdu.1, hu.accesses hdu.2⟩
    | _ => trivial

theorem Delivery.init (data : ℕ → α) :
    Delivery cap .empty (⟨data, 0, 0, 0, 0, fun _ => .idle⟩ : Queue τ α) := by
  constructor <;> simp [History.empty, ThreadDelivery, logged_nil]

/-- The ticket of a store in progress shares its slot with no published ticket and no other
ticket in progress. -/
theorem Counters.slot_ne (hc : Counters cap h q) {val : α} {cur k : ℕ}
    (hpc : q.pc t = .store val cur) (hk : h.returned.length ≤ k) (hk' : k < h.pushed.length)
    (hne : k ≠ h.pushTicket t) : k % cap ≠ cur := by
  have hord := hc.ord
  have hth := hc.thread t
  rw [hpc] at hth
  obtain ⟨rfl, hle, hlt⟩ := hth
  intro he
  exact hne (eq_of_mod_eq_of_mem hk (by omega) (by omega) (by omega) he)

section step
variable [DecidableEq τ] {tr : List (Event τ α)} {e : Event τ α}

theorem unwritten_goto (hp : h.pushed <+: h'.pushed) (ha : h.accesses ⊆ h'.accesses)
    (hpush : ∀ u, u ≠ t → h'.pushTicket u = h.pushTicket u)
    (hpop : ∀ u, u ≠ t → h'.popTicket u = h.popTicket u)
    (hw : ∀ slot, lastWriter h'.accesses slot = lastWriter h.accesses slot)
    (hdata : q'.data = q.data) (hpc : q'.pc = q.pc) :
    Unwritten h h' q (q'.goto t p) t where
  pc u hu := by rw [goto_pc_ne hu, hpc]
  pushTicket := hpush
  popTicket := hpop
  data := hdata
  pushed := hp
  accesses := ha
  writer := hw

theorem Delivery.of_goto (hd : Delivery cap h q) (hq : q'.data = q.data ∧ q'.pc = q.pc)
    (hh : h'.pushed = h.pushed ∧ h'.published = h.published ∧ h'.returned = h.returned ∧
      h'.accesses = h.accesses)
    (hpush : ∀ u, u ≠ t → h'.pushTicket u = h.pushTicket u)
    (hpop : ∀ u, u ≠ t → h'.popTicket u = h.popTicket u)
    (ht : ThreadDelivery cap h' (q'.goto t p) t p) : Delivery cap h' (q'.goto t p) := by
  obtain ⟨h1, h2, h3, h4⟩ := hh
  have hu : Unwritten h h' q (q'.goto t p) t :=
    unwritten_goto (h1 ▸ List.prefix_rfl) (h4 ▸ List.Subset.refl _) hpush hpop
      (fun slot => by rw [h4]) hq.1 hq.2
  constructor
  · rw [h2]
    exact hd.published
  · rw [h1, h3]
    exact hd.returned
  · intro k hk hk'
    rw [h3] at hk
    rw [h2] at hk'
    exact hu.filled (hd.filled k hk hk')
  · exact hu.thread hd.thread (by rwa [goto_pc_self])
  · rw [h1, h4]
    exact hd.read
  · rw [h3, h4]
    exact hd.completed
  · rw [h1, h4]
    exact hd.writer
  · rw [h4]
    exact hd.rule

theorem Delivery.claimed (hd : Delivery cap h q) (val : α) (cur : ℕ) :
    Delivery cap (h.record (.pushExchange t val true))
      ({ q with pushIdx := (cur + 1) % cap }.goto t (.store val cur)) := by
  have hu : Unwritten h (h.record (.pushExchange t val true)) q
      ({ q with pushIdx := (cur + 1) % cap }.goto t (.store val cur)) t :=
    unwritten_goto (List.prefix_append _ _) (List.Subset.refl _)
      (fun u hu => Function.update_of_ne hu ..) (fun _ _ => rfl) (fun _ => rfl) rfl rfl
  constructor
  · exact hd.published
  · intro k i v hk
    exact (hd.returned k i v hk).imp id hu.getElem
  · intro k hk hk'
    exact hu.filled (hd.filled k hk hk')
  · apply hu.thread hd.thread
    rw [goto_pc_self]
    simp only [ThreadDelivery, History.record, Function.update_self]
    refine ⟨List.getElem?_concat_length, fun hw => ?_⟩
    exact lt_irrefl _ (hd.writer _ _ hw).1
  · intro slot k v hm
    exact hu.getElem (hd.read slot k v hm)
  · exact hd.completed
  · intro slot k hw
    refine (hd.writer slot k hw).imp (fun hlt => ?_) id
    simp only [History.record, List.length_append, List.length_singleton]
    omega
  · exact hd.rule

theorem Delivery.released (hd : Delivery cap h q) (hc : Counters cap h q) {stale : ℕ}
    (hpc : q.pc t = .pushRelease stale) (hst : q.shadowPushIdx = stale) :
    Delivery cap (h.record (.pushRelease t true))
      ({ q with shadowPushIdx := (stale + 1) % cap }.goto t .idle) := by
  have hu : Unwritten h (h.record (.pushRelease t true)) q
      ({ q with shadowPushIdx := (stale + 1) % cap }.goto t .idle) t :=
    unwritten_goto List.prefix_rfl (List.Subset.refl _) (fun _ _ => rfl) (fun _ _ => rfl)
      (fun _ => rfl) rfl rfl
  have hticket := hc.pushTicket_eq hpc hst
  have hfill := hd.thread t
  rw [hpc, ThreadDelivery, hticket] at hfill
  constructor
  · intro k i hk
    rcases getElem?_concat_cases hk with hk | ⟨rfl, rfl⟩
    · exact hd.published k i hk
    · exact hticket
  · exact hd.returned
  · intro k hk hk'
    have hk₁ : k < h.published.length + 1 := by simpa [History.record] using hk'
    rcases Nat.lt_succ_iff_lt_or_eq.mp hk₁ with
      hlt | rfl
    · exact hu.filled (hd.filled k hk hlt)
    · exact hu.filled hfill
  · exact hu.thread hd.thread (by simp [ThreadDelivery])
  · exact hd.read
  · exact hd.completed
  · exact hd.writer
  · exact hd.rule

theorem Delivery.readOut (hd : Delivery cap h q) (hc : Counters cap h q) {cur : ℕ}
    (hpc : q.pc t = .read cur) :
    Delivery cap (h.record (.read t cur (q.data cur)))
      (q.goto t (.popRelease (q.data cur) cur)) := by
  have hu : Unwritten h (h.record (.read t cur (q.data cur))) q
      (q.goto t (.popRelease (q.data cur) cur)) t :=
    unwritten_goto List.prefix_rfl (List.subset_append_left _ _) (fun _ _ => rfl) (fun _ _ => rfl)
      (fun slot => by simp [History.record]) rfl rfl
  have hord := hc.ord
  have hth := hc.thread t
  rw [hpc] at hth
  obtain ⟨rfl, hle, hlt⟩ := hth
  have hfill : Filled cap h q (h.popTicket t) := hd.filled _ hle (by omega)
  constructor
  · exact hd.published
  · exact hd.returned
  · intro k hk hk'
    exact hu.filled (hd.filled k hk hk')
  · apply hu.thread hd.thread
    rw [goto_pc_self]
    exact ⟨hfill.1, by simp [History.record]⟩
  · intro slot k v hm
    rcases List.mem_append.mp hm with hm | hm
    · exact hd.read slot k v hm
    · simp only [List.mem_singleton, Access.read.injEq] at hm
      obtain ⟨rfl, rfl, rfl⟩ := hm
      exact hfill.1
  · intro k hk
    exact (hd.completed k hk).imp fun v hv => List.mem_append_left _ hv
  · intro slot k hw
    exact hd.writer slot k (hu.writer slot ▸ hw)
  · exact logged_concat hd.rule hfill.2

theorem Delivery.returnedTo (hd : Delivery cap h q) (hc : Counters cap h q) {ans : α} {stale : ℕ}
    (hpc : q.pc t = .popRelease ans stale) (hst : q.shadowPopIdx = stale) :
    Delivery cap (h.record (.popRelease t ans true))
      ({ q with shadowPopIdx := (stale + 1) % cap }.goto t .idle) := by
  have hu : Unwritten h (h.record (.popRelease t ans true)) q
      ({ q with shadowPopIdx := (stale + 1) % cap }.goto t .idle) t :=
    unwritten_goto List.prefix_rfl (List.Subset.refl _) (fun _ _ => rfl) (fun _ _ => rfl)
      (fun _ => rfl) rfl rfl
  have hticket := hc.popTicket_eq hpc hst
  have hans := hd.thread t
  rw [hpc, ThreadDelivery, hticket] at hans
  constructor
  · exact hd.published
  · intro k i v hk
    rcases getElem?_concat_cases hk with hk | ⟨rfl, he⟩
    · exact hd.returned k i v hk
    · obtain ⟨rfl, rfl⟩ := Prod.mk.inj he
      exact ⟨hticket, hans.1⟩
  · intro k hk hk'
    refine hu.filled (hd.filled k ?_ hk')
    simp only [History.record, List.length_append] at hk
    omega
  · exact hu.thread hd.thread (by simp [ThreadDelivery])
  · exact hd.read
  · intro k hk
    have hk₁ : k < h.returned.length + 1 := by simpa [History.record] using hk
    rcases Nat.lt_succ_iff_lt_or_eq.mp hk₁ with
      hlt | rfl
    · exact hd.completed k hlt
    · exact ⟨ans, hans.2⟩
  · exact hd.writer
  · exact hd.rule

theorem Delivery.stored (hd : Delivery cap h q) (hc : Counters cap h q) {val : α} {cur : ℕ}
    (hpc : q.pc t = .store val cur) :
    Delivery cap (h.record (.store t cur))
      ({ q with data := Function.update q.data cur val }.goto t (.pushRelease cur)) := by
  have hord := hc.ord
  have hth := hc.thread t
  rw [hpc] at hth
  have hval := hd.thread t
  rw [hpc] at hval
  have hkept : ∀ k, h.returned.length ≤ k → k < h.pushed.length → k ≠ h.pushTicket t →
      Filled cap h q k → Filled cap (h.record (.store t cur))
        ({ q with data := Function.update q.data cur val }.goto t (.pushRelease cur)) k := by
    intro k hk hk' hne hf
    have hslot := hc.slot_ne hpc hk hk' hne
    refine ⟨?_, ?_⟩
    · simpa [History.record, Function.update_of_ne hslot] using hf.1
    · simpa [History.record, hslot.symm] using hf.2
  constructor
  · exact hd.published
  · exact hd.returned
  · intro k hk hk'
    exact hkept k hk (hk'.trans_le hord.2.2.1) (ne_of_lt (hk'.trans_le hth.2.1))
      (hd.filled k hk hk')
  · intro u
    by_cases hut : u = t
    · subst hut
      rw [goto_pc_self, ThreadDelivery, Filled]
      simp [History.record, ← hth.1, hval.1]
    · have hdu := hd.thread u
      rw [goto_pc_ne hut]
      cases hpcu : q.pc u with
      | store val' cur' =>
        rw [hpcu] at hdu
        refine ⟨hdu.1, ?_⟩
        have hne := hc.pushTicket_ne t u (Ne.symm hut) (by rw [hpc]; trivial)
          (by rw [hpcu]; trivial)
        simp only [History.record, lastWriter_concat_write]
        split_ifs
        · exact fun he => hne (Option.some_inj.mp he)
        · exact hdu.2
      | pushRelease cur' =>
        rw [hpcu] at hdu
        have hheld := hc.held_push (u := u) (by rw [hpcu]; trivial)
        have hpast : h.returned.length ≤ h.pushTicket u := by omega
        exact hkept _ hpast hheld.2 (hc.pushTicket_ne u t hut (by rw [hpcu]; trivial)
          (by rw [hpc]; trivial)) hdu
      | popRelease ans cur' =>
        rw [hpcu] at hdu
        exact ⟨hdu.1, List.mem_append_left _ hdu.2⟩
      | _ => trivial
  · intro slot k v hm
    rcases List.mem_append.mp hm with hm | hm
    · exact hd.read slot k v hm
    · simp at hm
  · intro k hk
    exact (hd.completed k hk).imp fun v hv => List.mem_append_left _ hv
  · intro slot k hw
    simp only [History.record, lastWriter_concat_write] at hw
    split_ifs at hw with hslot
    · obtain rfl := Option.some_inj.mp hw
      exact ⟨hth.2.2, by rw [← hslot, hth.1]⟩
    · exact hd.writer slot k hw
  · apply logged_concat hd.rule
    intro k hk
    obtain ⟨hlt, hslot⟩ := hd.writer cur k hk
    have hne : k ≠ h.pushTicket t := by
      intro he
      subst he
      exact hval.2 (hth.1 ▸ hk)
    have hdone : k < h.returned.length := by
      by_contra hge
      exact hc.slot_ne hpc (by omega) hlt hne hslot
    exact hslot ▸ hd.completed k hdone

theorem Delivery.step (hd : Delivery cap h q) (hc : Counters cap h q) (hs : Step cap q e q') :
    Delivery cap (h.record e) q' := by
  cases hs with
  | pushLoad val hpc =>
    exact hd.of_goto ⟨rfl, rfl⟩ ⟨rfl, rfl, rfl, rfl⟩ (fun _ _ => rfl) (fun _ _ => rfl) trivial
  | pushChecked hpc hfree =>
    exact hd.of_goto ⟨rfl, rfl⟩ ⟨rfl, rfl, rfl, rfl⟩ (fun _ _ => rfl) (fun _ _ => rfl) trivial
  | pushRefused hpc hfull =>
    exact hd.of_goto ⟨rfl, rfl⟩ ⟨rfl, rfl, rfl, rfl⟩ (fun _ _ => rfl) (fun _ _ => rfl) trivial
  | pushClaimed hpc hcur => exact hd.claimed _ _
  | pushRetried hpc hcur =>
    exact hd.of_goto ⟨rfl, rfl⟩ ⟨rfl, rfl, rfl, rfl⟩ (fun _ _ => rfl) (fun _ _ => rfl) trivial
  | stored hpc => exact hd.stored hc hpc
  | pushReleased hpc hst => exact hd.released hc hpc hst
  | pushWaited => exact hd
  | popLoad hpc =>
    exact hd.of_goto ⟨rfl, rfl⟩ ⟨rfl, rfl, rfl, rfl⟩ (fun _ _ => rfl) (fun _ _ => rfl) trivial
  | popChecked hpc hsome =>
    exact hd.of_goto ⟨rfl, rfl⟩ ⟨rfl, rfl, rfl, rfl⟩ (fun _ _ => rfl) (fun _ _ => rfl) trivial
  | popRefused hpc hnone =>
    exact hd.of_goto ⟨rfl, rfl⟩ ⟨rfl, rfl, rfl, rfl⟩ (fun _ _ => rfl) (fun _ _ => rfl) trivial
  | popClaimed hpc hcur =>
    exact hd.of_goto ⟨rfl, rfl⟩ ⟨rfl, rfl, rfl, rfl⟩ (fun _ _ => rfl)
      (fun u hu => Function.update_of_ne hu ..) trivial
  | popRetried hpc hcur =>
    exact hd.of_goto ⟨rfl, rfl⟩ ⟨rfl, rfl, rfl, rfl⟩ (fun _ _ => rfl) (fun _ _ => rfl) trivial
  | read hpc => exact hd.readOut hc hpc
  | popReleased hpc hst => exact hd.returnedTo hc hpc hst
  | popWaited => exact hd

theorem run_delivery (hcap : 1 ≤ cap) (hr : (system cap).Run noWrap tr q) :
    Delivery cap (hist tr) q := by
  refine System.run_invariant (P := fun tr q => Delivery cap (hist tr) q) ?_ ?_ hr
  · intro q hq
    obtain ⟨data, rfl⟩ := hq
    exact .init data
  · intro tr q e q' hr hd _ hs
    rw [hist_concat]
    exact hd.step (run_counters hcap hr) (step_cases hs)

/-- While no exchange succeeds on a stale index, the pop with ticket `k` reads and returns the
value pushed under `k`, pushes are published and pops completed in ticket order, and the slots
are accessed by the rule. No such run gets to an undefined step if and only if the capacity is
an `int`. -/
theorem delivery_fifo [Nonempty τ] [Nonempty α] (hcap : 1 ≤ cap) :
    (∀ (tr : List (Event τ α)) (q : Queue τ α), (system cap).Run noWrap tr q →
      (∀ slot k v, Access.read slot k v ∈ (hist tr).accesses → (hist tr).pushed[k]? = some v) ∧
        (∀ (k i : ℕ) (v : α), (hist tr).returned[k]? = some (i, v) →
          i = k ∧ (hist tr).pushed[k]? = some v) ∧
        (∀ k i : ℕ, (hist tr).published[k]? = some i → i = k) ∧
        Logged SlotRule (hist tr).accesses ∧ Defined cap q) ↔ cap < 2 ^ 31 := by
  constructor
  · intro hall
    by_contra hbig
    obtain ⟨t⟩ := ‹Nonempty τ›
    obtain ⟨val⟩ := ‹Nonempty α›
    obtain ⟨tr, q, hr, hundefined⟩ := exists_undefined (not_lt.mp hbig) t val
    obtain ⟨-, -, -, -, hdefined⟩ := hall tr q hr
    exact hundefined hdefined
  · intro hint tr q hr
    have hd := run_delivery hcap hr
    exact ⟨hd.read, hd.returned, hd.published, hd.rule, (run_inRing hcap hr).defined hint⟩

/-- With `2 ^ 31` slots of a 64-bit `QueueCapacity`. -/
theorem delivery_fifo_fails :
    ¬ ∀ (tr : List (Event Unit ℕ)) (q : Queue Unit ℕ), (system (2 ^ 31)).Run noWrap tr q →
      (∀ slot k v, Access.read slot k v ∈ (hist tr).accesses → (hist tr).pushed[k]? = some v) ∧
        (∀ (k i : ℕ) (v : ℕ), (hist tr).returned[k]? = some (i, v) →
          i = k ∧ (hist tr).pushed[k]? = some v) ∧
        (∀ k i : ℕ, (hist tr).published[k]? = some i → i = k) ∧
        Logged SlotRule (hist tr).accesses ∧ Defined (2 ^ 31) q := by
  intro hall
  obtain ⟨tr, q, hr, hundefined⟩ := exists_undefined (τ := Unit) le_rfl () 0
  obtain ⟨-, -, -, -, hdefined⟩ := hall tr q hr
  exact hundefined hdefined

theorem delivery_fifo_sample : ∃ tr q, (system 3 : System (Queue (Fin 3) ℕ) _).Run noWrap tr q ∧
    (hist tr).returned = [(0, 5)] ∧ (hist tr).pushed[0]? = some 5 := by
  have hr : ∃ q, (system 3 : System (Queue (Fin 3) ℕ) _).Run noWrap
      [.pushLoad 0 5, .pushLoad 1 6, .canPush 1 true, .canPush 0 true, .pushExchange 0 5 true,
        .pushExchange 1 6 false, .canPush 1 true, .pushExchange 1 6 true, .store 1 1,
        .pushRelease 1 false, .store 0 0, .pushRelease 0 true, .pushRelease 1 true,
        .popLoad 2, .canPop 2 true, .popExchange 2 true, .read 2 0 5, .popRelease 2 5 true] q :=
    ⟨_, System.run_of_exec exec_step ⟨fun _ => 0, rfl⟩ rfl⟩
  obtain ⟨q, hr⟩ := hr
  obtain ⟨-, hreturned, -⟩ := (delivery_fifo (by decide)).mpr (by decide) _ q hr
  exact ⟨_, q, hr, rfl, (hreturned 0 0 5 rfl).2⟩

end step

end ModCpp.LocklessQueue
