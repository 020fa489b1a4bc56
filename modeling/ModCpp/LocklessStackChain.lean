import ModCpp.LocklessStack

/-!
# The chain behind the lockless stack

While no exchange of a pop meets a node deleted since `head` was read, the chain from `head`
is the list of pushed nodes that no pop has removed. The nodes a thread holds outside the
chain, before it pushes them or after it popped them, are its own.
-/

namespace ModCpp.LocklessStack
variable {τ κ α : Type*} {s s' : Stack τ κ α} {h h' : History τ κ α} {t u : τ} {p : Pc κ α}
  {a : κ}

def Pc.pushing : Pc κ α → Option κ
  | .pushLoad _ newNode => some newNode
  | .pushLink _ newNode _ => some newNode
  | .pushExchange _ newNode _ => some newNode
  | _ => none

def Pc.removing : Pc κ α → Option κ
  | .popRead curHead => some curHead
  | .popDelete curHead _ => some curHead
  | _ => none

def Pc.Holds (p : Pc κ α) (a : κ) : Prop := p.pushing = some a ∨ p.removing = some a

def Published (s : Stack τ κ α) (a : κ) : Prop :=
  s.mem a ≠ none ∧ ∀ u, (s.pc u).pushing ≠ some a

/-- What the locals of thread `t` at `p` say about the nodes. -/
def ThreadSound (h : History τ κ α) (s : Stack τ κ α) (t : τ) : Pc κ α → Prop
  | .pushLoad data newNode => s.dataAt newNode = some data
  | .pushLink data newNode _ => s.dataAt newNode = some data
  | .pushExchange data newNode curHead => s.mem newNode = some ⟨curHead, data⟩
  | .popTest (some curHead) => curHead ∉ h.freed t → Published s curHead
  | .popExchange curHead prev =>
      curHead ∉ h.freed t → Published s curHead ∧ s.prevOf curHead = prev
  | .popRead curHead =>
      ∃ data, s.dataAt curHead = some data ∧ (lifo h.exchanges).2[h.rank t]? = some (some data)
  | .popDelete _ ans => (lifo h.exchanges).2[h.rank t]? = some (some ans)
  | _ => True

structure Sound [DecidableEq κ] (h : History τ κ α) (s : Stack τ κ α) : Prop where
  chain : Linked s.prevOf s.head (pushedNodes h.exchanges)
  live : ∀ a ∈ pushedNodes h.exchanges, s.mem a ≠ none
  held : ∀ t a, (s.pc t).Holds a → s.mem a ≠ none ∧ a ∉ pushedNodes h.exchanges
  held_unique : ∀ t u a, (s.pc t).Holds a → (s.pc u).Holds a → t = u
  thread : ∀ t, ThreadSound h s t (s.pc t)
  values : (pushedNodes h.exchanges).map s.dataAt = (lifo h.exchanges).1.map some
  returned : ∀ r ∈ h.returned, (lifo h.exchanges).2[r.1]? = some (some r.2)

/-- What a step of `t` leaves of the view of another thread. -/
structure Kept (h h' : History τ κ α) (s s' : Stack τ κ α) (t : τ) : Prop where
  pc : ∀ u, u ≠ t → s'.pc u = s.pc u
  rank : ∀ u, u ≠ t → h'.rank u = h.rank u
  freed : ∀ u, u ≠ t → ∀ a ∈ h.freed u, a ∈ h'.freed u
  outs : (lifo h.exchanges).2 <+: (lifo h'.exchanges).2
  held : ∀ u, u ≠ t → ∀ a, (s.pc u).Holds a → s'.mem a = s.mem a
  published : ∀ u, u ≠ t → ∀ a, a ∉ h'.freed u → Published s a →
    Published s' a ∧ s'.mem a = s.mem a

theorem dataAt_congr (hm : s'.mem a = s.mem a) : s'.dataAt a = s.dataAt a := by
  rw [Stack.dataAt, hm, Stack.dataAt]

theorem prevOf_congr (hm : s'.mem a = s.mem a) : s'.prevOf a = s.prevOf a := by
  rw [Stack.prevOf, hm, Stack.prevOf]

theorem Kept.thread (hk : Kept h h' s s' t) (hu : u ≠ t) (hs : ThreadSound h s u (s.pc u)) :
    ThreadSound h' s' u (s'.pc u) := by
  have hheld := hk.held u hu
  have hpub := hk.published u hu
  have hfreed := hk.freed u hu
  rw [hk.pc u hu]
  cases hpc : s.pc u with
  | idle => trivial
  | pushLoad data newNode =>
    rw [hpc] at hs hheld
    rw [ThreadSound, dataAt_congr (hheld newNode (.inl rfl))]
    exact hs
  | pushLink data newNode curHead =>
    rw [hpc] at hs hheld
    rw [ThreadSound, dataAt_congr (hheld newNode (.inl rfl))]
    exact hs
  | pushExchange data newNode curHead =>
    rw [hpc] at hs hheld
    rw [ThreadSound, hheld newNode (.inl rfl)]
    exact hs
  | popTest curHead =>
    rw [hpc] at hs
    cases curHead with
    | none => trivial
    | some curHead =>
      intro hf
      exact (hpub curHead hf (hs fun hm => hf (hfreed _ hm))).1
  | popExchange curHead prev =>
    rw [hpc] at hs
    intro hf
    obtain ⟨hp, hprev⟩ := hs fun hm => hf (hfreed _ hm)
    obtain ⟨hp', hm⟩ := hpub curHead hf hp
    exact ⟨hp', prevOf_congr hm ▸ hprev⟩
  | popRead curHead =>
    rw [hpc] at hs hheld
    obtain ⟨data, hdata, hout⟩ := hs
    refine ⟨data, ?_, ?_⟩
    · rw [dataAt_congr (hheld curHead (.inr rfl)), hdata]
    · rw [hk.rank u hu]
      exact getElem?_of_prefix hk.outs hout
  | popDelete curHead ans =>
    rw [hpc] at hs
    rw [ThreadSound, hk.rank u hu]
    exact getElem?_of_prefix hk.outs hs

theorem Kept.threads (hk : Kept h h' s s' t) (hs : ∀ u, ThreadSound h s u (s.pc u))
    (ht : ThreadSound h' s' t (s'.pc t)) (u : τ) : ThreadSound h' s' u (s'.pc u) := by
  by_cases hu : u = t
  · exact hu ▸ ht
  · exact hk.thread hu (hs u)

theorem held_unique_of (hh : ∀ t u a, (s.pc t).Holds a → (s.pc u).Holds a → t = u)
    (hpc : ∀ u, u ≠ t → s'.pc u = s.pc u)
    (ht : ∀ u a, u ≠ t → (s'.pc t).Holds a → ¬ (s.pc u).Holds a) :
    ∀ u v a, (s'.pc u).Holds a → (s'.pc v).Holds a → u = v := by
  intro u v a hu hv
  by_cases hut : u = t
  · by_cases hvt : v = t
    · rw [hut, hvt]
    · rw [hpc v hvt] at hv
      exact absurd hv (ht v a hvt (hut ▸ hu))
  · rw [hpc u hut] at hu
    by_cases hvt : v = t
    · exact absurd hu (ht u a hut (hvt ▸ hv))
    · rw [hpc v hvt] at hv
      exact hh u v a hu hv

theorem Sound.nodup [DecidableEq κ] (hs : Sound h s) : (pushedNodes h.exchanges).Nodup :=
  hs.chain.nodup

theorem Sound.of_frame [DecidableEq κ] (hs : Sound h s) (hhead : s'.head = s.head)
    (hex : h'.exchanges = h.exchanges)
    (hmem : ∀ a ∈ pushedNodes h.exchanges, s'.mem a = s.mem a)
    (hheld : ∀ u a, (s'.pc u).Holds a → s'.mem a ≠ none ∧ a ∉ pushedNodes h.exchanges)
    (hunique : ∀ u v a, (s'.pc u).Holds a → (s'.pc v).Holds a → u = v)
    (hthread : ∀ u, ThreadSound h' s' u (s'.pc u))
    (hret : ∀ r ∈ h'.returned, (lifo h.exchanges).2[r.1]? = some (some r.2)) : Sound h' s' where
  chain := by
    rw [hex, hhead]
    exact hs.chain.congr fun a ha => prevOf_congr (hmem a ha)
  live a ha := by
    rw [hex] at ha
    rw [hmem a ha]
    exact hs.live a ha
  held := hex ▸ hheld
  held_unique := hunique
  thread := hthread
  values := by
    rw [hex, ← hs.values]
    exact List.map_congr_left fun a ha => dataAt_congr (hmem a ha)
  returned := hex ▸ hret

theorem Sound.held_ne [DecidableEq κ] {b : κ} (hs : Sound h s) (ht : (s.pc t).Holds b)
    (hut : u ≠ t) (hu : (s.pc u).Holds a) : a ≠ b :=
  fun he => hut (hs.held_unique u t a hu (he ▸ ht))

theorem Sound.init [DecidableEq κ] :
    Sound (.empty : History τ κ α) ⟨none, fun _ => none, fun _ => .idle⟩ := by
  constructor <;> simp [History.empty, pushedNodes, lifo, Pc.Holds, Pc.pushing, Pc.removing,
    ThreadSound]

theorem Sound.published_head [DecidableEq κ] (hs : Sound h s) (ha : s.head = some a) :
    Published s a := by
  have hchain := hs.chain
  rw [ha] at hchain
  obtain ⟨rest, hnodes, _⟩ := hchain.exists_cons
  have hmem : a ∈ pushedNodes h.exchanges := hnodes ▸ List.mem_cons_self
  exact ⟨hs.live a hmem, fun u hu => (hs.held u a (.inl hu)).2 hmem⟩

@[simp] theorem write_mem_self [DecidableEq κ] (n : Option (Node κ α)) :
    (s.write a n).mem a = n := Function.update_self ..
theorem write_mem_ne [DecidableEq κ] {b : κ} {n : Option (Node κ α)} (ha : a ≠ b) :
    (s.write b n).mem a = s.mem a := Function.update_of_ne ha ..

section step
variable [DecidableEq τ]

@[simp] theorem goto_head : (s.goto t p).head = s.head := rfl
@[simp] theorem goto_mem : (s.goto t p).mem = s.mem := rfl
@[simp] theorem goto_pc_self : (s.goto t p).pc t = p := Function.update_self ..
theorem goto_pc_ne (hu : u ≠ t) : (s.goto t p).pc u = s.pc u := Function.update_of_ne hu ..

theorem Published.of_step (hp : Published s a) (hpc : ∀ u, u ≠ t → s'.pc u = s.pc u)
    (hmem : s'.mem a = s.mem a) (hpush : (s'.pc t).pushing ≠ some a) :
    Published s' a ∧ s'.mem a = s.mem a := by
  refine ⟨⟨hmem ▸ hp.1, fun u => ?_⟩, hmem⟩
  by_cases hu : u = t
  · exact hu ▸ hpush
  · rw [hpc u hu]
    exact hp.2 u

variable [DecidableEq κ]

theorem Sound.goto (hs : Sound h s) (hex : h'.exchanges = h.exchanges)
    (hret : h'.returned = h.returned) (hrank : ∀ u, u ≠ t → h'.rank u = h.rank u)
    (hfreed : ∀ u, u ≠ t → h'.freed u = h.freed u)
    (hpush : ∀ a, p.pushing = some a → (s.pc t).pushing = some a)
    (hremove : ∀ a, p.removing = some a → (s.pc t).removing = some a)
    (ht : ThreadSound h' (s.goto t p) t p) : Sound h' (s.goto t p) := by
  have hholds : ∀ a, p.Holds a → (s.pc t).Holds a := fun a => Or.imp (hpush a) (hremove a)
  have hkept : Kept h h' s (s.goto t p) t := by
    constructor
    · exact fun u hu => goto_pc_ne hu
    · exact hrank
    · exact fun u hu a ha => (hfreed u hu).symm ▸ ha
    · rw [hex]
    · exact fun _ _ _ _ => rfl
    · intro u hu a _ hp
      refine hp.of_step (t := t) (fun v hv => goto_pc_ne hv) rfl ?_
      rw [goto_pc_self]
      exact fun he => hp.2 t (hpush a he)
  refine hs.of_frame rfl hex (fun _ _ => rfl) ?_ ?_ ?_ ?_
  · intro u a hu
    by_cases hut : u = t
    · subst hut
      rw [goto_pc_self] at hu
      exact hs.held u a (hholds a hu)
    · rw [goto_pc_ne hut] at hu
      exact hs.held u a hu
  · apply held_unique_of (t := t) hs.held_unique (fun u hu => goto_pc_ne hu)
    intro u a hu hta hua
    rw [goto_pc_self] at hta
    exact hu (hs.held_unique u t a hua (hholds a hta))
  · exact hkept.threads hs.thread (by rwa [goto_pc_self])
  · exact hret ▸ hs.returned

theorem Sound.pushNew (hs : Sound h s) (data : α) {newNode : κ} (hmem : s.mem newNode = none) :
    Sound (h.record (.pushNew t data newNode))
      ((s.write newNode (some ⟨none, data⟩)).goto t (.pushLoad data newNode)) := by
  have hne : ∀ a, s.mem a ≠ none → a ≠ newNode := fun a ha he => ha (he ▸ hmem)
  have hat : ∀ a, s.mem a ≠ none →
      (s.write newNode (some ⟨none, data⟩)).mem a = s.mem a :=
    fun a ha => write_mem_ne (hne a ha)
  have hkept : Kept h (h.record (.pushNew t data newNode)) s
      ((s.write newNode (some ⟨none, data⟩)).goto t (.pushLoad data newNode)) t := by
    constructor
    · exact fun u hu => goto_pc_ne hu
    · exact fun _ _ => rfl
    · exact fun _ _ _ ha => ha
    · exact List.prefix_rfl
    · exact fun u _ a ha => hat a (hs.held u a ha).1
    · intro u _ a _ hp
      refine hp.of_step (t := t) (fun v hv => goto_pc_ne hv) (hat a hp.1) ?_
      rw [goto_pc_self]
      exact fun he => hne a hp.1 (Option.some_inj.mp he).symm
  have hnew : ∀ a, ((s.write newNode (some ⟨none, data⟩)).goto t (.pushLoad data newNode)).pc t
      |>.Holds a → a = newNode := by
    intro a ha
    rw [goto_pc_self] at ha
    simpa [Pc.Holds, Pc.pushing, Pc.removing, eq_comm] using ha
  refine hs.of_frame rfl rfl ?_ ?_ ?_ ?_ hs.returned
  · exact fun a ha => hat a (hs.live a ha)
  · intro u a hu
    by_cases hut : u = t
    · obtain rfl := hnew a (hut ▸ hu)
      exact ⟨by simp, fun ha => hs.live a ha hmem⟩
    · rw [goto_pc_ne hut] at hu
      rw [goto_mem, hat a (hs.held u a hu).1]
      exact hs.held u a hu
  · apply held_unique_of (t := t) hs.held_unique (fun u hu => goto_pc_ne hu)
    intro u a _ hta hua
    exact hne a (hs.held u a hua).1 (hnew a hta)
  · apply hkept.threads hs.thread
    simp [ThreadSound, Stack.dataAt]

theorem Sound.pushLink (hs : Sound h s) {data : α} {newNode : κ} {curHead : Option κ}
    (hpc : s.pc t = .pushLink data newNode curHead) :
    Sound (h.record (.pushLink t))
      ((s.write newNode ((s.mem newNode).map fun n => { n with prev := curHead })).goto t
        (.pushExchange data newNode curHead)) := by
  have hown : (s.pc t).Holds newNode := by rw [hpc]; exact .inl rfl
  have hdata := hs.thread t
  rw [hpc] at hdata
  obtain ⟨n, hn, rfl⟩ := Option.map_eq_some_iff.mp hdata
  rw [hn, Option.map_some]
  have hkept : Kept h (h.record (.pushLink t)) s
      ((s.write newNode (some ⟨curHead, n.data⟩)).goto t
        (.pushExchange n.data newNode curHead)) t := by
    constructor
    · exact fun u hu => goto_pc_ne hu
    · exact fun _ _ => rfl
    · exact fun _ _ _ ha => ha
    · exact List.prefix_rfl
    · exact fun u hu a ha => write_mem_ne (hs.held_ne hown hu ha)
    · intro u _ a _ hp
      have hne : a ≠ newNode := by
        intro he
        subst he
        exact hp.2 t (by rw [hpc]; rfl)
      refine hp.of_step (t := t) (fun v hv => goto_pc_ne hv) (write_mem_ne hne) ?_
      rw [goto_pc_self]
      exact fun he => hne (Option.some_inj.mp he).symm
  have hsame : ∀ a, (Pc.pushExchange n.data newNode curHead).Holds a → a = newNode := by
    intro a ha
    simpa [Pc.Holds, Pc.pushing, Pc.removing, eq_comm] using ha
  have hoff := (hs.held t newNode hown).2
  refine hs.of_frame rfl rfl ?_ ?_ ?_ ?_ hs.returned
  · exact fun a ha => write_mem_ne fun he => hoff (he ▸ ha)
  · intro u a hu
    by_cases hut : u = t
    · subst hut
      rw [goto_pc_self] at hu
      obtain rfl := hsame a hu
      exact ⟨by simp, hoff⟩
    · rw [goto_pc_ne hut] at hu
      rw [goto_mem, write_mem_ne (hs.held_ne hown hut hu)]
      exact hs.held u a hu
  · apply held_unique_of (t := t) hs.held_unique (fun u hu => goto_pc_ne hu)
    intro u a hut hta hua
    rw [goto_pc_self] at hta
    exact hs.held_ne hown hut hua (hsame a hta)
  · apply hkept.threads hs.thread
    simp [ThreadSound]

theorem Sound.popDelete (hs : Sound h s) {curHead : κ} {ans : α}
    (hpc : s.pc t = .popDelete curHead ans) :
    Sound (h.record (.popDelete t curHead ans)) ((s.write curHead none).goto t .idle) := by
  have hown : (s.pc t).Holds curHead := by rw [hpc]; exact .inr rfl
  have hans := hs.thread t
  rw [hpc] at hans
  have hkept : Kept h (h.record (.popDelete t curHead ans)) s
      ((s.write curHead none).goto t .idle) t := by
    constructor
    · exact fun u hu => goto_pc_ne hu
    · exact fun _ _ => rfl
    · exact fun _ _ _ ha => List.mem_cons_of_mem _ ha
    · exact List.prefix_rfl
    · exact fun u hu a ha => write_mem_ne (hs.held_ne hown hu ha)
    · intro u _ a ha hp
      have hne : a ≠ curHead := fun he => ha (he ▸ List.mem_cons_self)
      exact hp.of_step (t := t) (fun v hv => goto_pc_ne hv) (write_mem_ne hne)
        (by simp [Pc.pushing])
  have hoff := (hs.held t curHead hown).2
  refine hs.of_frame rfl rfl ?_ ?_ ?_ ?_ ?_
  · exact fun a ha => write_mem_ne fun he => hoff (he ▸ ha)
  · intro u a hu
    by_cases hut : u = t
    · subst hut
      simp [Pc.Holds, Pc.pushing, Pc.removing] at hu
    · rw [goto_pc_ne hut] at hu
      rw [goto_mem, write_mem_ne (hs.held_ne hown hut hu)]
      exact hs.held u a hu
  · apply held_unique_of (t := t) hs.held_unique (fun u hu => goto_pc_ne hu)
    intro u a _ hta
    simp [Pc.Holds, Pc.pushing, Pc.removing] at hta
  · exact hkept.threads hs.thread (by simp [ThreadSound])
  · intro r hr
    rcases List.mem_append.mp hr with hr | hr
    · exact hs.returned r hr
    · rw [List.mem_singleton.mp hr]
      exact hans

theorem Sound.pushSwapped (hs : Sound h s) {data : α} {newNode : κ}
    (hpc : s.pc t = .pushExchange data newNode s.head) :
    Sound (h.record (.pushExchange t data newNode true))
      ({ s with head := some newNode }.goto t .idle) := by
  have hown : (s.pc t).Holds newNode := by rw [hpc]; exact .inl rfl
  have hnode := hs.thread t
  rw [hpc] at hnode
  have hoff := hs.held t newNode hown
  have hkept : Kept h (h.record (.pushExchange t data newNode true)) s
      ({ s with head := some newNode }.goto t .idle) t := by
    constructor
    · exact fun u hu => goto_pc_ne hu
    · exact fun _ _ => rfl
    · exact fun _ _ _ ha => ha
    · simp [History.record, lifo_push]
    · exact fun _ _ _ _ => rfl
    · intro u _ a _ hp
      exact hp.of_step (t := t) (fun v hv => goto_pc_ne hv) rfl (by simp [Pc.pushing])
  constructor
  · simp only [History.record, pushedNodes_push, linked_cons, goto_head, true_and]
    have hprev : ({ s with head := some newNode }.goto t .idle).prevOf newNode = s.head := by
      rw [Stack.prevOf, goto_mem]
      exact congrArg (Option.bind · Node.prev) hnode
    rw [hprev]
    exact hs.chain.congr fun _ _ => rfl
  · simp only [History.record, pushedNodes_push, List.forall_mem_cons]
    exact ⟨hoff.1, hs.live⟩
  · intro u a hu
    by_cases hut : u = t
    · subst hut
      simp [Pc.Holds, Pc.pushing, Pc.removing] at hu
    · rw [goto_pc_ne hut] at hu
      simp only [History.record, pushedNodes_push, List.mem_cons, not_or]
      exact ⟨(hs.held u a hu).1, hs.held_ne hown hut hu, (hs.held u a hu).2⟩
  · apply held_unique_of (t := t) hs.held_unique (fun u hu => goto_pc_ne hu)
    intro u a _ hta
    simp [Pc.Holds, Pc.pushing, Pc.removing] at hta
  · exact hkept.threads hs.thread (by simp [ThreadSound])
  · simp only [History.record, pushedNodes_push, lifo_push, List.map_cons]
    have hdata : ({ s with head := some newNode }.goto t .idle).dataAt newNode = some data := by
      rw [Stack.dataAt, goto_mem]
      exact congrArg (Option.map Node.data) hnode
    rw [hdata, ← hs.values]
    rfl
  · intro r hr
    rw [History.record, lifo_push]
    exact hs.returned r hr

theorem Sound.popSwapped (hs : Sound h s) {curHead : κ} {prev : Option κ}
    (hpc : s.pc t = .popExchange curHead prev) (hhead : s.head = some curHead)
    (haba : curHead ∉ h.freed t) :
    Sound (h.record (.popExchange t curHead true))
      ({ s with head := prev }.goto t (.popRead curHead)) := by
  have hread := hs.thread t
  rw [hpc] at hread
  obtain ⟨_, rfl⟩ := hread haba
  have hchain := hs.chain
  rw [hhead] at hchain
  obtain ⟨rest, hnodes, hrest⟩ := hchain.exists_cons
  have hnodup := hs.nodup
  rw [hnodes] at hnodup
  have hvalues := hs.values
  rw [hnodes, List.map_cons] at hvalues
  obtain ⟨data, stk, hstk, hdata, hvals⟩ := List.map_eq_cons_iff.mp hvalues.symm
  have hkept : Kept h (h.record (.popExchange t curHead true)) s
      ({ s with head := s.prevOf curHead }.goto t (.popRead curHead)) t := by
    constructor
    · exact fun u hu => goto_pc_ne hu
    · exact fun u hu => Function.update_of_ne hu ..
    · exact fun _ _ _ ha => ha
    · simp [History.record, lifo_pop]
    · exact fun _ _ _ _ => rfl
    · intro u _ a _ hp
      exact hp.of_step (t := t) (fun v hv => goto_pc_ne hv) rfl (by simp [Pc.pushing])
  have hsame : ∀ a, (Pc.popRead curHead : Pc κ α).Holds a → a = curHead := by
    intro a ha
    simpa [Pc.Holds, Pc.pushing, Pc.removing, eq_comm] using ha
  have hnodes' : pushedNodes (h.record (.popExchange t curHead true)).exchanges = rest := by
    simp [History.record, pushedNodes_pop, hnodes]
  constructor
  · rw [hnodes']
    exact hrest.congr fun _ _ => rfl
  · rw [hnodes']
    exact fun a ha => hs.live a (hnodes ▸ List.mem_cons_of_mem _ ha)
  · rw [hnodes']
    intro u a hu
    by_cases hut : u = t
    · subst hut
      rw [goto_pc_self] at hu
      obtain rfl := hsame a hu
      exact ⟨hs.live a (hnodes ▸ List.mem_cons_self), (List.nodup_cons.mp hnodup).1⟩
    · rw [goto_pc_ne hut] at hu
      obtain ⟨hlive, hoff⟩ := hs.held u a hu
      exact ⟨hlive, fun ha => hoff (hnodes ▸ List.mem_cons_of_mem _ ha)⟩
  · apply held_unique_of (t := t) hs.held_unique (fun u hu => goto_pc_ne hu)
    intro u a _ hta hua
    rw [goto_pc_self] at hta
    obtain rfl := hsame a hta
    exact (hs.held u a hua).2 (hnodes ▸ List.mem_cons_self)
  · apply hkept.threads hs.thread
    rw [goto_pc_self]
    refine ⟨data, hdata.symm, ?_⟩
    simp only [History.record, lifo_pop, Function.update_self, List.getElem?_concat_length]
    rw [hstk, List.head?_cons]
  · rw [hnodes', History.record, lifo_pop, hstk]
    exact hvals.symm
  · intro r hr
    rw [History.record, lifo_pop]
    exact getElem?_of_prefix (List.prefix_append _ _) (hs.returned r hr)

theorem Sound.popTest_head (hs : Sound h s) :
    ThreadSound h' (s.goto t (.popTest s.head)) t (.popTest s.head) := by
  cases hhead : s.head with
  | none => trivial
  | some a =>
    intro _
    exact ((hs.published_head hhead).of_step (t := t) (fun v hv => goto_pc_ne hv) rfl
      (by simp [Pc.pushing])).1

theorem Sound.step (hs : Sound h s) {e : Event τ κ α} (hok : h.AbaFree e) (hstep : Step s e s') :
    Sound (h.record e) s' := by
  cases hstep with
  | pushNew data hpc hmem => exact hs.pushNew data hmem
  | @pushLoad t data newNode hpc =>
    have ht := hs.thread t
    rw [hpc] at ht
    exact hs.goto rfl rfl (fun _ _ => rfl) (fun _ _ => rfl) (by simp [hpc, Pc.pushing])
      (by simp [Pc.removing]) ht
  | pushLink hpc => exact hs.pushLink hpc
  | @pushSwapped t data newNode curHead hpc hhead =>
    subst hhead
    exact hs.pushSwapped hpc
  | @pushRetried t data newNode curHead hpc =>
    have ht := hs.thread t
    rw [hpc] at ht
    exact hs.goto rfl rfl (fun _ _ => rfl) (fun _ _ => rfl) (by simp [hpc, Pc.pushing])
      (by simp [Pc.removing]) (congrArg (Option.map Node.data) ht)
  | popLoad hpc =>
    exact hs.goto rfl rfl (fun _ _ => rfl) (fun u hu => Function.update_of_ne hu ..)
      (by simp [Pc.pushing]) (by simp [Pc.removing]) hs.popTest_head
  | popEmpty hpc =>
    exact hs.goto rfl rfl (fun _ _ => rfl) (fun _ _ => rfl) (by simp [Pc.pushing])
      (by simp [Pc.removing]) trivial
  | @popPrev t curHead prev hpc hread =>
    have ht := hs.thread t
    rw [hpc] at ht
    refine hs.goto rfl rfl (fun _ _ => rfl) (fun _ _ => rfl) (by simp [Pc.pushing])
      (by simp [Pc.removing]) fun hf => ?_
    obtain ⟨n, hn⟩ := Option.ne_none_iff_exists'.mp (ht hf).1
    refine ⟨((ht hf).of_step (t := t) (fun v hv => goto_pc_ne hv) rfl (by simp [Pc.pushing])).1, ?_⟩
    rw [Stack.prevOf, goto_mem, hn]
    exact hread n hn
  | popSwapped hpc hhead => exact hs.popSwapped hpc hhead hok
  | popRetried hpc =>
    exact hs.goto rfl rfl (fun _ _ => rfl) (fun u hu => Function.update_of_ne hu ..)
      (by simp [Pc.pushing]) (by simp [Pc.removing]) hs.popTest_head
  | @popRead t curHead ans hpc hread =>
    have ht := hs.thread t
    rw [hpc] at ht
    obtain ⟨data, hdata, hout⟩ := ht
    obtain ⟨n, hn, rfl⟩ := Option.map_eq_some_iff.mp hdata
    refine hs.goto rfl rfl (fun _ _ => rfl) (fun _ _ => rfl) (by simp [Pc.pushing])
      (by simp [hpc, Pc.removing]) ?_
    rw [ThreadSound, ← hread n hn]
    exact hout
  | popDelete hpc => exact hs.popDelete hpc

theorem run_sound [DecidableEq α] {tr : List (Event τ κ α)} (hr : system.Run abaFree tr s) :
    Sound (hist tr) s := by
  refine System.run_invariant (P := fun tr s => Sound (hist tr) s) ?_ ?_ hr
  · intro s hs
    rw [show s = _ from hs]
    exact .init
  · intro tr s e s' _ hsound hok hs
    rw [hist_concat]
    exact hsound.step hok (step_cases hs)

end step

end ModCpp.LocklessStack
