import ModCpp.RDerived

/-!
# Who closes which descriptor

Every block is deleted once, whatever is moved. A moved-from object holds the number 0, and
its destructor closes that: the descriptors are closed once each exactly in the runs without
a move.
-/

namespace ModCpp.RDerived
variable {T : Type} {w w' : World T} {e : Event} {tr : List Event} {bs bs' : List ℕ} {b : ℕ}
  {fd : ℤ} {o rhs : RDerived} {objects : List RDerived} {i : ℕ}

section blocks

structure HoldsBlocks (w : World T) (bs : List ℕ) : Prop where
  owns : w.blockLog.Owns bs
  alive : ∀ b, w.heap b ≠ none ↔ b ∈ bs
  lt : ∀ b ∈ bs, b < w.fresh

theorem HoldsBlocks.perm (h : HoldsBlocks w bs) (hp : bs.Perm bs') : HoldsBlocks w bs' :=
  ⟨h.owns.perm hp, fun b => (h.alive b).trans hp.mem_iff, fun b hb => h.lt b (hp.mem_iff.mpr hb)⟩

theorem HoldsBlocks.alloc [Inhabited T] (h : HoldsBlocks w bs) :
    HoldsBlocks w.alloc (w.fresh :: bs) := by
  have hnew : w.fresh ∉ bs := fun hm => Nat.lt_irrefl _ (h.lt _ hm)
  refine ⟨h.owns.acquire hnew, ?_, ?_⟩
  · intro b
    by_cases hb : b = w.fresh
    · simp [World.alloc, hb]
    · simp [World.alloc, hb, h.alive]
  · intro b hb
    rcases List.mem_cons.mp hb with rfl | hb
    · exact Nat.lt_succ_self _
    · exact Nat.lt_succ_of_lt (h.lt b hb)

theorem HoldsBlocks.free (h : HoldsBlocks w (b :: bs)) : HoldsBlocks (w.free b) bs := by
  obtain ⟨hb, _⟩ := List.nodup_cons.mp h.owns.nodup
  refine ⟨h.owns.release, ?_, fun c hc => h.lt c (List.mem_cons_of_mem _ hc)⟩
  intro c
  by_cases hc : c = b
  · subst hc
    simp [World.free, hb]
  · simp only [World.free, Function.update_of_ne hc, h.alive, List.mem_cons, hc, false_or]

theorem HoldsBlocks.put {x : T} (h : HoldsBlocks w bs) (hb : b ∈ bs) :
    HoldsBlocks (w.put b x) bs := by
  refine ⟨h.owns, ?_, h.lt⟩
  intro c
  by_cases hc : c = b
  · subst hc
    simp [World.put, hb]
  · simp only [World.put, Function.update_of_ne hc, h.alive]

theorem HoldsBlocks.opened (h : HoldsBlocks w bs) : HoldsBlocks (w.opened fd) bs :=
  ⟨h.owns, h.alive, h.lt⟩

theorem HoldsBlocks.closed (h : HoldsBlocks w bs) : HoldsBlocks (w.closed fd) bs :=
  ⟨h.owns, h.alive, h.lt⟩

theorem exec_deleteBlock (h : HoldsBlocks w (b :: bs)) :
    Action.exec (deleteBlock (some b)) w = (.ok (), w.free b) := by
  have hb : w.heap b ≠ none := (h.alive b).mpr (List.mem_cons_self ..)
  rw [deleteBlock, Action.exec_get, Action.exec_ok (Action.exec_failIf hb)]
  rfl

theorem exec_memcpy {src : ℕ} {x : T} (hb : w.heap b ≠ none) (hsrc : w.heap src = some x) :
    Action.exec (memcpy b (some src)) w = (.ok (), w.put b x) := by
  rw [memcpy, Action.exec_get, Action.exec_ok (Action.exec_failIf hb), hsrc]
  rfl

theorem heap_of_mem (h : HoldsBlocks w bs) (hb : b ∈ bs) : ∃ x, w.heap b = some x :=
  Option.ne_none_iff_exists'.mp ((h.alive b).mpr hb)

theorem exec_delete_toList {p : Option ℕ} (h : HoldsBlocks w (p.toList ++ bs)) :
    ∃ w', Action.exec (deleteBlock p) w = (.ok (), w') ∧ HoldsBlocks w' bs ∧
      w'.objects = w.objects ∧ w'.socketLog = w.socketLog ∧ w'.openFds = w.openFds := by
  cases p with
  | none => exact ⟨w, rfl, h, rfl, rfl, rfl⟩
  | some b => exact ⟨w.free b, exec_deleteBlock h, h.free, rfl, rfl, rfl⟩

theorem exec_socket {α : Type} (f : ℤ → Action (World T) α) (hfd : fd ≠ -1) :
    Action.exec (socket fd >>= f) w = Action.exec (f fd) (w.opened fd) := by
  rw [Action.exec_bind, socket, if_neg hfd]
  rfl

theorem exec_socket_error {α : Type} (f : ℤ → Action (World T) α) :
    Action.exec (socket (-1) >>= f) w = Action.exec (f (-1)) w := by
  rw [Action.exec_bind, socket, if_pos rfl]
  rfl

variable [Inhabited T]

theorem exec_newBlock {α : Type} (f : ℕ → Action (World T) α) :
    Action.exec (newBlock >>= f) w = Action.exec (f w.fresh) w.alloc := rfl

/-- What comes after the base in both constructors: `fill` is the last step. -/
def complete (base : RBase) (fd : ℤ) (fill : ℕ → Action (World T) Unit) :
    Action (World T) RDerived :=
  Action.unwinding (baseDestroy base) do
    let derivedData ← newBlock
    let sockfd ← socket fd
    (if sockfd = -1 then do
      deleteBlock (some derivedData)
      throw (.exception "Error creating socket")
    else pure ())
    fill derivedData
    pure ⟨base, some derivedData, sockfd⟩

theorem copy_eq : copy (T := T) rhs fd = baseCopy rhs.toRBase >>= fun base =>
    complete base fd fun derivedData => memcpy derivedData rhs.derivedData := rfl

/-- A socket that cannot be had: the block and the base go again. -/
theorem exec_complete_error (fill : ℕ → Action (World T) Unit) (h : HoldsBlocks w (b :: bs)) :
    ∃ w', Action.exec (complete ⟨some b⟩ (-1) fill) w =
        (.error (.exception "Error creating socket"), w') ∧
      HoldsBlocks w' bs ∧ w'.objects = w.objects ∧ w'.socketLog = w.socketLog ∧
      w'.openFds = w.openFds := by
  have halloc := h.alloc
  refine ⟨(w.alloc.free w.fresh).free b, ?_, halloc.free.free, rfl, rfl, rfl⟩
  rw [complete, Action.exec_unwinding, exec_newBlock, exec_socket_error, if_pos rfl,
    Action.exec_bind, Action.exec_ok (exec_deleteBlock halloc)]
  exact Action.exec_ok (exec_deleteBlock halloc.free)

theorem exec_complete {fill : ℕ → Action (World T) Unit} {base : RBase} (hfd : fd ≠ -1)
    (hfill : Action.exec (fill w.fresh) (w.alloc.opened fd) = (.ok (), w')) :
    Action.exec (complete base fd fill) w = (.ok ⟨base, some w.fresh, fd⟩, w') := by
  refine Action.exec_unwinding_ok ?_
  rw [exec_newBlock, exec_socket _ hfd, if_neg hfd, Action.exec_ok (Action.exec_pure ()),
    Action.exec_ok hfill]
  rfl

theorem exec_complete_undefined (fill : ℕ → Action (World T) Unit) {why : String}
    (h : HoldsBlocks w (b :: bs)) (hfd : fd ≠ -1)
    (hfill : ∀ w : World T, Action.exec (fill w.fresh) (w.alloc.opened fd) =
      (.error (.undefined why), w.alloc.opened fd)) :
    ∃ w', Action.exec (complete ⟨some b⟩ fd fill) w = (.error (.undefined why), w') := by
  have hopened : HoldsBlocks (w.alloc.opened fd) (b :: w.fresh :: bs) :=
    h.alloc.opened.perm (.swap _ _ _)
  refine ⟨(w.alloc.opened fd).free b, ?_⟩
  rw [complete, Action.exec_unwinding, exec_newBlock, exec_socket _ hfd, if_neg hfd,
    Action.exec_ok (Action.exec_pure ()), Action.exec_error (hfill w)]
  exact Action.exec_ok (exec_deleteBlock hopened)

theorem exec_baseCopy {d : ℕ} {x : T} (h : HoldsBlocks w bs) (hd : w.heap d = some x) :
    Action.exec (baseCopy ⟨some d⟩) w = (.ok ⟨some w.fresh⟩, w.alloc.put w.fresh x) := by
  have hne : d ≠ w.fresh := Nat.ne_of_lt (h.lt d ((h.alive d).mp (by simp [hd])))
  have hd' : w.alloc.heap d = some x := (Function.update_of_ne hne _ _).trans hd
  have hnew : w.alloc.heap w.fresh ≠ none := by simp [World.alloc]
  rw [baseCopy, exec_newBlock, Action.exec_ok (exec_memcpy hnew hd')]
  rfl

end blocks

def blocks (o : RDerived) : List ℕ := o.data.toList ++ o.derivedData.toList

def blocksOf (objects : List RDerived) : List ℕ := objects.flatMap blocks

def Complete (o : RDerived) : Prop := o.data ≠ none ∧ o.derivedData ≠ none

structure Made (w : World T) (o : RDerived) (w' : World T) : Prop where
  complete : Complete o
  sockfd : o.sockfd ∉ w.openFds
  objects : w'.objects = w.objects ++ [o]
  socketLog : w'.socketLog = w.socketLog ++ [(o.sockfd, .acquire)]
  openFds : w'.openFds = insert o.sockfd w.openFds
  holds : HoldsBlocks w' (blocks o ++ blocksOf w.objects)

structure Thrown (w w' : World T) : Prop where
  objects : w'.objects = w.objects
  socketLog : w'.socketLog = w.socketLog
  openFds : w'.openFds = w.openFds
  holds : HoldsBlocks w' (blocksOf w.objects)

structure Destroyed (w : World T) (i : ℕ) (o : RDerived) (w' : World T) : Prop where
  objects : w'.objects = w.objects.eraseIdx i
  socketLog : w'.socketLog = w.socketLog ++ [(o.sockfd, .release)]
  openFds : w'.openFds = w.openFds.erase o.sockfd
  holds : HoldsBlocks w' (blocksOf (w.objects.eraseIdx i))

inductive Change (w : World T) : Event → World T → Prop
  | made {e : Event} {w' : World T} (o : RDerived) :
      isMove e = false → Made w o w' → Change w e w'
  | thrown {e : Event} {w' : World T} : isMove e = false → Thrown w w' → Change w e w'
  | moved {i : ℕ} (o : RDerived) : w.objects[i]? = some o →
      Change w (.move i) { w with objects := w.objects.set i ⟨⟨none⟩, none, 0⟩ ++ [o] }
  | destroyed {i : ℕ} {w' : World T} (o : RDerived) : w.objects[i]? = some o →
      Destroyed w i o w' → Change w (.destroy i) w'

theorem perm_eraseIdx (h : objects[i]? = some o) : objects.Perm (o :: objects.eraseIdx i) := by
  obtain ⟨hi, rfl⟩ := List.getElem?_eq_some_iff.mp h
  exact (List.getElem_cons_eraseIdx_perm hi).symm

theorem perm_set (h : objects[i]? = some o) :
    (objects.set i rhs).Perm (rhs :: objects.eraseIdx i) :=
  List.set_perm_cons_eraseIdx (List.getElem?_eq_some_iff.mp h).1 rhs

theorem blocksOf_perm (h : objects[i]? = some o) :
    (blocksOf objects).Perm (blocks o ++ blocksOf (objects.eraseIdx i)) :=
  (perm_eraseIdx h).flatMap_right _

theorem object_eq {x : RDerived} (h : object w i = .ok x) : w.objects[i]? = some x := by
  rw [object] at h
  split at h
  · rw [← Except.ok.inj h]
    assumption
  · cases h

section change
variable [Inhabited T]

theorem made_of_complete (fill : ℕ → Action (World T) Unit) (w₁ : World T)
    (hobjects : w₁.objects = w.objects) (hlog : w₁.socketLog = w.socketLog)
    (hopen : w₁.openFds = w.openFds) (hfd : fd ≠ -1) (hnew : fd ∉ w.openFds)
    (hfill : Action.exec (fill w₁.fresh) (w₁.alloc.opened fd) = (.ok (), w') ∧
      HoldsBlocks w' (w₁.fresh :: b :: blocksOf w.objects) ∧ w'.objects = w₁.objects ∧
      w'.socketLog = (w₁.opened fd).socketLog ∧ w'.openFds = (w₁.opened fd).openFds) :
    ∃ o w'', store (Action.exec (complete ⟨some b⟩ fd fill) w₁) = .ok w'' ∧ Made w o w'' := by
  obtain ⟨hexec, hholds, hobjects', hlog', hopen'⟩ := hfill
  refine ⟨⟨⟨some b⟩, some w₁.fresh, fd⟩,
    { w' with objects := w'.objects ++ [⟨⟨some b⟩, some w₁.fresh, fd⟩] }, ?_, ?_⟩
  · rw [exec_complete hfd hexec]
    rfl
  · refine ⟨⟨by simp, by simp⟩, hnew, ?_, ?_, ?_, ?_⟩
    · rw [hobjects', hobjects]
    · rw [hlog', World.opened, hlog]
    · rw [hopen', World.opened, hopen]
    · have hperm := hholds.perm (.swap b w₁.fresh _)
      exact ⟨hperm.owns, hperm.alive, hperm.lt⟩

theorem thrown_of_complete (fill : ℕ → Action (World T) Unit) {w₁ : World T}
    (h : HoldsBlocks w₁ (b :: blocksOf w.objects)) (hobjects : w₁.objects = w.objects)
    (hlog : w₁.socketLog = w.socketLog) (hopen : w₁.openFds = w.openFds) :
    ∃ w', store (Action.exec (complete ⟨some b⟩ (-1) fill) w₁) = .ok w' ∧ Thrown w w' := by
  obtain ⟨w', hexec, hholds, hobjects', hlog', hopen'⟩ := exec_complete_error fill h
  refine ⟨w', by rw [hexec]; rfl, hobjects'.trans hobjects, hlog'.trans hlog, hopen'.trans hopen,
    hholds⟩

theorem construct_change (h : HoldsBlocks w (blocksOf w.objects)) (hfd : SocketReturns w fd) :
    ∃ w', next w (.construct fd) = .ok w' ∧ Change w (.construct fd) w' := by
  have hbase : next w (.construct fd) =
      store (Action.exec (complete ⟨some w.fresh⟩ fd fun _ => pure ()) w.alloc) := rfl
  rcases hfd with rfl | ⟨hpos, hnew⟩
  · obtain ⟨w', hstore, hthrown⟩ := thrown_of_complete (fun _ => pure ()) h.alloc rfl rfl rfl
    exact ⟨w', hbase.trans hstore, .thrown rfl hthrown⟩
  · obtain ⟨o, w', hstore, hmade⟩ := made_of_complete (w := w) (fun _ => pure ())
      w.alloc rfl rfl rfl (show fd ≠ -1 by omega) hnew ⟨rfl, h.alloc.alloc.opened, rfl, rfl, rfl⟩
    exact ⟨w', hbase.trans hstore, .made o rfl hmade⟩

theorem copy_change (h : HoldsBlocks w (blocksOf w.objects)) (hi : w.objects[i]? = some rhs)
    (hfd : SocketReturns w fd) :
    (∃ w', next w (.copy i fd) = .ok w' ∧ Change w (.copy i fd) w') ∨
    ¬ Complete rhs ∧ ∃ f, next w (.copy i fd) = .error f := by
  have hnext : next w (.copy i fd) = store (Action.exec (copy rhs fd) w) := by
    rw [next, ok_bind (show object w i = .ok rhs by rw [object, hi])]
  have hin : ∀ b ∈ blocks rhs, b ∈ blocksOf w.objects := fun b hb =>
    List.mem_flatMap.mpr ⟨rhs, List.mem_of_getElem? hi, hb⟩
  obtain ⟨⟨data⟩, derivedData, sockfd⟩ := rhs
  rw [hnext, copy_eq]
  cases data with
  | none => exact .inr ⟨fun hc => hc.1 rfl, _, rfl⟩
  | some d =>
    obtain ⟨x, hx⟩ := heap_of_mem h (hin d (by simp [blocks]))
    rw [Action.exec_ok (exec_baseCopy h hx)]
    have hholds : HoldsBlocks (w.alloc.put w.fresh x) (w.fresh :: blocksOf w.objects) :=
      h.alloc.put (List.mem_cons_self ..)
    rcases hfd with rfl | ⟨hpos, hnew⟩
    · obtain ⟨w', hstore, hthrown⟩ := thrown_of_complete _ hholds rfl rfl rfl
      exact .inl ⟨w', hstore, .thrown rfl hthrown⟩
    · have hne : fd ≠ -1 := by omega
      cases derivedData with
      | none =>
        obtain ⟨w', hexec⟩ := exec_complete_undefined (fun b => memcpy b none) hholds hne
          fun _ => rfl
        exact .inr ⟨fun hc => hc.2 rfl, _, congrArg store hexec⟩
      | some d' =>
        have hd' : d' ∈ blocksOf w.objects := hin d' (by simp [blocks])
        have hopened : HoldsBlocks ((w.alloc.put w.fresh x).alloc.opened fd)
            ((w.fresh + 1) :: w.fresh :: blocksOf w.objects) := hholds.alloc.opened
        obtain ⟨x', hx'⟩ := heap_of_mem hopened
          (List.mem_cons_of_mem _ (List.mem_cons_of_mem _ hd'))
        have hmem := (hopened.alive (w.fresh + 1)).mpr (List.mem_cons_self ..)
        obtain ⟨o, w', hstore, hmade⟩ := made_of_complete (w := w)
          (fun b => memcpy b (some d')) (w.alloc.put w.fresh x) rfl rfl rfl hne hnew
          ⟨exec_memcpy hmem hx', hopened.put (List.mem_cons_self ..), rfl, rfl, rfl⟩
        exact .inl ⟨w', hstore, .made o rfl hmade⟩

theorem destroy_change (h : HoldsBlocks w (blocksOf w.objects)) (hi : w.objects[i]? = some o) :
    ∃ w', next w (.destroy i) = .ok w' ∧ Change w (.destroy i) w' := by
  have hholds : HoldsBlocks (w.closed o.sockfd)
      (o.derivedData.toList ++ (o.data.toList ++ blocksOf (w.objects.eraseIdx i))) := by
    refine h.closed.perm ((blocksOf_perm hi).trans ?_)
    rw [blocks, ← List.append_assoc]
    exact List.perm_append_comm.append_right _
  obtain ⟨w₁, hexec₁, hholds₁, hobjects₁, hlog₁, hopen₁⟩ := exec_delete_toList hholds
  obtain ⟨w₂, hexec₂, hholds₂, hobjects₂, hlog₂, hopen₂⟩ := exec_delete_toList hholds₁
  have hexec : Action.exec (destroy o) w = (.ok (), w₂) := by
    rw [destroy, close, Action.exec_modify, Action.exec_ok hexec₁]
    exact hexec₂
  refine ⟨{ w₂ with objects := w₂.objects.eraseIdx i }, ?_, .destroyed o hi ⟨?_, ?_, ?_, ?_⟩⟩
  · rw [next, ok_bind (show object w i = .ok o by rw [object, hi]), hexec]
    rfl
  · simp only [hobjects₂, hobjects₁]
    rfl
  · exact hlog₂.trans hlog₁
  · exact hopen₂.trans hopen₁
  · exact ⟨hholds₂.owns, hholds₂.alive, hholds₂.lt⟩

theorem next_change (h : HoldsBlocks w (blocksOf w.objects)) (ha : Admissible w e)
    (hn : next w e = .ok w') : Change w e w' := by
  cases e with
  | construct fd =>
    obtain ⟨w₁, hok, hc⟩ := construct_change h ha
    exact Except.ok.inj (hok.symm.trans hn) ▸ hc
  | copy i fd =>
    obtain ⟨hi, hfd⟩ := ha
    rcases copy_change h (List.getElem?_eq_getElem hi) hfd with ⟨w₁, hok, hc⟩ | ⟨_, f, hf⟩
    · exact Except.ok.inj (hok.symm.trans hn) ▸ hc
    · rw [hf] at hn
      cases hn
  | move i =>
    obtain ⟨o, ho, hn⟩ := bind_ok hn
    cases hn
    exact .moved o (object_eq ho)
  | destroy i =>
    obtain ⟨w₁, hok, hc⟩ := destroy_change h (List.getElem?_eq_getElem ha)
    exact Except.ok.inj (hok.symm.trans hn) ▸ hc

theorem next_ok (h : HoldsBlocks w (blocksOf w.objects)) (hc : ∀ o ∈ w.objects, Complete o)
    (ha : Admissible w e) : ∃ w', next w e = .ok w' := by
  cases e with
  | construct fd =>
    obtain ⟨w', hok, _⟩ := construct_change h ha
    exact ⟨w', hok⟩
  | copy i fd =>
    obtain ⟨hi, hfd⟩ := ha
    rcases copy_change h (List.getElem?_eq_getElem hi) hfd with ⟨w', hok, _⟩ | ⟨hnot, _⟩
    · exact ⟨w', hok⟩
    · exact absurd (hc _ (List.getElem_mem hi)) hnot
  | move i =>
    have hobject : object w i = .ok w.objects[i] := by rw [object, List.getElem?_eq_getElem ha]
    rw [next, ok_bind hobject]
    exact ⟨_, rfl⟩
  | destroy i =>
    obtain ⟨w', hok, _⟩ := destroy_change h (List.getElem?_eq_getElem ha)
    exact ⟨w', hok⟩

end change

def sockets (objects : List RDerived) : List ℤ := objects.map fun o => o.sockfd

@[simp] theorem sockets_concat : sockets (objects ++ [o]) = sockets objects ++ [o.sockfd] := by
  simp [sockets]

theorem sockets_perm (h : objects[i]? = some o) :
    (sockets objects).Perm (o.sockfd :: sockets (objects.eraseIdx i)) :=
  (perm_eraseIdx h).map fun x : RDerived => x.sockfd

theorem sockets_set (rhs : RDerived) (h : objects[i]? = some o) :
    (sockets (objects.set i rhs)).Perm (rhs.sockfd :: sockets (objects.eraseIdx i)) :=
  (perm_set h).map fun x : RDerived => x.sockfd

/-- Each move leaves another object that will close the descriptor 0. -/
def Balanced (tr : List Event) (w : World T) : Prop :=
  (w.socketLog.uses 0).count .release + (sockets w.objects).count 0 =
    (w.socketLog.uses 0).count .acquire + tr.countP isMove

theorem Change.holds (hc : Change w e w') (h : HoldsBlocks w (blocksOf w.objects)) :
    HoldsBlocks w' (blocksOf w'.objects) := by
  cases hc with
  | made o _ hm =>
    rw [hm.objects]
    refine hm.holds.perm (List.perm_append_comm.trans (.of_eq ?_))
    simp [blocksOf]
  | thrown _ ht =>
    rw [ht.objects]
    exact ht.holds
  | @moved i o hi =>
    have hperm : (blocksOf (w.objects.set i ⟨⟨none⟩, none, 0⟩ ++ [o])).Perm
        (blocksOf w.objects) := by
      rw [blocksOf, List.flatMap_append]
      refine ((perm_set hi).flatMap_right _ |>.append_right _).trans ?_
      refine List.perm_append_comm.trans (.trans ?_ (blocksOf_perm hi).symm)
      exact .of_eq (by simp [blocksOf, blocks])
    have hw := h.perm hperm.symm
    exact ⟨hw.owns, hw.alive, hw.lt⟩
  | destroyed o _ hd =>
    rw [hd.objects]
    exact hd.holds

theorem count_concat (log : Ledger ℤ) (fd : ℤ) (u v : Use) :
    ((log ++ [(fd, u)]).uses 0).count v =
      (log.uses 0).count v + if fd = 0 ∧ u = v then 1 else 0 := by
  by_cases hfd : fd = 0
  · subst hfd
    simp [List.count_append, List.count_singleton]
  · rw [Ledger.uses_concat_of_ne hfd]
    simp [hfd]

theorem Change.balanced (hc : Change w e w') (h : Balanced tr w) : Balanced (tr ++ [e]) w' := by
  rw [Balanced] at h ⊢
  rw [List.countP_append, List.countP_singleton]
  cases hc with
  | made o he hm =>
    rw [hm.objects, hm.socketLog, count_concat, count_concat, sockets_concat, List.count_append,
      List.count_singleton, he]
    by_cases hfd : o.sockfd = 0
    · simp only [hfd, beq_self_eq_true, if_true]
      simp
      omega
    · simp [hfd]
      omega
  | thrown he ht =>
    rw [ht.objects, ht.socketLog, he]
    exact h
  | @moved i o hi =>
    have hbefore := (sockets_perm hi).count_eq 0
    have hafter := (sockets_set ⟨⟨none⟩, none, 0⟩ hi).count_eq 0
    rw [List.count_cons] at hbefore hafter
    rw [sockets_concat, List.count_append, List.count_singleton, hafter,
      show isMove (.move i) = true from rfl]
    simp only [beq_self_eq_true, if_true]
    omega
  | @destroyed i w' o hi hd =>
    have hbefore := (sockets_perm hi).count_eq 0
    rw [List.count_cons] at hbefore
    rw [hd.objects, hd.socketLog, count_concat, count_concat,
      show isMove (.destroy i) = false from rfl]
    by_cases hfd : o.sockfd = 0
    · simp [hfd] at hbefore ⊢
      omega
    · simp [hfd] at hbefore ⊢
      omega

/-- Each object has a descriptor of its own, which is open, and its blocks. -/
structure Intact (w : World T) : Prop where
  owns : w.socketLog.Owns (sockets w.objects)
  isOpen : ∀ fd ∈ sockets w.objects, fd ∈ w.openFds
  complete : ∀ o ∈ w.objects, Complete o

theorem Change.intact (hc : Change w e w') (he : isMove e = false) (h : Intact w) : Intact w' := by
  obtain ⟨howns, hopen, hcomplete⟩ := h
  cases hc with
  | made o _ hm =>
    have hnew : o.sockfd ∉ sockets w.objects := fun hfd => hm.sockfd (hopen _ hfd)
    have hsockets : sockets w'.objects = sockets w.objects ++ [o.sockfd] := by
      rw [hm.objects, sockets_concat]
    refine ⟨?_, ?_, ?_⟩
    · rw [hsockets, hm.socketLog]
      exact (howns.acquire hnew).perm (List.perm_append_singleton _ _).symm
    · rw [hsockets, hm.openFds, List.forall_mem_append, List.forall_mem_singleton]
      exact ⟨fun fd hfd => Finset.mem_insert_of_mem (hopen fd hfd), Finset.mem_insert_self ..⟩
    · rw [hm.objects, List.forall_mem_append, List.forall_mem_singleton]
      exact ⟨hcomplete, hm.complete⟩
  | thrown _ ht =>
    refine ⟨?_, ?_, ?_⟩
    · rw [ht.socketLog, ht.objects]
      exact howns
    · rw [ht.openFds, ht.objects]
      exact hopen
    · rw [ht.objects]
      exact hcomplete
  | moved o hi => cases he
  | @destroyed i w' o hi hd =>
    have hperm := sockets_perm hi
    have howns' := howns.perm hperm
    refine ⟨?_, ?_, ?_⟩
    · rw [hd.socketLog, hd.objects]
      exact howns'.release
    · rw [hd.openFds, hd.objects]
      intro fd hfd
      have hne : fd ≠ o.sockfd := fun he => (List.nodup_cons.mp howns'.nodup).1 (he ▸ hfd)
      exact Finset.mem_erase.mpr ⟨hne, hopen fd (hperm.mem_iff.mpr (List.mem_cons_of_mem _ hfd))⟩
    · rw [hd.objects]
      exact fun o ho => hcomplete o (List.mem_of_mem_eraseIdx ho)

section runs
variable [Inhabited T]

theorem run_holds (hr : (system T).Run System.always tr w) :
    HoldsBlocks w (blocksOf w.objects) ∧ Balanced tr w ∧
      ((∀ e ∈ tr, isMove e = false) → Intact w) := by
  refine System.run_invariant (P := fun tr w => HoldsBlocks w (blocksOf w.objects) ∧
    Balanced tr w ∧ ((∀ e ∈ tr, isMove e = false) → Intact w)) ?_ ?_ hr
  · intro w hw
    obtain ⟨openFds, rfl⟩ := hw
    refine ⟨⟨Ledger.owns_nil, by simp [blocksOf], by simp [blocksOf]⟩, rfl, fun _ => ?_⟩
    exact ⟨Ledger.owns_nil, by simp [sockets], by simp⟩
  · intro tr w e w' _ hinv _ hs
    obtain ⟨hholds, hbalanced, hintact⟩ := hinv
    have hchange := next_change hholds hs.1 hs.2
    refine ⟨hchange.holds hholds, hchange.balanced hbalanced, ?_⟩
    intro hno
    rw [List.forall_mem_append, List.forall_mem_singleton] at hno
    exact hchange.intact hno.2 (hintact hno.1)

/-- Once all objects are gone each block was deleted once. Each descriptor obtained was closed
once, and nothing else was, exactly if no object was moved; without moves nothing in a run
is undefined. -/
theorem descriptors_settled (hr : (system T).Run System.always tr w) :
    ((∀ e ∈ tr, isMove e = false) → ∀ e, Admissible w e → ∃ w', next w e = .ok w') ∧
    (w.objects = [] → (∀ b, w.blockLog.Settled b) ∧
      ((∀ fd, w.socketLog.Settled fd) ↔ ∀ e ∈ tr, isMove e = false)) := by
  obtain ⟨hholds, hbalanced, hintact⟩ := run_holds hr
  refine ⟨fun hno e ha => next_ok hholds (hintact hno).complete ha, ?_⟩
  intro hgone
  rw [hgone] at hholds
  refine ⟨fun b => hholds.owns.settled b (by simp [blocksOf]), ?_, ?_⟩
  · intro hall
    have hpaired := (hall 0).count_eq
    rw [Balanced, hgone, sockets, List.map_nil, List.count_nil, hpaired] at hbalanced
    have hzero : tr.countP isMove = 0 := by omega
    rw [List.countP_eq_zero] at hzero
    intro e he
    exact Bool.eq_false_of_not_eq_true (hzero e he)
  · intro hno fd
    have howns := (hintact hno).owns
    rw [hgone] at howns
    exact howns.settled fd (by simp [sockets])

end runs

theorem descriptors_settled_sample : ∃ w, (system ℕ).Run System.always
      [.construct 3, .copy 0 4, .construct (-1), .destroy 0, .copy 0 3, .destroy 1, .destroy 0] w ∧
    ∀ fd, w.socketLog.Settled fd := by
  have hr : ∃ w, (system ℕ).Run System.always
      [.construct 3, .copy 0 4, .construct (-1), .destroy 0, .copy 0 3, .destroy 1, .destroy 0] w ∧
        w.objects = [] :=
    ⟨_, System.run_of_exec System.guardedExec_step ⟨{0, 1, 2}, rfl⟩ rfl, rfl⟩
  obtain ⟨w, hr, hgone⟩ := hr
  exact ⟨w, hr, ((descriptors_settled hr).2 hgone).2.mpr (by decide)⟩

/-- The object moved from closes the standard input. -/
theorem descriptors_settled_fails : ¬ ∀ (tr : List Event) (w : World ℕ),
    (system ℕ).Run System.always tr w → w.objects = [] → ∀ fd, w.socketLog.Settled fd := by
  intro hall
  have hr : ∃ w, (system ℕ).Run System.always
      [.construct 3, .move 0, .destroy 1, .destroy 0] w ∧ w.objects = [] ∧
        w.socketLog.uses 0 = [.release] :=
    ⟨_, System.run_of_exec System.guardedExec_step ⟨{0, 1, 2}, rfl⟩ rfl, rfl, rfl⟩
  obtain ⟨w, hr, hgone, hzero⟩ := hr
  have hsettled := hall _ w hr hgone 0
  rw [Ledger.Settled, hzero] at hsettled
  exact hsettled

end ModCpp.RDerived
