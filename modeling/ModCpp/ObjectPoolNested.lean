import ModCpp.ObjectPoolRuns

/-!
# Calls of the object pool inside constructors and destructors

`New` and `Release` run code of the object, which may call them again. The calls in progress
form a stack. `New` takes a chunk of the free list when its constructor has returned, so during
the constructor the chunk is still the first of the free list.
-/

namespace ModCpp.ObjectPool

inductive Frame
  | constructing (obj : ℕ) (prev : Option ℕ)
  | destroying (obj : ℕ)

def Frame.obj : Frame → ℕ
  | .constructing obj _ => obj
  | .destroying obj => obj

/-- A constructor on a chunk of the free list is running. -/
def Frame.OnFree : Frame → Prop
  | .constructing _ (some _) => True
  | .constructing _ none => False
  | .destroying _ => False

instance : (f : Frame) → Decidable f.OnFree
  | .constructing _ (some _) => inferInstanceAs (Decidable True)
  | .constructing _ none | .destroying _ => inferInstanceAs (Decidable False)

/-- The pool, the calls in progress from the innermost on, and the objects that calls of `New`
have returned and that are not being released. -/
structure Nested where
  pool : Pool
  frames : List Frame
  live : List ℕ

namespace Nested

def objects (s : Nested) : List ℕ := s.frames.map Frame.obj ++ s.live

inductive Event
  | beginNew (block : ℕ)
  | endNew
  | beginRelease (obj : ℕ)
  | endRelease
  /-- A write of a constructor, of a destructor or of the client to an object. -/
  | write (obj : ℕ) (bytes : ℕ → UInt8)

def next (c : Layout) (s : Nested) : Event → Option Nested
  | .beginNew block =>
    if NeedsNode c s.pool → FreshBlock c s.pool.memoryNodeList block then
      match s.pool.prepare c block with
      | .ok (p, chunk, prev) =>
        some { s with pool := p, frames := .constructing (toObject chunk) prev :: s.frames }
      | .error _ => none
    else none
  | .endNew =>
    match s.frames with
    | .constructing obj prev :: rest => some ⟨s.pool.commit prev, rest, obj :: s.live⟩
    | _ => none
  | .beginRelease obj =>
    if obj ∈ s.live then
      some { s with frames := .destroying obj :: s.frames, live := s.live.erase obj }
    else none
  | .endRelease =>
    match s.frames with
    | .destroying obj :: rest => some { s with pool := s.pool.putBack obj, frames := rest }
    | _ => none
  | .write obj bytes =>
    if obj ∈ s.objects then some { s with pool := s.pool.write c obj bytes } else none

def system (c : Layout) : System Nested Event where
  init s := ∃ memory block, FreshBlock c [] block ∧ s = ⟨construct memory block, [], []⟩
  step s e s' := next c s e = some s'

def Distinct (c : Layout) (s : Nested) : Prop :=
  (s.objects.map toRawmemory).Pairwise (Apart c.chunkSize)

/-- They do, and none of these chunks is on the free list. -/
def Separate (c : Layout) (s : Nested) : Prop :=
  Distinct c s ∧
    ∃ l, Linked s.pool.link (ptr s.pool.freeList) l ∧ ∀ obj ∈ s.objects, toRawmemory obj ∉ l

def OnFreeChunk (s : Nested) : Prop := ∃ f ∈ s.frames.head?, f.OnFree

instance (s : Nested) : Decidable (OnFreeChunk s) :=
  inferInstanceAs (Decidable (∃ f ∈ s.frames.head?, f.OnFree))

def NewOnEmpty (s : Nested) : Event → Prop
  | .beginNew _ => s.pool.freeList = 0
  | _ => True

def Event.IsCall : Event → Prop
  | .beginNew _ => True
  | .beginRelease _ => True
  | _ => False

instance : (e : Event) → Decidable e.IsCall
  | .beginNew _ | .beginRelease _ => inferInstanceAs (Decidable True)
  | .endNew | .endRelease | .write _ _ => inferInstanceAs (Decidable False)

variable {c : Layout} {s s' : Nested} {e : Event} {h : History} {tr : List Event}
  {rest : List Frame} {a block obj : ℕ} {bytes : ℕ → UInt8}

theorem prepare_of_new {p p' : Pool} (hs : p.new c block bytes false = .ok (p', some obj)) :
    ∃ q chunk prev, p.prepare c block = .ok (q, chunk, prev) ∧ obj = toObject chunk ∧
      p' = (q.write c obj bytes).commit prev := by
  rcases hp : p.prepare c block with e | ⟨q, chunk, prev⟩
  · rw [Pool.new, hp] at hs
    cases hs
  · rw [Pool.new, ok_bind hp] at hs
    cases hs
    exact ⟨q, chunk, prev, rfl, rfl, rfl⟩

theorem next_new {p' : Pool} (hs : s.pool.new c block bytes false = .ok (p', some obj))
    (hfresh : NeedsNode c s.pool → FreshBlock c s.pool.memoryNodeList block) :
    ((next c s (.beginNew block)).bind fun t => (next c t (.write obj bytes)).bind fun t =>
      next c t .endNew) = some ⟨p', s.frames, obj :: s.live⟩ := by
  obtain ⟨q, chunk, prev, hprepare, rfl, rfl⟩ := prepare_of_new hs
  simp [next, hprepare, if_pos hfresh, objects, Frame.obj]

theorem next_release (ho : obj ∈ s.live) :
    ((next c s (.beginRelease obj)).bind fun t => (next c t (.write obj bytes)).bind fun t =>
      next c t .endRelease) = some ⟨s.pool.release c obj bytes, s.frames, s.live.erase obj⟩ := by
  simp [next, if_pos ho, objects, Frame.obj]
  rfl

theorem run_bind {e₁ e₂ e₃ : Event} (hr : (system c).Run System.always tr s)
    (h : ((next c s e₁).bind fun t => (next c t e₂).bind fun t => next c t e₃) = some s') :
    ∃ tr, (system c).Run System.always tr s' := by
  obtain ⟨t, ht, h⟩ := Option.bind_eq_some_iff.mp h
  obtain ⟨u, hu, h⟩ := Option.bind_eq_some_iff.mp h
  exact ⟨_, ((hr.step trivial ht).step trivial hu).step trivial h⟩

theorem run_of_calls {tr : List Op} {p : Pool}
    (hr : (ObjectPool.system c).Run permitted tr p) :
    ∃ tr', (system c).Run System.always tr' ⟨p, [], (hist tr).live⟩ := by
  induction hr with
  | start hp =>
    obtain ⟨memory, block, hf, rfl⟩ := hp
    exact ⟨[], .start ⟨memory, block, hf, rfl⟩⟩
  | @step tr p p' e _ hok hstep ih =>
    obtain ⟨tr', hr⟩ := ih
    rw [hist_concat]
    have hcall : ObjectPool.next c p e = some p' := hstep
    cases e with
    | new block bytes res =>
      rw [ObjectPool.next] at hcall
      split_ifs at hcall with hfresh
      cases res with
      | none => exact absurd rfl hok
      | some obj =>
        rcases hnew : p.new c block bytes false with e | ⟨q, r⟩
        · simp only [Option.isNone_some, hnew] at hcall
          cases hcall
        · simp only [Option.isNone_some, hnew] at hcall
          split_ifs at hcall with hr'
          cases hcall
          subst hr'
          exact run_bind hr (next_new hnew hfresh)
    | release obj bytes =>
      cases hcall
      exact run_bind hr (next_release hok)
    | write obj bytes =>
      cases hcall
      have hwrite : next c ⟨p, [], (hist tr).live⟩ (.write obj bytes) =
          some ⟨p.write c obj bytes, [], (hist tr).live⟩ := if_pos hok
      exact ⟨_, hr.step trivial hwrite⟩

/-- No constructor is running on a chunk of the free list. -/
structure Clear (c : Layout) (s : Nested) : Prop where
  frames : ∀ f ∈ s.frames, ¬ f.OnFree
  sound : ∃ h, IsSound c h s.pool ∧ h.live.Perm s.objects

/-- A constructor is running on the first chunk of the free list. -/
structure Fetching (c : Layout) (s : Nested) (a : ℕ) (rest : List Frame) : Prop where
  frames : s.frames = .constructing (toObject a) (some (s.pool.memory.loadWord a)) :: rest
  outer : ∀ f ∈ rest, ¬ f.OnFree
  sound : ∃ h chs l full last k, Sound c h s.pool chs (a :: l) full last k ∧
    h.live.Perm (rest.map Frame.obj ++ s.live)

theorem map_toRawmemory {chs : List ℕ} {objs : List ℕ} (h : (chs.map toObject).Perm objs) :
    chs.Perm (objs.map toRawmemory) := by
  have hmap := h.map toRawmemory
  have hid : toRawmemory ∘ toObject = id := funext fun a => Nat.add_sub_cancel ..
  rwa [List.map_map, hid, List.map_id] at hmap

theorem Clear.separate (hs : Clear c s) : Separate c s := by
  obtain ⟨h, ⟨chs, l, full, last, k, hsound⟩, hperm⟩ := hs.sound
  rw [hsound.live] at hperm
  have hchs := map_toRawmemory hperm
  obtain ⟨hapart, _, _⟩ := List.pairwise_append.mp hsound.apart
  refine ⟨(hchs.pairwise_iff fun h => Apart.symm h).mp hapart, l, hsound.chain, ?_⟩
  intro obj hobj hl
  have hin : toRawmemory obj ∈ chs := hchs.mem_iff.mpr (List.mem_map_of_mem hobj)
  exact (List.nodup_append.mp hsound.nodup).2.2 _ hin _ hl rfl

theorem Fetching.distinct (hs : Fetching c s a rest) : Distinct c s := by
  obtain ⟨h, chs, l, full, last, k, hsound, hperm⟩ := hs.sound
  rw [hsound.live] at hperm
  have hobjects : ((a :: chs).map toObject).Perm s.objects := by
    rw [objects, hs.frames]
    exact hperm.cons _
  have hchs := map_toRawmemory hobjects
  have hsub : (a :: chs).Sublist (a :: (chs ++ l)) := (List.sublist_append_left chs l).cons_cons a
  have hapart : (a :: (chs ++ l)).Pairwise (Apart c.chunkSize) :=
    (List.perm_middle.pairwise_iff fun h => Apart.symm h).mp hsound.apart
  exact (hchs.pairwise_iff fun h => Apart.symm h).mp (hapart.sublist hsub)

theorem Fetching.not_separate (hs : Fetching c s a rest) : ¬ Separate c s := by
  obtain ⟨h, chs, l, full, last, k, hsound, hperm⟩ := hs.sound
  intro ⟨_, l', hchain, hnot⟩
  obtain rfl : a :: l = l' := hsound.chain.unique hchain
  have hobj : toObject a ∈ s.objects := by
    rw [objects, hs.frames]
    exact List.mem_cons_self
  refine hnot _ hobj ?_
  rw [show toRawmemory (toObject a) = a from Nat.add_sub_cancel ..]
  exact List.mem_cons_self

theorem Fetching.onFreeChunk (hs : Fetching c s a rest) : OnFreeChunk s := by
  rw [OnFreeChunk, hs.frames]
  exact ⟨_, rfl, trivial⟩

theorem Clear.not_onFreeChunk (hs : Clear c s) : ¬ OnFreeChunk s := by
  intro ⟨f, hf, hfree⟩
  exact hs.frames f (List.mem_of_mem_head? hf) hfree

theorem Clear.beginNew (hs : Clear c s) (hcap : 1 ≤ c.nodeCapacity) (hfree : s.pool.freeList = 0)
    (hstep : next c s (.beginNew block) = some s') : Clear c s' := by
  obtain ⟨h, hsound, hperm⟩ := hs.sound
  rw [next] at hstep
  split_ifs at hstep with hfresh
  obtain ⟨q, chunk, hprepare, hq⟩ := hsound.prepare_fresh hcap hfree hfresh
  rw [hprepare] at hstep
  cases hstep
  refine ⟨?_, _, hq fun _ => 0, hperm.cons _⟩
  intro f hf
  rcases List.mem_cons.mp hf with rfl | hf
  · exact id
  · exact hs.frames f hf

theorem Clear.fetch (hs : Clear c s) (hfree : s.pool.freeList ≠ 0)
    (hstep : next c s (.beginNew block) = some s') : Fetching c s' s.pool.freeList s.frames := by
  obtain ⟨h, ⟨chs, l, full, last, k, hsound⟩, hperm⟩ := hs.sound
  have hchain := hsound.chain
  rw [ptr, if_neg hfree] at hchain
  obtain ⟨rest, rfl, _⟩ := hchain.exists_cons
  rw [next] at hstep
  split_ifs at hstep with hfresh
  rw [prepare_reuse hfree] at hstep
  cases hstep
  exact ⟨rfl, hs.frames, h, chs, rest, full, last, k, hsound, hperm⟩

theorem Clear.step (hs : Clear c s) (hcap : 1 ≤ c.nodeCapacity) (hnew : NewOnEmpty s e)
    (hstep : next c s e = some s') : Clear c s' := by
  cases e with
  | beginNew block => exact hs.beginNew hcap hnew hstep
  | endNew =>
    obtain ⟨h, hsound, hperm⟩ := hs.sound
    rw [next] at hstep
    split at hstep
    · rename_i obj prev rest hframes
      cases hstep
      have hnone := hs.frames (.constructing obj prev) (by simp [hframes])
      cases prev with
      | some prev => exact absurd trivial hnone
      | none =>
        rw [objects, hframes] at hperm
        refine ⟨?_, h, hsound, hperm.trans List.perm_middle.symm⟩
        intro f hf
        exact hs.frames f (by simp [hframes, hf])
    · cases hstep
  | beginRelease obj =>
    obtain ⟨h, hsound, hperm⟩ := hs.sound
    rw [next] at hstep
    split_ifs at hstep with hobj
    cases hstep
    refine ⟨?_, h, hsound, hperm.trans ?_⟩
    · intro f hf
      rcases List.mem_cons.mp hf with rfl | hf
      · exact id
      · exact hs.frames f hf
    · exact ((List.perm_cons_erase hobj).append_left _).trans List.perm_middle
  | endRelease =>
    obtain ⟨h, hsound, hperm⟩ := hs.sound
    rw [next] at hstep
    split at hstep
    · rename_i obj rest hframes
      cases hstep
      rw [objects, hframes] at hperm
      have hin : obj ∈ h.live := hperm.mem_iff.mpr List.mem_cons_self
      refine ⟨?_, _, hsound.putBack hin fun _ => 0, ?_⟩
      · intro f hf
        exact hs.frames f (by simp [hframes, hf])
      · have herase := hperm.erase obj
        rwa [List.map_cons, List.cons_append, Frame.obj, List.erase_cons_head] at herase
    · cases hstep
  | write obj bytes =>
    obtain ⟨h, hsound, hperm⟩ := hs.sound
    rw [next] at hstep
    split_ifs at hstep with hobj
    cases hstep
    exact ⟨hs.frames, _, hsound.write (hperm.mem_iff.mpr hobj) bytes, hperm⟩

theorem Fetching.step (hs : Fetching c s a rest) (hcall : ¬ e.IsCall)
    (hstep : next c s e = some s') : Clear c s' ∨ Fetching c s' a rest := by
  obtain ⟨h, chs, l, full, last, k, hsound, hperm⟩ := hs.sound
  cases e with
  | beginNew block => exact absurd trivial hcall
  | beginRelease obj => exact absurd trivial hcall
  | endRelease =>
    rw [next, hs.frames] at hstep
    cases hstep
  | endNew =>
    rw [next, hs.frames] at hstep
    cases hstep
    have htaken : IsSound c (h.record (.new 0 (fun _ => 0) (some (toObject a)))) _ :=
      ⟨_, _, _, _, _, hsound.reuse⟩
    exact .inl ⟨hs.outer, _, htaken, (hperm.cons _).trans List.perm_middle.symm⟩
  | write obj bytes =>
    rw [next] at hstep
    split_ifs at hstep with hobj
    cases hstep
    obtain ⟨b, hb, rfl⟩ : ∃ b ∈ chs ++ a :: l, obj = toObject b := by
      rw [objects, hs.frames] at hobj
      rcases List.mem_cons.mp hobj with hobj | hobj
      · exact ⟨a, by simp, hobj⟩
      · have hlive := hperm.mem_iff.mpr hobj
        rw [hsound.live] at hlive
        obtain ⟨b, hb, hbobj⟩ := List.mem_map.mp hlive
        exact ⟨b, List.mem_append_left _ hb, hbobj.symm⟩
    refine .inr ⟨?_, hs.outer, h, chs, l, full, last, k, ?_, hperm⟩
    · rw [loadWord_write]
      · exact hs.frames
      · by_cases hab : b = a
        · exact .inl hab
        · exact .inr (hsound.apart_of_ne hb (by simp) hab)
    · exact { hsound with chain := hsound.linked_write hb bytes }

theorem construct_clear (hfits : c.Fits) (memory : Memory) (hf : FreshBlock c [] block) :
    Clear c ⟨construct memory block, [], []⟩ := by
  refine ⟨?_, _, isSound_construct hfits memory hf, List.Perm.refl _⟩
  intro f hf
  cases hf

def Kept (c : Layout) (s : Nested) : Prop := Clear c s ∨ ∃ a rest, Fetching c s a rest

theorem Kept.step (hs : Kept c s) (hcap : 1 ≤ c.nodeCapacity) (hcall : e.IsCall → ¬ OnFreeChunk s)
    (hstep : next c s e = some s') : Kept c s' := by
  rcases hs with hs | ⟨a, rest, hs⟩
  · by_cases hnew : NewOnEmpty s e
    · exact .inl (hs.step hcap hnew hstep)
    · cases e with
      | beginNew block => exact .inr ⟨_, _, hs.fetch hnew hstep⟩
      | endNew => exact absurd trivial hnew
      | beginRelease obj => exact absurd trivial hnew
      | endRelease => exact absurd trivial hnew
      | write obj bytes => exact absurd trivial hnew
  · rcases hs.step (fun he => hcall he hs.onFreeChunk) hstep with hs' | hs'
    · exact .inl hs'
    · exact .inr ⟨a, rest, hs'⟩

theorem Kept.separate_iff (hs : Kept c s) : Separate c s ↔ ¬ OnFreeChunk s := by
  rcases hs with hs | ⟨a, rest, hs⟩
  · exact iff_of_true hs.separate hs.not_onFreeChunk
  · exact iff_of_false hs.not_separate (not_not.mpr hs.onFreeChunk)

theorem Kept.distinct (hs : Kept c s) : Distinct c s := by
  rcases hs with hs | ⟨a, rest, hs⟩
  · exact hs.separate.1
  · exact hs.distinct

/-- The runs that are separate in every state, and those that are whenever a call begins. -/
theorem chunks_separate (hfits : c.Fits) (hcap : 1 ≤ c.nodeCapacity) :
    ((system c).Throughout System.always (Separate c) tr s ↔
      ((system c).restrict NewOnEmpty).Run System.always tr s) ∧
    (((system c).restrict fun s e => e.IsCall → Separate c s).Run System.always tr s ↔
      ((system c).restrict fun s e => e.IsCall → ¬ OnFreeChunk s).Run System.always tr s) ∧
    (((system c).restrict fun s e => e.IsCall → ¬ OnFreeChunk s).Run System.always tr s →
      Distinct c s ∧ (Separate c s ↔ ¬ OnFreeChunk s)) := by
  have hinit : ∀ s, (system c).init s → Clear c s := by
    intro s hs
    obtain ⟨memory, block, hf, rfl⟩ := hs
    exact construct_clear hfits memory hf
  have hkept : ∀ s, (system c).init s → Kept c s := fun s hs => .inl (hinit s hs)
  refine ⟨?_, ?_, ?_⟩
  · refine System.throughout_iff hinit (fun _ hs => hs.separate) ?_ ?_
    · intro tr s e s' hs _ hstep hnew
      exact hs.step hcap hnew hstep
    · intro tr s e s' hs _ hstep hnew
      cases e with
      | beginNew block => exact (hs.fetch hnew hstep).not_separate
      | endNew => exact absurd trivial hnew
      | beginRelease obj => exact absurd trivial hnew
      | endRelease => exact absurd trivial hnew
      | write obj bytes => exact absurd trivial hnew
  · refine System.restrict_congr hkept ?_ ?_
    · intro tr s e s' hs _ hstep hcall
      exact hs.step hcap (fun he => hs.separate_iff.mp (hcall he)) hstep
    · intro s e hs
      rw [hs.separate_iff]
  · intro hr
    have hboth : ((system c).restrict fun _ _ => True).Run System.always tr s ∧ Kept c s :=
      System.restrict_keeps hkept (fun _ _ _ _ hs _ hstep hcall => hs.step hcap hcall hstep)
        (fun _ _ _ _ => trivial) hr
    exact ⟨hboth.2.distinct, hboth.2.separate_iff⟩

theorem chunks_separate_sample : ∃ tr s, (system ⟨8, 2⟩).Run System.always tr s ∧
    s.live = [108] ∧ Distinct ⟨8, 2⟩ s := by
  have hr : ∃ s, ((system ⟨8, 2⟩).restrict fun s e => e.IsCall → ¬ OnFreeChunk s).Run System.always
      [.beginNew 0, .beginNew 0, .write 124 (fun _ => 1), .endNew, .endNew, .beginRelease 108,
        .beginRelease 124, .endRelease, .endRelease, .beginNew 0, .write 108 (fun _ => 2),
        .endNew] s ∧ s.live = [108] :=
    ⟨_, System.run_of_exec (System.restrictExec_step fun _ _ _ h => h)
      ⟨fun _ => 0, 100, by decide, rfl⟩ rfl, rfl⟩
  obtain ⟨s, hr, hlive⟩ := hr
  obtain ⟨-, -, hseparate⟩ := chunks_separate (c := ⟨8, 2⟩) (by decide) (by decide)
  exact ⟨_, s, System.run_of_restrict hr, hlive, (hseparate hr).1⟩

/-- A constructor on a released chunk calls `New`, which gives it the same chunk again. -/
theorem chunks_separate_fails : ¬ ∀ c tr s, 1 ≤ c.nodeCapacity →
    (system c).Run System.always tr s → Separate c s := by
  intro hall
  have hr : ∃ s, (system ⟨8, 2⟩).Run System.always
      [.beginNew 0, .endNew, .beginRelease 108, .endRelease, .beginNew 0, .beginNew 0] s ∧
        s.objects = [108, 108] :=
    ⟨_, System.run_of_exec (fun _ _ _ h => h) ⟨fun _ => 0, 100, by decide, rfl⟩ rfl, rfl⟩
  obtain ⟨s, hr, hobjects⟩ := hr
  have hdistinct := (hall _ _ s (by decide) hr).1
  rw [Distinct, hobjects] at hdistinct
  revert hdistinct
  decide

end Nested

end ModCpp.ObjectPool
