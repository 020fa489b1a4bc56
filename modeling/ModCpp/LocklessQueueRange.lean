import ModCpp.LocklessQueue

/-!
# The range of the indices of the lockless queue

All indices stay below the capacity, so while the capacity is an `int` adding one to an index is
defined. With any larger capacity a single thread that pushes and pops in turn brings the indices
to the largest `int`.
-/

namespace ModCpp.LocklessQueue
variable {τ α : Type*} {cap : ℕ} {q q' : Queue τ α} {t : τ} {p : Pc α} {e : Event τ α}

/-- The index that a thread has read and works on. -/
def Pc.idx : Pc α → Option ℕ
  | .canPush _ cur | .pushExchange _ cur | .store _ cur => some cur
  | .canPop cur | .popExchange cur | .read cur => some cur
  | .pushRelease stale | .popRelease _ stale => some stale
  | .idle => none

structure InRing (cap : ℕ) (q : Queue τ α) : Prop where
  pushIdx : q.pushIdx < cap
  popIdx : q.popIdx < cap
  idx : ∀ t cur, (q.pc t).idx = some cur → cur < cap

section step
variable [DecidableEq τ] {ok : List (Event τ α) → Event τ α → Prop} {tr : List (Event τ α)}

/-- No thread's next step is undefined. -/
def Defined (cap : ℕ) (q : Queue τ α) : Prop := ∀ t call, ∃ r, next cap q t call = some r

theorem next_of_idx (hidx : ∀ cur, (q.pc t).idx = some cur → cur + 1 < 2 ^ 31) (call : Call α) :
    ∃ r, next cap q t call = some r := by
  unfold next
  split
  next => cases call <;> exact ⟨_, rfl⟩
  next hpc =>
    rw [hpc] at hidx
    rw [canPush_of_lt (hidx _ rfl)]
    exact ⟨_, rfl⟩
  next hpc =>
    rw [hpc] at hidx
    rw [succIdx_of_lt (hidx _ rfl)]
    exact ⟨_, rfl⟩
  next => exact ⟨_, rfl⟩
  next hpc =>
    rw [hpc] at hidx
    rw [succIdx_of_lt (hidx _ rfl)]
    exact ⟨_, rfl⟩
  next => split_ifs <;> exact ⟨_, rfl⟩
  next hpc =>
    rw [hpc] at hidx
    rw [succIdx_of_lt (hidx _ rfl)]
    exact ⟨_, rfl⟩
  next => exact ⟨_, rfl⟩
  next hpc =>
    rw [hpc] at hidx
    rw [succIdx_of_lt (hidx _ rfl)]
    exact ⟨_, rfl⟩

theorem InRing.defined (hr : InRing cap q) (hint : cap < 2 ^ 31) : Defined cap q := by
  intro t call
  apply next_of_idx
  intro cur hcur
  have hlt := hr.idx t cur hcur
  omega

theorem InRing.goto (hr : InRing cap q) (hp : ∀ cur, p.idx = some cur → cur < cap) :
    InRing cap (q.goto t p) := by
  refine ⟨hr.pushIdx, hr.popIdx, ?_⟩
  intro u
  by_cases hu : u = t
  · rw [hu, goto_pc_self]
    exact hp
  · rw [goto_pc_ne hu]
    exact hr.idx u

/-- The thread goes on with the index that it has. -/
theorem InRing.keep (hr : InRing cap q) {p' : Pc α} (hpc : q.pc t = p) (hp : p'.idx = p.idx) :
    InRing cap (q.goto t p') := by
  apply hr.goto
  intro cur hcur
  rw [hp, ← hpc] at hcur
  exact hr.idx t cur hcur

/-- The thread reads `push_idx` or `pop_idx`, or leaves its call. -/
theorem InRing.fresh (hr : InRing cap q)
    (hp : p.idx = some q.pushIdx ∨ p.idx = some q.popIdx ∨ p.idx = none) :
    InRing cap (q.goto t p) := by
  apply hr.goto
  intro cur hcur
  rw [hcur] at hp
  rcases hp with hp | hp | hp
  · rw [Option.some_inj.mp hp]
    exact hr.pushIdx
  · rw [Option.some_inj.mp hp]
    exact hr.popIdx
  · cases hp

theorem InRing.step (hcap : 1 ≤ cap) (hr : InRing cap q) (hs : Step cap q e q') :
    InRing cap q' := by
  have hmod : ∀ cur, (cur + 1) % cap < cap := fun cur => Nat.mod_lt _ hcap
  cases hs with
  | pushLoad val hpc => exact hr.fresh (.inl rfl)
  | pushChecked hpc hfree => exact hr.keep hpc rfl
  | pushRefused hpc hfull => exact hr.fresh (.inr (.inr rfl))
  | @pushClaimed t val cur hpc hcur =>
    have hring : InRing cap { q with pushIdx := (cur + 1) % cap } := ⟨hmod cur, hr.popIdx, hr.idx⟩
    exact hring.keep hpc rfl
  | pushRetried hpc hcur => exact hr.fresh (.inl rfl)
  | @stored t val cur hpc =>
    have hring : InRing cap { q with data := Function.update q.data cur val } :=
      ⟨hr.pushIdx, hr.popIdx, hr.idx⟩
    exact hring.keep hpc rfl
  | @pushReleased t stale hpc hst =>
    have hring : InRing cap { q with shadowPushIdx := (stale + 1) % cap } :=
      ⟨hr.pushIdx, hr.popIdx, hr.idx⟩
    exact hring.fresh (.inr (.inr rfl))
  | pushWaited => exact hr
  | popLoad hpc => exact hr.fresh (.inr (.inl rfl))
  | popChecked hpc hsome => exact hr.keep hpc rfl
  | popRefused hpc hnone => exact hr.fresh (.inr (.inr rfl))
  | @popClaimed t cur hpc hcur =>
    have hring : InRing cap { q with popIdx := (cur + 1) % cap } := ⟨hr.pushIdx, hmod cur, hr.idx⟩
    exact hring.keep hpc rfl
  | popRetried hpc hcur => exact hr.fresh (.inr (.inl rfl))
  | read hpc => exact hr.keep hpc rfl
  | @popReleased t ans stale hpc hst =>
    have hring : InRing cap { q with shadowPopIdx := (stale + 1) % cap } :=
      ⟨hr.pushIdx, hr.popIdx, hr.idx⟩
    exact hring.fresh (.inr (.inr rfl))
  | popWaited => exact hr

theorem run_inRing (hcap : 1 ≤ cap) (hr : (system cap).Run ok tr q) : InRing cap q := by
  refine System.run_invariant (P := fun _ q => InRing cap q) ?_ ?_ hr
  · intro q hq
    obtain ⟨data, rfl⟩ := hq
    refine ⟨hcap, hcap, ?_⟩
    intro t cur hcur
    cases hcur
  · intro tr q e q' _ hring _ hs
    exact hring.step hcap (step_cases hs)

section overflow

theorem Step.runs (hs : Step cap q e q')
    (hidx : ∀ cur, (q.pc e.thread).idx = some cur → cur + 1 < 2 ^ 31) :
    (system cap).step q e q' := by
  refine ⟨e.thread, e.call, ?_⟩
  cases hs with
  | pushLoad val hpc | popLoad hpc | stored hpc | read hpc =>
    simp only [next, Event.thread, Event.call, hpc]
  | pushChecked hpc hplace | pushRefused hpc hplace =>
    rw [Event.thread, hpc] at hidx
    simp only [next, Event.thread, hpc, canPush_of_lt (hidx _ rfl), hplace]
    rfl
  | pushClaimed hpc hcur | pushRetried hpc hcur | pushReleased hpc hcur | pushWaited hpc hcur
  | popClaimed hpc hcur | popRetried hpc hcur | popReleased hpc hcur | popWaited hpc hcur =>
    rw [Event.thread, hpc] at hidx
    simp only [next, Event.thread, hpc, succIdx_of_lt (hidx _ rfl), hcur]
    rfl
  | popChecked hpc hsome | popRefused hpc hsome =>
    simp only [next, Event.thread, hpc, hsome]
    rfl

theorem run_on (hr : (system cap).Run noWrap tr (q.goto t p))
    (hidx : ∀ cur, p.idx = some cur → cur + 1 < 2 ^ 31) (hs : Step cap (q.goto t p) e q')
    (he : e.thread = t) (hok : noWrap tr e) : (system cap).Run noWrap (tr ++ [e]) q' := by
  refine hr.step hok (hs.runs ?_)
  rwa [he, goto_pc_self]

theorem idle_update (t : τ) :
    Function.update (fun _ => .idle : τ → Pc α) t .idle = fun _ => .idle :=
  Function.update_eq_self t _

theorem push_alone {k : ℕ} {data : ℕ → α}
    (hr : (system cap).Run noWrap tr ⟨data, k, k, k, k, fun _ : τ => .idle⟩) (hk : k + 1 < 2 ^ 31)
    (hcap : 2 ^ 31 ≤ cap) (t : τ) (val : α) : ∃ tr' : List (Event τ α), (system cap).Run noWrap tr'
      ⟨Function.update data k val, k + 1, k + 1, k, k, fun _ => .idle⟩ := by
  have hmod : (k + 1) % cap = k + 1 := Nat.mod_eq_of_lt (by omega)
  have hfits : ∀ cur, some k = some cur → cur + 1 < 2 ^ 31 := by
    intro cur hcur
    rwa [← Option.some_inj.mp hcur]
  have hstart : (system cap).step ⟨data, k, k, k, k, fun _ : τ => .idle⟩ (.pushLoad t val)
      (Queue.goto ⟨data, k, k, k, k, fun _ : τ => .idle⟩ t (.canPush val k)) := by
    refine (Step.pushLoad val rfl).runs ?_
    intro cur hcur
    cases hcur
  have hload : (system cap).Run noWrap (tr ++ [.pushLoad t val]) _ := hr.step trivial hstart
  have hplace : HasPlace cap (Queue.goto ⟨data, k, k, k, k, fun _ : τ => .idle⟩ t (.canPush val k))
      k := by
    rw [HasPlace, hmod]
    exact Nat.succ_ne_self k
  have hcheck := run_on hload hfits (.pushChecked goto_pc_self hplace) rfl trivial
  have hclaim := run_on hcheck hfits (.pushClaimed goto_pc_self rfl) rfl (by
    rw [noWrap, hist_concat, hist_concat]
    exact Function.update_self ..)
  have hstore := run_on hclaim hfits (.stored goto_pc_self) rfl trivial
  have hrelease := run_on hstore hfits (.pushReleased goto_pc_self rfl) rfl trivial
  simp only [Queue.goto, Function.update_idem, idle_update, hmod] at hrelease
  exact ⟨_, hrelease⟩

theorem pop_alone {k : ℕ} {data : ℕ → α}
    (hr : (system cap).Run noWrap tr ⟨data, k + 1, k + 1, k, k, fun _ : τ => .idle⟩)
    (hk : k + 1 < 2 ^ 31) (hcap : 2 ^ 31 ≤ cap) (t : τ) : ∃ tr' : List (Event τ α),
      (system cap).Run noWrap tr' ⟨data, k + 1, k + 1, k + 1, k + 1, fun _ => .idle⟩ := by
  have hmod : (k + 1) % cap = k + 1 := Nat.mod_eq_of_lt (by omega)
  have hfits : ∀ cur, some k = some cur → cur + 1 < 2 ^ 31 := by
    intro cur hcur
    rwa [← Option.some_inj.mp hcur]
  have hstart : (system cap).step ⟨data, k + 1, k + 1, k, k, fun _ : τ => .idle⟩ (.popLoad t)
      (Queue.goto ⟨data, k + 1, k + 1, k, k, fun _ : τ => .idle⟩ t (.canPop k)) := by
    refine (Step.popLoad rfl).runs ?_
    intro cur hcur
    cases hcur
  have hload : (system cap).Run noWrap (tr ++ [.popLoad t]) _ := hr.step trivial hstart
  have hcheck := run_on hload hfits (.popChecked goto_pc_self (Nat.succ_ne_self k).symm) rfl trivial
  have hclaim := run_on hcheck hfits (.popClaimed goto_pc_self rfl) rfl (by
    rw [noWrap, hist_concat, hist_concat]
    exact Function.update_self ..)
  have hread := run_on hclaim hfits (.read goto_pc_self) rfl trivial
  have hreturn := run_on hread hfits (.popReleased goto_pc_self rfl) rfl trivial
  simp only [Queue.goto, Function.update_idem, idle_update, hmod] at hreturn
  exact ⟨_, hreturn⟩

/-- A thread that is alone pushes and pops in turn. -/
theorem alternate (hcap : 2 ^ 31 ≤ cap) (t : τ) (val : α) (k : ℕ) (hk : k < 2 ^ 31) :
    ∃ (tr : List (Event τ α)) (data : ℕ → α),
      (system cap).Run noWrap tr ⟨data, k, k, k, k, fun _ => .idle⟩ := by
  induction k with
  | zero => exact ⟨[], fun _ => val, .start ⟨_, rfl⟩⟩
  | succ k ih =>
    obtain ⟨tr, data, hr⟩ := ih (by omega)
    obtain ⟨tr', hpush⟩ := push_alone hr hk hcap t val
    obtain ⟨tr'', hpop⟩ := pop_alone hpush hk hcap t
    exact ⟨tr'', _, hpop⟩

/-- The push of a thread that has brought the indices to the largest `int` is undefined, although
no exchange has succeeded on a stale index. -/
theorem exists_undefined (hcap : 2 ^ 31 ≤ cap) (t : τ) (val : α) :
    ∃ (tr : List (Event τ α)) (q : Queue τ α), (system cap).Run noWrap tr q ∧ ¬ Defined cap q := by
  obtain ⟨tr, data, hr⟩ := alternate hcap t val (2 ^ 31 - 1) (by decide)
  have hstart : (system cap).step
      ⟨data, 2 ^ 31 - 1, 2 ^ 31 - 1, 2 ^ 31 - 1, 2 ^ 31 - 1, fun _ => .idle⟩ (.pushLoad t val)
      (Queue.goto ⟨data, 2 ^ 31 - 1, 2 ^ 31 - 1, 2 ^ 31 - 1, 2 ^ 31 - 1, fun _ : τ => .idle⟩ t
        (.canPush val (2 ^ 31 - 1))) := by
    refine (Step.pushLoad val rfl).runs ?_
    intro cur hcur
    cases hcur
  have hload : (system cap).Run noWrap (tr ++ [.pushLoad t val]) _ := hr.step trivial hstart
  refine ⟨_, _, hload, ?_⟩
  intro hdefined
  obtain ⟨r, hnext⟩ := hdefined t .pop
  have hover : succIdx cap (2 ^ 31 - 1) = none := if_neg (by decide)
  simp only [next, goto_pc_self, canPush, hover] at hnext
  cases hnext

end overflow

end step

end ModCpp.LocklessQueue
