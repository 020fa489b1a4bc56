import ModCpp.LocklessStackChain
import ModCpp.Progress

/-!
# Progress of the lockless stack

No thread ever waits for another one. An exchange fails only for no reason or because `head` has
been exchanged in the meantime, so where none fails for no reason a run does a bounded amount of
work for each call, and a thread that is left alone ends its call in a few steps.
-/

namespace ModCpp.LocklessStack
variable {τ κ α : Type*} {s s' : Stack τ κ α} {e : Event τ κ α} {t u : τ} {n : ℕ}

def Event.thread : Event τ κ α → τ
  | .pushNew t _ _ | .pushLoad t | .pushLink t | .pushExchange t _ _ _ | .popLoad t => t
  | .popEmpty t | .popPrev t _ | .popExchange t _ _ | .popRead t _ | .popDelete t _ _ => t

def Event.Opens : Event τ κ α → Prop
  | .pushNew _ _ _ => True
  | .popLoad _ => True
  | _ => False

instance : DecidablePred (Event.Opens : Event τ κ α → Prop)
  | .pushNew _ _ _ | .popLoad _ => inferInstanceAs (Decidable True)
  | .pushLoad _ | .pushLink _ | .pushExchange _ _ _ _ | .popEmpty _ | .popPrev _ _
  | .popExchange _ _ _ | .popRead _ _ | .popDelete _ _ _ => inferInstanceAs (Decidable False)

/-- What `head` is compared with. -/
def Pc.compared : Pc κ α → Option (Option κ)
  | .pushExchange _ _ curHead => some curHead
  | .popExchange curHead _ => some (some curHead)
  | _ => none

/-- The exchange fails although `head` is what it is compared with. -/
def Spurious (s : Stack τ κ α) : Event τ κ α → Prop
  | .pushExchange t _ _ false => (s.pc t).compared = some s.head
  | .popExchange t _ false => (s.pc t).compared = some s.head
  | _ => False

instance [DecidableEq κ] (s : Stack τ κ α) : (e : Event τ κ α) → Decidable (Spurious s e)
  | .pushExchange _ _ _ false | .popExchange _ _ false => inferInstanceAs (Decidable (_ = _))
  | .pushExchange _ _ _ true | .popExchange _ _ true | .pushNew _ _ _ | .pushLoad _ | .pushLink _
  | .popLoad _ | .popEmpty _ | .popPrev _ _ | .popRead _ _ | .popDelete _ _ _ =>
    inferInstanceAs (Decidable False)

section rank

theorem reads_elim {β : Type*} (field : Node κ α → β) (n : Option (Node κ α)) (any : β) :
    Reads field n (n.elim any field) := by
  intro m hm
  rw [Option.mem_def.mp hm]
  rfl

variable [DecidableEq κ]

/-- What a value of `head` read some time ago costs. -/
def staleness (head cur : Option κ) : ℕ := if head = cur then 0 else 2

theorem staleness_le (head cur : Option κ) : staleness head cur ≤ 2 := by
  rw [staleness]
  split_ifs <;> omega

@[simp] theorem staleness_self (head : Option κ) : staleness head head = 0 := if_pos rfl

theorem staleness_ne {head cur : Option κ} (h : head ≠ cur) : staleness head cur = 2 := if_neg h

/-- How many steps a call among `n` may still take, with those that the others cause it. -/
def callRank (n : ℕ) (head : Option κ) : Pc κ α → ℕ
  | .idle => 0
  | .pushLoad _ _ => 2 * n + 5
  | .pushLink _ _ curHead => 2 * n + 4 + staleness head curHead
  | .pushExchange _ _ curHead => 2 * n + 3 + staleness head curHead
  | .popTest curHead => 2 * n + 4 + staleness head curHead
  | .popExchange curHead _ => 2 * n + 3 + staleness head (some curHead)
  | .popRead _ => 2
  | .popDelete _ _ => 1

theorem callRank_le (head : Option κ) (p : Pc κ α) : callRank n head p ≤ 2 * n + 6 := by
  cases p with
  | pushLink data newNode curHead | pushExchange data newNode curHead | popTest curHead =>
    have := staleness_le head curHead
    rw [callRank]
    omega
  | popExchange curHead prev =>
    have := staleness_le head (some curHead)
    rw [callRank]
    omega
  | _ =>
    rw [callRank]
    omega

/-- An exchange of `head` costs another call two steps at most. -/
theorem callRank_exchanged (head head' : Option κ) (p : Pc κ α) :
    callRank n head' p ≤ callRank n head p + 2 := by
  cases p with
  | pushLink data newNode curHead | pushExchange data newNode curHead | popTest curHead =>
    have := staleness_le head' curHead
    simp only [callRank]
    omega
  | popExchange curHead prev =>
    have := staleness_le head' (some curHead)
    simp only [callRank]
    omega
  | _ =>
    simp only [callRank]
    omega

@[simp] theorem write_head {a : κ} {node : Option (Node κ α)} :
    (s.write a node).head = s.head := rfl

def Stack.rank [Fintype τ] (s : Stack τ κ α) : ℕ :=
  ∑ t, callRank (Fintype.card τ) s.head (s.pc t)

theorem rank_le [Fintype τ] (s : Stack τ κ α) :
    s.rank ≤ Fintype.card τ * (2 * Fintype.card τ + 6) := sum_le_card_mul fun _ => callRank_le ..

variable [DecidableEq τ]

theorem Step.pc_ne (hs : Step s e s') (hu : u ≠ e.thread) : s'.pc u = s.pc u := by
  cases hs <;> exact goto_pc_ne hu

theorem own_goto {p : Pc κ α} (hhead : s'.head = s.head)
    (hlt : callRank n s.head p < callRank n s.head (s.pc t)) :
    callRank n (s'.goto t p).head ((s'.goto t p).pc t) +
      (if (s'.goto t p).head = s.head then 0 else 2 * n) < callRank n s.head (s.pc t) := by
  rw [goto_pc_self, goto_head, hhead, if_pos rfl]
  exact hlt

/-- The step of a thread brings its own call nearer to its end, by more than the step can cost
the others. -/
theorem Step.own_lt (n : ℕ) (hs : Step s e s') (ho : ¬ e.Opens) (hsp : ¬ Spurious s e) :
    callRank n s'.head (s'.pc e.thread) + (if s'.head = s.head then 0 else 2 * n) <
      callRank n s.head (s.pc e.thread) := by
  cases hs with
  | pushNew | popLoad => exact absurd trivial ho
  | @pushLoad t data newNode hpc =>
    apply own_goto rfl
    rw [hpc, callRank, callRank, staleness_self]
    omega
  | @pushLink t data newNode curHead hpc =>
    apply own_goto write_head
    rw [hpc, callRank, callRank]
    omega
  | @pushSwapped t data newNode curHead hpc hhead =>
    rw [Event.thread, goto_pc_self, hpc, callRank, callRank]
    split_ifs <;> omega
  | @pushRetried t data newNode curHead hpc =>
    have hne : s.head ≠ curHead := by
      rintro rfl
      exact hsp (by rw [Spurious, hpc, Pc.compared])
    apply own_goto rfl
    rw [hpc, callRank, callRank, staleness_self, staleness_ne hne]
    omega
  | @popEmpty t hpc =>
    apply own_goto rfl
    rw [hpc, callRank, callRank]
    omega
  | @popPrev t curHead prev hpc _ =>
    apply own_goto rfl
    rw [hpc, callRank, callRank]
    omega
  | @popSwapped t curHead prev hpc hhead =>
    rw [Event.thread, goto_pc_self, hpc, callRank, callRank]
    split_ifs <;> omega
  | @popRetried t curHead prev hpc =>
    have hne : s.head ≠ some curHead := by
      intro hhead
      exact hsp (by rw [Spurious, hpc, Pc.compared, hhead])
    apply own_goto rfl
    rw [hpc, callRank, callRank, staleness_self, staleness_ne hne]
    omega
  | @popRead t curHead ans hpc _ =>
    apply own_goto rfl
    rw [hpc, callRank, callRank]
    omega
  | @popDelete t curHead ans hpc =>
    apply own_goto write_head
    rw [hpc, callRank, callRank]
    omega

theorem Step.own_open (n : ℕ) (hs : Step s e s') (ho : e.Opens) : s'.head = s.head ∧
    callRank n s'.head (s'.pc e.thread) ≤ callRank n s.head (s.pc e.thread) + (2 * n + 5) := by
  cases hs with
  | pushNew data hpc _ =>
    refine ⟨rfl, ?_⟩
    rw [Event.thread, goto_pc_self, callRank]
    omega
  | popLoad hpc =>
    refine ⟨rfl, ?_⟩
    rw [Event.thread, goto_pc_self, goto_head, callRank, staleness_self]
    omega
  | _ => exact absurd ho id

section threads
variable [Fintype τ]

theorem Step.rank_lt (hs : Step s e s') (ho : ¬ e.Opens) (hsp : ¬ Spurious s e) :
    s'.rank < s.rank := by
  have hown := hs.own_lt (Fintype.card τ) ho hsp
  by_cases hhead : s'.head = s.head
  · rw [if_pos hhead] at hown
    apply sum_lt_of_drop (d := 0) (t := e.thread)
    · intro u hu
      rw [hs.pc_ne hu, hhead]
      exact le_rfl
    · omega
  · rw [if_neg hhead] at hown
    apply sum_lt_of_drop (d := 2) (t := e.thread)
    · intro u hu
      rw [hs.pc_ne hu]
      exact callRank_exchanged ..
    · omega

theorem Step.rank_open (hs : Step s e s') (ho : e.Opens) :
    s'.rank ≤ s.rank + (2 * Fintype.card τ + 5) := by
  obtain ⟨hhead, hown⟩ := hs.own_open (Fintype.card τ) ho
  have hsum : s'.rank + callRank (Fintype.card τ) s.head (s.pc e.thread) =
      s.rank + callRank (Fintype.card τ) s'.head (s'.pc e.thread) := by
    apply sum_step (f := fun u => callRank (Fintype.card τ) s.head (s.pc u))
      (g := fun u => callRank (Fintype.card τ) s'.head (s'.pc u))
    intro u hu
    rw [hs.pc_ne hu, hhead]
  omega

end threads

section progress
variable [DecidableEq α]

theorem exists_step [Inhabited α] (ht : s.pc t ≠ .idle) : ∃ e s', e.thread = t ∧ ¬ Event.Opens e ∧
    ¬ Spurious s e ∧ system.step s e s' := by
  have hnext : ∃ e, e.thread = t ∧ ¬ Event.Opens e ∧ ¬ Spurious s e ∧ (next s e).isSome := by
    cases hpc : s.pc t with
    | idle => exact absurd hpc ht
    | pushLoad data newNode =>
      refine ⟨.pushLoad t, rfl, id, id, ?_⟩
      rw [next, hpc]
      rfl
    | pushLink data newNode curHead =>
      refine ⟨.pushLink t, rfl, id, id, ?_⟩
      rw [next, hpc]
      rfl
    | pushExchange data newNode curHead =>
      by_cases hhead : s.head = curHead
      · refine ⟨.pushExchange t data newNode true, rfl, id, id, ?_⟩
        simp [next, hpc, hhead]
      · refine ⟨.pushExchange t data newNode false, rfl, id, ?_, ?_⟩
        · intro hsp
          rw [Spurious, hpc, Pc.compared, Option.some_inj] at hsp
          exact hhead hsp.symm
        · simp [next, hpc]
    | popTest curHead =>
      cases curHead with
      | none =>
        refine ⟨.popEmpty t, rfl, id, id, ?_⟩
        rw [next, hpc]
        rfl
      | some curHead =>
        have hread := reads_elim Node.prev (s.mem curHead) none
        refine ⟨.popPrev t ((s.mem curHead).elim none Node.prev), rfl, id, id, ?_⟩
        simp [next, hpc, hread]
    | popExchange curHead prev =>
      by_cases hhead : s.head = some curHead
      · refine ⟨.popExchange t curHead true, rfl, id, id, ?_⟩
        simp [next, hpc, hhead]
      · refine ⟨.popExchange t curHead false, rfl, id, ?_, ?_⟩
        · intro hsp
          rw [Spurious, hpc, Pc.compared, Option.some_inj] at hsp
          exact hhead hsp.symm
        · simp [next, hpc]
    | popRead curHead =>
      have hread := reads_elim Node.data (s.mem curHead) default
      refine ⟨.popRead t ((s.mem curHead).elim default Node.data), rfl, id, id, ?_⟩
      simp [next, hpc, hread]
    | popDelete curHead ans =>
      refine ⟨.popDelete t curHead ans, rfl, id, id, ?_⟩
      simp [next, hpc]
  obtain ⟨e, hthread, ho, hsp, hsome⟩ := hnext
  obtain ⟨s', hs⟩ := Option.isSome_iff_exists.mp hsome
  exact ⟨e, s', hthread, ho, hsp, hs⟩

/-- The steps of the stack where no exchange fails for no reason. -/
def strong : System (Stack τ κ α) (Event τ κ α) := system.restrict fun s e => ¬ Spurious s e

/-- The stack is lock-free. In whatever state it is left, from there on the steps that open no
call are bounded by the number of calls as long as no exchange fails for no reason, and every
thread that is in a call can take such a step. -/
theorem lock_free [Fintype τ] [Inhabited α] (s : Stack τ κ α) (rest : List (Event τ κ α))
    (s' : Stack τ κ α)
    (hr : (strong.resumed s).Run System.always rest s') :
    (rest.filter (¬ ·.Opens)).length ≤ Fintype.card τ * (2 * Fintype.card τ + 6) +
      (2 * Fintype.card τ + 5) * (rest.filter (·.Opens)).length ∧
    ∀ t, s'.pc t ≠ .idle → ∃ e s'', e.thread = t ∧ ¬ Event.Opens e ∧ strong.step s' e s'' := by
  constructor
  · have hopens : ∀ (s : Stack τ κ α) e s', strong.step s e s' → e.Opens →
        ¬ ¬ e.Opens ∧ s'.rank ≤ s.rank + (2 * Fintype.card τ + 5) := by
      intro s e s' hs ho
      exact ⟨not_not.mpr ho, (step_cases hs.2).rank_open ho⟩
    have hworks : ∀ (s : Stack τ κ α) e s', strong.step s e s' → ¬ e.Opens →
        s'.rank < s.rank := by
      intro s e s' hs ho
      exact (step_cases hs.2).rank_lt ho hs.1
    have hle := System.work_le (S := strong.resumed s) Stack.rank Event.Opens (¬ ·.Opens) s.rank
      (2 * Fintype.card τ + 5) (fun _ hi => (congrArg Stack.rank hi).le) hopens hworks
      (fun _ _ _ _ ho hw => absurd ho hw) hr
    have := rank_le s
    omega
  · intro t ht
    obtain ⟨e, s'', hthread, ho, hsp, hs⟩ := exists_step ht
    exact ⟨e, s'', hthread, ho, hsp, hs⟩

/-- Left alone, a thread ends its call within six steps, in whatever state the others have
stopped. -/
theorem solo_finishes [Inhabited α] (s : Stack τ κ α) (t : τ) :
    (∀ rest s', (strong.resumed s).Run System.always rest s' →
      (∀ e ∈ rest, e.thread = t ∧ ¬ e.Opens) → rest.length ≤ 6) ∧
    ∃ rest s', (strong.resumed s).Run System.always rest s' ∧
      (∀ e ∈ rest, e.thread = t ∧ ¬ e.Opens) ∧ s'.pc t = .idle := by
  have hlt : ∀ (s : Stack τ κ α) e s', strong.step s e s' → e.thread = t ∧ ¬ e.Opens →
      callRank 0 s'.head (s'.pc t) < callRank 0 s.head (s.pc t) := by
    intro s e s' hs he
    have hown := (step_cases hs.2).own_lt 0 he.2 hs.1
    rw [he.1] at hown
    omega
  have hstart := callRank_le (n := 0) s.head (s.pc t)
  constructor
  · intro rest s' hr halone
    have hlen : rest.length + callRank 0 s'.head (s'.pc t) ≤ callRank 0 s.head (s.pc t) := by
      induction hr with
      | start hi =>
        cases hi
        exact (Nat.zero_add _).le
      | step _ _ hs ih =>
        have hle := ih fun x hx => halone x (List.mem_append_left _ hx)
        have := hlt _ _ _ hs (halone _ (by simp))
        rw [List.length_append, List.length_singleton]
        omega
    omega
  · have hbusy : ∀ tr (s' : Stack τ κ α), (strong.resumed s).Run System.always tr s' →
        s'.pc t ≠ .idle → ∃ e s'', (e.thread = t ∧ ¬ Event.Opens e) ∧ System.always tr e ∧
          (strong.resumed s).step s' e s'' := by
      intro tr s' _ ht
      obtain ⟨e, s'', hthread, ho, hsp, hs⟩ := exists_step ht
      exact ⟨e, s'', ⟨hthread, ho⟩, trivial, hsp, hs⟩
    obtain ⟨rest, s', hr, hall, _, hdone⟩ :=
      System.exists_done (S := strong.resumed s) (fun s' => callRank 0 s'.head (s'.pc t))
        (fun e => e.thread = t ∧ ¬ e.Opens) (fun s' => s'.pc t ≠ .idle) hlt hbusy (.start rfl)
    exact ⟨rest, s', hr, hall, not_not.mp hdone⟩

end progress
end rank

/-- Two pushes meet; one exchange fails and its push tries again. -/
theorem lock_free_sample : ∃ (s : Stack Bool ℕ ℕ) (rest : List (Event Bool ℕ ℕ)),
    (rest.filter (¬ ·.Opens)).length = 8 ∧ (rest.filter (¬ ·.Opens)).length ≤ 2 * 10 + 9 * 2 ∧
    s.head = some 1 := by
  have hr : ∃ s, ((strong (κ := ℕ)).resumed ⟨none, fun _ => none, fun _ => .idle⟩).Run
      System.always [.pushNew true 7 0, .pushNew false 8 1, .pushLoad true, .pushLoad false,
        .pushLink true, .pushLink false, .pushExchange true 7 0 true,
        .pushExchange false 8 1 false, .pushLink false, .pushExchange false 8 1 true] s ∧
      s.head = some 1 :=
    ⟨_, System.run_of_exec (System.restrictExec_step (S := system) fun _ _ _ h => h) rfl rfl, rfl⟩
  obtain ⟨s, hr, hhead⟩ := hr
  exact ⟨s, _, by decide, (lock_free _ _ _ hr).1, hhead⟩

end ModCpp.LocklessStack
