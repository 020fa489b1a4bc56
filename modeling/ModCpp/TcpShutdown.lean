import ModCpp.TcpLifetime

/-!
# The end of a sender

`~TCP_Sender` sets the flags of both threads and joins them. The timer thread looks at its flag
and ends. The handler thread never looks at its own, so it ends only if it still wakes up, and no
more than one tick is left to wake it.
-/

namespace ModCpp.Tcp
variable {S R : ℕ}

/-- Before the test of `terminate_timer_thread`, before the tick that follows, or at the end. -/
inductive TimerAt
  | test
  | sleep
  | terminated
  deriving DecidableEq

inductive DestructorAt
  | notCalled
  | joinTimer
  | joinHandler
  | returned
  deriving DecidableEq

structure Life where
  pair : Pair
  timerAt : TimerAt
  destructorAt : DestructorAt

inductive Move
  | thread (a : Action)
  | timerTest
  | timerTick
  | destroy
  | joinTimer
  | joinHandler

/-- Nobody calls a function of a sender that is being destroyed. A tick is a move of its own. -/
def DestructorAt.allows (d : DestructorAt) : Action → Bool
  | .tick => false
  | .tcpConnect | .tcpSend _ => d = .notCalled
  | .tcpRecv | .recver | .handlerWakes | .handlerAck | .handlerTimeout => d ≠ .returned

def Life.next (S R : ℕ) (w : Life) : Move → Option Life
  | .thread a =>
    if w.destructorAt.allows a then (w.pair.next S R a).map fun pair => { w with pair } else none
  | .timerTest =>
    if w.timerAt = .test then
      some { w with timerAt := if w.destructorAt = .notCalled then .sleep else .terminated }
    else none
  | .timerTick =>
    if w.timerAt = .sleep then
      (w.pair.next S R .tick).map fun pair => { w with pair, timerAt := .test }
    else none
  | .destroy =>
    if w.destructorAt = .notCalled then some { w with destructorAt := .joinTimer } else none
  | .joinTimer =>
    if w.destructorAt = .joinTimer ∧ w.timerAt = .terminated then
      some { w with destructorAt := .joinHandler }
    else none
  | .joinHandler =>
    if w.destructorAt = .joinHandler ∧ w.pair.handlerAt = .terminated then
      some { w with destructorAt := .returned }
    else none

def lifeSystem (S R : ℕ) : System Life Move where
  init w := w.pair.init ∧ w.timerAt = .test ∧ w.destructorAt = .notCalled
  step w m w' := w.next S R m = some w'

variable {w w' : Life} {m : Move} {tr : List Move}

inductive Life.Step (S R : ℕ) (w : Life) : Move → Life → Prop
  | thread {a : Action} {pair : Pair} (hallows : w.destructorAt.allows a = true)
      (hpair : w.pair.next S R a = some pair) : Step S R w (.thread a) { w with pair }
  | timerTest (htest : w.timerAt = .test) : Step S R w .timerTest
      { w with timerAt := if w.destructorAt = .notCalled then .sleep else .terminated }
  | timerTick (hsleep : w.timerAt = .sleep) : Step S R w .timerTick
      { w with pair := { w.pair with net := w.pair.net.tick }, timerAt := .test }
  | destroy (hnot : w.destructorAt = .notCalled) :
      Step S R w .destroy { w with destructorAt := .joinTimer }
  | joinTimer (hat : w.destructorAt = .joinTimer) (hended : w.timerAt = .terminated) :
      Step S R w .joinTimer { w with destructorAt := .joinHandler }
  | joinHandler (hat : w.destructorAt = .joinHandler) (hended : w.pair.handlerAt = .terminated) :
      Step S R w .joinHandler { w with destructorAt := .returned }

/-- What a run that sends less than `2 ^ 31` bytes makes of the network. -/
def Reached (S R : ℕ) (n : Net) : Prop :=
  ∃ tr, (system S R).Run System.always tr n ∧ (hist tr).calls < 2 ^ 31

theorem Reached.next {p p' : Pair} {a : Action} (h : Reached S R p.net) (ha : a.isSend = false)
    (hstep : p.next S R a = some p') : Reached S R p'.net := by
  obtain ⟨tr, hr, hcalls⟩ := h
  rcases exists_net_step hstep with ⟨hsame, -⟩ | ⟨e, hnext, hcount⟩
  · exact ⟨tr, hsame ▸ hr, hcalls⟩
  · refine ⟨tr ++ [e], .step hr trivial hnext, ?_⟩
    rw [hist_concat, hcount, ha]
    exact hcalls

structure Joins (w : Life) : Prop where
  timer : w.destructorAt = .joinHandler ∨ w.destructorAt = .returned → w.timerAt = .terminated
  handler : w.destructorAt = .returned → w.pair.handlerAt = .terminated

theorem DestructorAt.not_returned {d : DestructorAt} {a : Action} (h : d.allows a = true) :
    d ≠ .returned := by
  rintro rfl
  cases a <;> cases h

theorem Joins.step (h : Joins w) (hstep : w.Step S R m w') : Joins w' := by
  cases hstep with
  | thread hallows _ => exact ⟨h.timer, fun hd => absurd hd (DestructorAt.not_returned hallows)⟩
  | timerTest htest =>
    refine ⟨fun hd => ?_, h.handler⟩
    have hended := h.timer hd
    rw [htest] at hended
    cases hended
  | timerTick hsleep =>
    refine ⟨fun hd => ?_, h.handler⟩
    have hended := h.timer hd
    rw [hsleep] at hended
    cases hended
  | destroy _ =>
    constructor
    · rintro (hd | hd) <;> cases hd
    · intro hd
      cases hd
  | joinTimer _ hended =>
    refine ⟨fun _ => hended, ?_⟩
    intro hd
    cases hd
  | joinHandler hat hended => exact ⟨fun _ => h.timer (.inl hat), fun _ => hended⟩

/-- The destructor has been called. -/
structure Ending (S R : ℕ) (w : Life) : Prop where
  called : w.destructorAt ≠ .notCalled
  joins : Joins w
  net : Reached S R w.pair.net

theorem DestructorAt.not_send {d : DestructorAt} {a : Action} (hd : d ≠ .notCalled)
    (h : d.allows a = true) : a.isSend = false := by
  cases a with
  | tcpSend data => exact absurd (of_decide_eq_true h) hd
  | _ => rfl

theorem Ending.step (h : Ending S R w) (hstep : w.Step S R m w') : Ending S R w' := by
  refine ⟨?_, h.joins.step hstep, ?_⟩
  · cases hstep with
    | thread _ _ | timerTest _ | timerTick _ => exact h.called
    | destroy _ | joinTimer _ _ | joinHandler _ _ => simp
  · cases hstep with
    | thread hallows hpair => exact h.net.next (DestructorAt.not_send h.called hallows) hpair
    | timerTick _ => exact h.net.next (a := .tick) rfl rfl
    | timerTest _ | destroy _ | joinTimer _ _ | joinHandler _ _ => exact h.net

/-- The handler's thread waits, and neither a tick nor the receiver's thread will wake it. -/
structure Life.Asleep (w : Life) : Prop where
  waits : w.pair.handlerAt = .wait
  counter : ¬ timeOutLimit ≤ w.pair.net.sender.tcpCounter
  acks : w.pair.net.ackQueue = []
  tick : w.timerAt = .sleep → ¬ timeOutLimit ≤ w.pair.net.tick.sender.tcpCounter
  recver : w.pair.recverTerminated = true ∨ w.pair.net.pktQueue = []

theorem Life.Asleep.thread {a : Action} {pair : Pair} (h : w.Asleep)
    (hcalled : w.destructorAt ≠ .notCalled) (hallows : w.destructorAt.allows a = true)
    (hpair : w.pair.next S R a = some pair) : ({ w with pair } : Life).Asleep := by
  cases a with
  | tcpConnect => exact absurd (of_decide_eq_true hallows) hcalled
  | tcpSend data => exact absurd (of_decide_eq_true hallows) hcalled
  | tick => cases hallows
  | tcpRecv =>
    cases hpair
    rw [Net.tcpRecv]
    split <;> exact ⟨h.waits, h.counter, h.acks, h.tick, h.recver⟩
  | recver =>
    rw [Pair.next, if_pos h.recver] at hpair
    cases hpair
  | handlerWakes =>
    rw [Pair.next, if_neg] at hpair
    · cases hpair
    · rintro ⟨-, hlimit | hacks⟩
      · exact h.counter hlimit
      · exact hacks h.acks
  | handlerAck =>
    rw [Pair.next, h.waits] at hpair
    cases hpair
  | handlerTimeout =>
    rw [Pair.next, h.waits] at hpair
    cases hpair

/-- A handler's thread that nothing will wake waits for ever. -/
theorem Life.Asleep.step (h : w.Asleep) (hcalled : w.destructorAt ≠ .notCalled)
    (hstep : w.Step S R m w') : w'.Asleep := by
  cases hstep with
  | thread hallows hpair => exact h.thread hcalled hallows hpair
  | timerTest _ =>
    refine ⟨h.waits, h.counter, h.acks, ?_, h.recver⟩
    rw [if_neg hcalled]
    intro hsleep
    cases hsleep
  | timerTick hsleep =>
    refine ⟨h.waits, h.tick hsleep, h.acks, ?_, h.recver⟩
    intro hsleep
    cases hsleep
  | destroy _ | joinTimer _ _ | joinHandler _ _ =>
    exact ⟨h.waits, h.counter, h.acks, h.tick, h.recver⟩

def CanReturn (S R : ℕ) (w : Life) : Prop :=
  ∃ rest w', ((lifeSystem S R).resumed w).Run System.always rest w' ∧ w'.destructorAt = .returned

theorem CanReturn.of_step (hstep : w.next S R m = some w') (h : CanReturn S R w') :
    CanReturn S R w := by
  obtain ⟨rest, w'', hrest, hret⟩ := h
  exact ⟨m :: rest, w'', System.resumed_cons hstep hrest, hret⟩

theorem Ending.not_returned (h : Ending S R w) (hat : w.pair.handlerAt ≠ .terminated) :
    w.destructorAt ≠ .returned := fun hret => hat (h.joins.handler hret)

end ModCpp.Tcp
