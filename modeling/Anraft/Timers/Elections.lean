import Anraft.Base.Trace
import Anraft.Timers.Effects

/-!
# The length of a restarted election timer

`election_elapsed_` counts up to a threshold between one and two timeouts. A restart
is to leave at least one whole timeout to go. `Reset` draws the threshold and leaves
the counter where it is, so a node that enters a role with an old counter may find the
new threshold reached already. In any state the timer runs out within two timeouts.
-/

namespace Anraft

/-- A call of `Tick`. -/
def Raft.Input.isTick : Raft.Input → Bool
  | .tick _ => true
  | .step .. => false

namespace Raft

variable {u : Unspecified} {r r' : Raft} {msg : Message} {i : Input} {es : List Event} {T : ℕ}

/-- A timer as `Reset` sets it, which runs for everybody but a leader. -/
structure TimerSet (T : ℕ) (r : Raft) : Prop where
  pos : 1 ≤ T
  electionTimeout : r.electionTimeout = T
  elapsed_nonneg : 0 ≤ r.electionElapsed
  le_threshold : (T : ℤ) ≤ r.randomizedElectionTimeout
  threshold_lt : r.randomizedElectionTimeout < 2 * T
  role : r.tickFunc = .tickHeatbeat ↔ r.state = .stateLeader

/-- `RandGenerator(election_timeout_)` answers with a number below its argument. -/
def Unspecified.DrawsBelow (T : ℕ) (u : Unspecified) : Prop :=
  0 ≤ u.randGenerator ∧ u.randGenerator < T

instance (T : ℕ) (u : Unspecified) : Decidable (u.DrawsBelow T) :=
  inferInstanceAs (Decidable (_ ∧ _))

/-- A call that makes the node enter a role leaves the counter no more than what the new
threshold is above the timeout. -/
def Input.HasRoom (r : Raft) : Input → Prop
  | .step u msg =>
    r.RestartsRole u msg → r.electionTimeout = 1 ∨ r.electionElapsed ≤ u.randGenerator
  | .tick _ => True

instance (r : Raft) : (i : Input) → Decidable (i.HasRoom r)
  | .step .. => inferInstanceAs (Decidable (_ → _ ∨ _))
  | .tick _ => inferInstanceAs (Decidable True)

/-! ## The timer stays set -/

namespace TimerSet

theorem of_sameTimer (hr : TimerSet T r) (h : SameTimer r r') : TimerSet T r' where
  pos := hr.pos
  electionTimeout := h.electionTimeout.trans hr.electionTimeout
  elapsed_nonneg := h.electionElapsed ▸ hr.elapsed_nonneg
  le_threshold := h.randomizedElectionTimeout ▸ hr.le_threshold
  threshold_lt := h.randomizedElectionTimeout ▸ hr.threshold_lt
  role := by
    rw [h.tickFunc, h.state]
    exact hr.role

/-- The counter may take any value that is not negative. -/
theorem of_elapsed (hr : TimerSet T r) {elapsed : ℤ} (h : 0 ≤ elapsed)
    (hsame : SameTimer { r with electionElapsed := elapsed } r') : TimerSet T r' :=
  of_sameTimer (r := { r with electionElapsed := elapsed })
    ⟨hr.pos, hr.electionTimeout, h, hr.le_threshold, hr.threshold_lt, hr.role⟩ hsame

/-- `Reset` draws a threshold between one timeout and two. -/
theorem of_intoRole (hpos : 1 ≤ T) (htimeout : r.electionTimeout = T)
    (helapsed : 0 ≤ r.electionElapsed) (hu : u.DrawsBelow T) {state : StateType}
    {tickFunc : TickFunc} (hrole : tickFunc = .tickHeatbeat ↔ state = .stateLeader) :
    TimerSet T (r.intoRole u state tickFunc) where
  pos := hpos
  electionTimeout := htimeout
  elapsed_nonneg := helapsed
  le_threshold := by
    show (T : ℤ) ≤ r.electionTimeout + u.randGenerator
    rw [htimeout]
    exact le_add_of_nonneg_right hu.1
  threshold_lt := by
    show r.electionTimeout + u.randGenerator < 2 * T
    rw [htimeout, two_mul]
    exact add_lt_add_right hu.2 _
  role := hrole

/-- `BecomeFollower` sets the timer of any node. -/
theorem becomeFollower (hpos : 1 ≤ T) (htimeout : r.electionTimeout = T)
    (helapsed : 0 ≤ r.electionElapsed) (hu : u.DrawsBelow T) (term lead : UInt64) :
    TimerSet T (r.becomeFollower u term lead) :=
  (of_intoRole hpos htimeout helapsed hu (by simp)).of_sameTimer
    (becomeFollower_sameTimer u r term lead)

theorem intoRole (hr : TimerSet T r) (hu : u.DrawsBelow T) {state : StateType}
    {tickFunc : TickFunc} (hrole : tickFunc = .tickHeatbeat ↔ state = .stateLeader) :
    TimerSet T (r.intoRole u state tickFunc) :=
  of_intoRole hr.pos hr.electionTimeout hr.elapsed_nonneg hu hrole

theorem step (hr : TimerSet T r) (hu : u.DrawsBelow T) : TimerSet T (r.step u msg).2 := by
  by_cases hrole : r.RestartsRole u msg
  · exact (hr.intoRole hu (by simp)).of_sameTimer (step_rearms hrole).1
  · cases step_timers hrole with
    | idle htimer _ => exact hr.of_sameTimer htimer
    | zeroed htimer _ => exact hr.of_elapsed le_rfl htimer
    | elected htimer _ => exact (hr.intoRole hu (by simp)).of_sameTimer htimer

theorem tick (hr : TimerSet T r) (hu : u.DrawsBelow T) : TimerSet T (r.tick u) := by
  have hnext : 0 ≤ r.electionElapsed + 1 := add_nonneg hr.elapsed_nonneg zero_le_one
  cases hfunc : r.tickFunc with
  | tickElection =>
      by_cases hfires : r.Fires
      · rw [tick_of_firing hfunc hfires]
        exact (hr.of_elapsed le_rfl (rung_sameTimer r)).step hu
      · rw [tick_of_waiting hfunc hfires]
        exact hr.of_elapsed hnext (waited_sameTimer r)
  | tickHeatbeat =>
      rcases tick_leader_cases hfunc u with ⟨elapsed, checked, helapsed, hchecked, heq⟩ | hlost
      · have hnonneg : 0 ≤ elapsed := by
          rcases helapsed with rfl | rfl
          · exact hnext
          · exact le_rfl
        have hcounted : TimerSet T ((r.record .tick).counted elapsed) :=
          hr.of_elapsed hnonneg (counted_sameTimer r elapsed)
        rw [heq]
        exact (hcounted.of_sameTimer hchecked.sameTimer).of_sameTimer (heartbeaten_timers u _).1
      · have hcounted : TimerSet T ((r.record .tick).counted 0) :=
          hr.of_elapsed le_rfl (counted_sameTimer r 0)
        have hfollower := becomeFollower hcounted.pos hcounted.electionTimeout
          hcounted.elapsed_nonneg hu r.term 0
        exact hfollower.of_sameTimer hlost.sameTimer

theorem react (hr : TimerSet T r) (hi : i.answers.DrawsBelow T) : TimerSet T (r.react i) := by
  cases i with
  | step u msg => exact hr.step hi
  | tick u => exact hr.tick hi

theorem after {inputs : List Input} (hr : TimerSet T r)
    (hdraws : ∀ i ∈ inputs, i.answers.DrawsBelow T) : TimerSet T (r.after inputs) := by
  induction inputs generalizing r with
  | nil => exact hr
  | cons i inputs ih =>
      exact ih (hr.react (hdraws i List.mem_cons_self)) fun j hj =>
        hdraws j (List.mem_cons_of_mem i hj)

end TimerSet

/-! ## Nothing fires late -/

/-- The ticks the timer still waits for. -/
def ticksLeft (r : Raft) : ℤ := max 1 (r.randomizedElectionTimeout - r.electionElapsed)

/-- No `MsgHup` of the history has come too early, and the next one will not either. -/
structure InTime (T : ℕ) (r : Raft) : Prop where
  spaced : Trace.Spaced Event.isRestart Event.isHup Event.isTick T r.history
  owes : r.tickFunc = .tickElection →
    Trace.Owes Event.isRestart Event.isHup Event.isTick T r.ticksLeft r.history

theorem RecordsUntimed.quiet (h : RecordsUntimed r r') :
    ∃ es, r'.history = r.history ++ es ∧ (∀ e ∈ es, e.isHup = false) ∧
      ∀ e ∈ es, e.isRestart = false := by
  obtain ⟨es, heq, hes⟩ := h
  refine ⟨es, heq, fun e he => ?_, fun e he => ?_⟩
  · simpa [Event.isTimed] using (Bool.or_eq_false_iff.mp (hes e he)).2
  · have hnot := hes e he
    rw [Event.isTimed, Bool.or_eq_false_iff, Bool.or_eq_false_iff] at hnot
    exact hnot.1.1

namespace InTime

theorem of_idle (hr : InTime T r) (htimer : SameTimer r r') (h : RecordsUntimed r r') :
    InTime T r' := by
  obtain ⟨es, heq, hhup, hrestart⟩ := h.quiet
  refine ⟨?_, fun hfunc => ?_⟩
  · rw [heq]
    exact hr.spaced.append hhup
  · have howed := hr.owes (htimer.tickFunc.symm.trans hfunc)
    rw [heq, ticksLeft, htimer.randomizedElectionTimeout, htimer.electionElapsed]
    exact howed.append hrestart

/-- Whatever was owed before, a full timeout to go settles it. -/
theorem of_full (hspaced : Trace.Spaced Event.isRestart Event.isHup Event.isTick T r.history)
    (hfull : (T : ℤ) ≤ r.ticksLeft) : InTime T r :=
  ⟨hspaced, fun _ => Trace.owes_of_le hfull⟩

theorem of_leader (hspaced : Trace.Spaced Event.isRestart Event.isHup Event.isTick T r.history)
    (hfunc : r.tickFunc = .tickHeatbeat) : InTime T r :=
  ⟨hspaced, fun h => by cases hfunc.symm.trans h⟩

/-- A restart that leaves a full timeout to go. -/
theorem of_restart (hr : InTime T r) (h : RecordsRestart r r') (hfull : (T : ℤ) ≤ r'.ticksLeft) :
    InTime T r' := by
  obtain ⟨es, e, heq, hes, he⟩ := h
  apply of_full ?_ hfull
  have hquiet : ∀ x ∈ es ++ [e], x.isHup = false := by
    intro x hx
    rcases List.mem_append.mp hx with hx | hx
    · exact (Bool.or_eq_false_iff.mp (hes x hx)).2
    · rw [List.mem_singleton.mp hx]
      exact Event.isHup_of_isRestart he
  rw [heq, List.append_assoc]
  exact hr.spaced.append hquiet

end InTime

/-- With the counter at zero the threshold is still to go. -/
theorem le_ticksLeft_of_zero (hset : TimerSet T r) (hzero : r.electionElapsed = 0) :
    (T : ℤ) ≤ r.ticksLeft := by
  rw [ticksLeft, hzero, sub_zero]
  exact hset.le_threshold.trans (le_max_right _ _)

theorem step_inTime (hset : TimerSet T r) (hr : InTime T r) (hu : u.DrawsBelow T)
    (hroom : Input.HasRoom r (.step u msg)) : InTime T (r.step u msg).2 := by
  by_cases hrole : r.RestartsRole u msg
  · obtain ⟨htimer, hrestart⟩ := step_rearms hrole
    apply hr.of_restart hrestart
    have hthreshold : (r.step u msg).2.randomizedElectionTimeout = T + u.randGenerator := by
      rw [← hset.electionTimeout]
      exact htimer.randomizedElectionTimeout
    have helapsed : (r.step u msg).2.electionElapsed = r.electionElapsed := htimer.electionElapsed
    rw [ticksLeft, hthreshold, helapsed]
    rcases hroom hrole with hone | hroom
    · exact (hset.electionTimeout.symm.trans hone).trans_le (le_max_left _ _)
    · exact le_max_of_le_right (by omega)
  · cases step_timers hrole with
    | idle htimer hquiet => exact hr.of_idle htimer hquiet
    | zeroed htimer hrestart =>
        exact hr.of_restart hrestart (le_ticksLeft_of_zero (hset.step hu) htimer.electionElapsed)
    | elected htimer hquiet =>
        obtain ⟨es, heq, hhup, -⟩ := hquiet.quiet
        refine .of_leader ?_ htimer.tickFunc
        rw [heq]
        exact hr.spaced.append hhup

/-- A tick alone is no `MsgHup`. -/
theorem InTime.ticked (hr : InTime T r) :
    Trace.Spaced Event.isRestart Event.isHup Event.isTick T (r.history ++ [.tick]) :=
  hr.spaced.snoc fun hhup => absurd hhup Bool.false_ne_true

/-- A tick brings the end of the timer nearer by one. -/
theorem InTime.waited (hr : InTime T r) : InTime T r.waited where
  spaced := hr.ticked
  owes hfunc := by
    refine (hr.owes hfunc).snoc (fun hstart => absurd hstart Bool.false_ne_true) fun _ => ?_
    show max 1 (r.randomizedElectionTimeout - r.electionElapsed) ≤
      1 + max 1 (r.randomizedElectionTimeout - (r.electionElapsed + 1))
    omega

/-- The tick at which the timer runs out pays what was still owed. -/
theorem InTime.rung (hset : TimerSet T r) (hr : InTime T r) (hfunc : r.tickFunc = .tickElection)
    (hfires : r.Fires) : InTime T r.rung := by
  have hone : r.ticksLeft ≤ 1 := max_le le_rfl (by have := hfires.2; omega)
  have hpaid : Trace.Owes Event.isRestart Event.isHup Event.isTick T 0 (r.history ++ [.tick]) :=
    (hr.owes hfunc).snoc (fun hstart => absurd hstart Bool.false_ne_true) fun _ => hone
  exact .of_full (hr.ticked.snoc fun _ => hpaid)
    (le_ticksLeft_of_zero (hset.of_elapsed le_rfl (rung_sameTimer r)) rfl)

theorem tick_inTime (hset : TimerSet T r) (hr : InTime T r) (hu : u.DrawsBelow T) :
    InTime T (r.tick u) := by
  cases hfunc : r.tickFunc with
  | tickElection =>
      by_cases hfires : r.Fires
      · rw [tick_of_firing hfunc hfires]
        have hrung := hset.of_elapsed le_rfl (rung_sameTimer r)
        exact step_inTime hrung (hr.rung hset hfunc hfires) hu fun _ => .inr hu.1
      · rw [tick_of_waiting hfunc hfires]
        exact hr.waited
  | tickHeatbeat =>
      rcases tick_leader_cases hfunc u with ⟨elapsed, checked, -, hchecked, heq⟩ | hlost
      · have hkept : InTime T checked := by
          refine .of_leader ?_ (hchecked.sameTimer.tickFunc.trans hfunc)
          rw [hchecked.history]
          exact hr.ticked
        obtain ⟨htimer, hquiet⟩ := heartbeaten_timers u checked
        rw [heq]
        exact hkept.of_idle htimer hquiet
      · refine .of_full ?_ (le_ticksLeft_of_zero (hset.tick hu) hlost.sameTimer.electionElapsed)
        rw [hlost.history]
        exact hr.ticked.snoc fun hhup => by cases hhup

theorem react_inTime (hset : TimerSet T r) (hr : InTime T r) (hi : i.answers.DrawsBelow T)
    (hroom : i.HasRoom r) : InTime T (r.react i) := by
  cases i with
  | step u msg => exact step_inTime hset hr hi hroom
  | tick u => exact tick_inTime hset hr hi

theorem after_inTime {inputs : List Input} (hset : TimerSet T r) (hr : InTime T r)
    (hdraws : ∀ i ∈ inputs, i.answers.DrawsBelow T)
    (hroom : machine.Along (fun r i => i.HasRoom r) r inputs) : InTime T (r.after inputs) := by
  induction inputs generalizing r with
  | nil => exact hr
  | cons i inputs ih =>
      rw [Machine.along_ofFun_cons] at hroom
      have hi := hdraws i List.mem_cons_self
      have hrest : ∀ j ∈ inputs, j.answers.DrawsBelow T := fun j hj =>
        hdraws j (List.mem_cons_of_mem i hj)
      exact ih (hset.react hi) (react_inTime hset hr hi hroom.1) hrest hroom.2

/-- The node after `n` ticks that only count. -/
def waitedFor (r : Raft) (n : ℕ) : Raft :=
  { r with
    electionElapsed := r.electionElapsed + n
    history := r.history ++ List.replicate n .tick }

theorem waitedFor_zero (r : Raft) : r.waitedFor 0 = r := by
  simp [waitedFor]

theorem waitedFor_waited (r : Raft) (n : ℕ) : (r.waitedFor n).waited = r.waitedFor (n + 1) := by
  simp [waitedFor, waited, record, List.replicate_succ', add_assoc]

theorem after_ticks_of_waiting (hfunc : r.tickFunc = .tickElection) {us : List Unspecified}
    (hlen : us.length < r.ticksLeft) : r.after (ticks us) = r.waitedFor us.length := by
  induction us using List.reverseRecOn with
  | nil => exact (waitedFor_zero r).symm
  | append_singleton us u ih =>
      rw [List.length_append, List.length_singleton, ticksLeft, Nat.cast_add, Nat.cast_one] at hlen
      have hwaits : ¬ (r.waitedFor us.length).Fires := by
        rintro ⟨-, hdue⟩
        have hdue : r.randomizedElectionTimeout ≤ r.electionElapsed + us.length + 1 := hdue
        omega
      rw [ticks_append, after_append, ih (by rw [ticksLeft]; omega), List.length_append]
      exact (tick_of_waiting (r := r.waitedFor us.length) hfunc hwaits u).trans
        (waitedFor_waited r us.length)

/-- **Left alone, the timer runs out** at the tick it waits for. -/
theorem hup_after_ticksLeft (hfunc : r.tickFunc = .tickElection) (hmember : r.id ∈ r.prs)
    (u : Unspecified) :
    ∃ post : List Event, (r.after (ticks (List.replicate r.ticksLeft.toNat u))).history =
      r.history ++ (List.replicate r.ticksLeft.toNat Event.tick ++ Event.hup :: post) := by
  obtain ⟨n, hn⟩ : ∃ n : ℕ, r.ticksLeft.toNat = n + 1 :=
    Nat.exists_eq_add_one.mpr (by rw [ticksLeft]; omega)
  have hleft : max 1 (r.randomizedElectionTimeout - r.electionElapsed) = n + 1 := by
    rw [ticksLeft] at hn
    omega
  have hwaited : r.after (ticks (List.replicate n u)) = r.waitedFor n := by
    have hlen : ((List.replicate n u).length : ℤ) < r.ticksLeft := by
      rw [List.length_replicate, ticksLeft, hleft]
      exact lt_add_one _
    rw [after_ticks_of_waiting hfunc hlen, List.length_replicate]
  have hfires : (r.waitedFor n).Fires := by
    refine ⟨hmember, ?_⟩
    show r.randomizedElectionTimeout ≤ r.electionElapsed + n + 1
    omega
  obtain ⟨post, hpost⟩ := step_history_grows u (r.waitedFor n).rung
    { type := .msgHup, from_ := (r.waitedFor n).id }
  refine ⟨post, ?_⟩
  have htick : (r.waitedFor n).after (ticks [u]) =
      ((r.waitedFor n).rung.step u { type := .msgHup, from_ := (r.waitedFor n).id }).2 :=
    tick_of_firing (r := r.waitedFor n) hfunc hfires u
  have hrung : (r.waitedFor n).rung.history =
      r.history ++ List.replicate n Event.tick ++ [Event.tick] ++ [Event.hup] := rfl
  rw [hn, List.replicate_succ', List.replicate_succ', ticks_append, after_append, hwaited, htick,
    ← hpost, hrung]
  simp

theorem ticks_haveRoom (r : Raft) (us : List Unspecified) :
    machine.Along (fun r i => i.HasRoom r) r (ticks us) := by
  have hticks : ∀ i ∈ ticks us, i.isTick = true := by
    intro i hi
    obtain ⟨v, -, rfl⟩ := List.mem_map.mp hi
    rfl
  refine (Machine.along_of_forall r hticks).mono fun r i hi => ?_
  cases i with
  | step u msg => cases hi
  | tick u => trivial

/-- **The condition is exact.** A call has room just if the ticks that follow it, and no other
calls, never raise a `MsgHup` too early. -/
theorem hasRoom_iff (hset : TimerSet T r) (hpromotable : r.id ∈ r.prs) (hr : InTime T r)
    (hu : u.DrawsBelow T) :
    Input.HasRoom r (.step u msg) ↔ ∀ us : List Unspecified, (∀ u ∈ us, u.DrawsBelow T) →
      Trace.Spaced Event.isRestart Event.isHup Event.isTick T
        ((r.step u msg).2.after (ticks us)).history := by
  constructor
  · intro hroom us hus
    have hdraws : ∀ i ∈ ticks us, i.answers.DrawsBelow T := by
      intro i hi
      obtain ⟨v, hv, rfl⟩ := List.mem_map.mp hi
      exact hus v hv
    exact (after_inTime (hset.step hu) (step_inTime hset hr hu hroom) hdraws
      (ticks_haveRoom _ us)).spaced
  · intro hall hrole
    obtain ⟨htimer, es, e, hhistory, -, he⟩ := step_rearms hrole
    have hmember := (step_sameConfig u r msg).self_mem_prs hpromotable
    obtain ⟨post, hpost⟩ := hup_after_ticksLeft htimer.tickFunc hmember u
    have hspaced := hall (List.replicate (r.step u msg).2.ticksLeft.toNat u) fun v hv =>
      List.eq_of_mem_replicate hv ▸ hu
    have hcount := hspaced (r.history ++ es) e _ .hup post
      (by rw [hpost, hhistory, List.append_assoc, List.singleton_append]) he rfl
      fun x hx => List.eq_of_mem_replicate hx ▸ rfl
    have hthreshold : (r.step u msg).2.randomizedElectionTimeout = T + u.randGenerator := by
      rw [← hset.electionTimeout]
      exact htimer.randomizedElectionTimeout
    have helapsed : (r.step u msg).2.electionElapsed = r.electionElapsed := htimer.electionElapsed
    have htick : Event.isTick .tick = true := rfl
    rw [List.countP_replicate, if_pos htick, ticksLeft, hthreshold, helapsed] at hcount
    have hpos := hset.pos
    rw [hset.electionTimeout]
    omega

/-- The answer of a voter. -/
def granted (id : UInt64) : Input := .step .filledIn { type := .msgVoteResp, from_ := id }

end Raft

end Anraft
