import Anraft.Base.Trace
import Anraft.Replication.CommitRule
import Anraft.Timers.Effects

/-!
# The pace of the heartbeats

A leader is to raise a `MsgBeat` when more than `heartbeat_timeout_` ticks have passed,
and then to count from the start. `TickHeatbeat` advances the counter once more where
it would start again. So the first beat comes in time, and every tick behind it raises
another one while the counter grows by two.
-/

namespace Anraft

namespace Raft

variable {u : Unspecified} {r : Raft} {us : List Unspecified} {h : ℕ}

/-- A leader whose ticks are those of a leader. -/
def TicksAsLeader (r : Raft) : Prop := r.state = .stateLeader ∧ r.tickFunc = .tickHeatbeat

instance (r : Raft) : Decidable r.TicksAsLeader := inferInstanceAs (Decidable (_ ∧ _))

/-- The pace of the heartbeats: the counter stays below two more than the timeout, two beats
are at least a timeout apart, and no window of one tick more is without a beat. -/
structure Paced (h : ℕ) (r : Raft) (us : List Unspecified) : Prop where
  bounded : machine.Always (fun r => r.heartbeatElapsed ≤ h + 1) r (ticks us)
  apart : Trace.Spaced Event.isBeat Event.isBeat Event.isTick h (r.recordedBy (ticks us))
  steady : ∀ a b c, us = a ++ b ++ c → b.length = h + 1 →
    Event.beat ∈ (r.after (ticks a)).recordedBy (ticks b)

/-! ## One tick -/

/-- The counter of the heartbeats goes up by `d`, and `es` is recorded. -/
structure Advances (d : ℤ) (es : List Event) (r r' : Raft) : Prop where
  heartbeatTimeout : r'.heartbeatTimeout = r.heartbeatTimeout
  heartbeatElapsed : r'.heartbeatElapsed = r.heartbeatElapsed + d
  history : r'.history = r.history ++ es

theorem advances_of_replicates {r' r'' : Raft} {d : ℤ} {es : List Event}
    (h : Advances d es r r') (hr : Replicates r' r'') : Advances d es r r'' := by
  obtain ⟨_, _, _, _, rfl⟩ := hr
  exact ⟨h.heartbeatTimeout, h.heartbeatElapsed, h.history⟩

/-- **A tick of a leader.** Past the timeout the counter is advanced twice. -/
theorem tick_of_leader (hr : r.TicksAsLeader) (hleader : (r.tick u).state = .stateLeader) :
    if r.heartbeatTimeout < r.heartbeatElapsed + 1 then Advances 2 [.tick, .beat] r (r.tick u)
    else Advances 1 [.tick] r (r.tick u) := by
  obtain ⟨elapsed, checked, -, hchecked, heq⟩ | hlost := tick_leader_cases hr.2 u
  swap
  · -- without a quorum it would not be a leader any more
    cases hlost.sameTimer.state.symm.trans hleader
  rw [heq]
  have hfirst : Advances 1 [.tick] r ((r.record .tick).counted elapsed) := ⟨rfl, rfl, rfl⟩
  have hcounted := advances_of_replicates hfirst hchecked
  have hstate : checked.state = .stateLeader := hchecked.sameTimer.state.trans hr.1
  split
  · next hdue =>
      have hbeat : checked.BeatDue := by
        refine ⟨hstate, ?_⟩
        rwa [gt_iff_lt, hcounted.heartbeatTimeout, hcounted.heartbeatElapsed]
      have hsecond : Advances 2 [.tick, .beat] r
          (Raft.record { checked with heartbeatElapsed := checked.heartbeatElapsed + 1 } .beat) := by
        refine ⟨hcounted.heartbeatTimeout, ?_, ?_⟩
        · show checked.heartbeatElapsed + 1 = _
          rw [hcounted.heartbeatElapsed, add_assoc]
          rfl
        · show checked.history ++ [.beat] = _
          rw [hcounted.history, List.append_assoc]
          rfl
      exact advances_of_replicates hsecond (heartbeaten_of_due hbeat u)
  · next hdue =>
      rw [heartbeaten_of_not_due]
      · exact hcounted
      · rintro ⟨-, hpassed⟩
        rw [gt_iff_lt, hcounted.heartbeatTimeout, hcounted.heartbeatElapsed] at hpassed
        exact hdue hpassed

/-! ## A run of ticks -/

/-- What `k` ticks of a leader record: past the timeout each of them raises a beat. -/
def beatTrace (h : ℕ) : ℕ → List Event
  | 0 => []
  | k + 1 => beatTrace h k ++ if k < h then [.tick] else [.tick, .beat]

/-- The run of a leader that only ticks, in closed form. -/
structure Beaten (h k : ℕ) (r r' : Raft) : Prop where
  heartbeatTimeout : r'.heartbeatTimeout = h
  heartbeatElapsed : r'.heartbeatElapsed = k + (k - h : ℕ)
  history : r'.history = r.history ++ beatTrace h k

theorem Beaten.tick {k : ℕ} {r' : Raft} (hb : Beaten h k r r') (hr : r'.TicksAsLeader)
    (hleader : (r'.tick u).state = .stateLeader) : Beaten h (k + 1) r (r'.tick u) := by
  have hstep := tick_of_leader hr hleader
  rw [hb.heartbeatTimeout, hb.heartbeatElapsed] at hstep
  split at hstep
  · next hdue =>
      have hk : h ≤ k := by omega
      refine ⟨hstep.heartbeatTimeout.trans hb.heartbeatTimeout, ?_, ?_⟩
      · rw [hstep.heartbeatElapsed, hb.heartbeatElapsed]
        omega
      · rw [hstep.history, hb.history, beatTrace, if_neg (not_lt.mpr hk), List.append_assoc]
  · next hdue =>
      have hk : k < h := by omega
      refine ⟨hstep.heartbeatTimeout.trans hb.heartbeatTimeout, ?_, ?_⟩
      · rw [hstep.heartbeatElapsed, hb.heartbeatElapsed]
        omega
      · rw [hstep.history, hb.history, beatTrace, if_pos hk, List.append_assoc]

/-- **A leader that only ticks.** -/
theorem beaten_after (hleader : machine.Always TicksAsLeader r (ticks us))
    (htimeout : r.heartbeatTimeout = h) (hzero : r.heartbeatElapsed = 0) :
    Beaten h us.length r (r.after (ticks us)) := by
  induction us using List.reverseRecOn with
  | nil => exact ⟨htimeout, by simpa [after, ticks] using hzero, (List.append_nil _).symm⟩
  | append_singleton us u ih =>
      rw [ticks_append, Machine.always_ofFun_append] at hleader
      obtain ⟨hearly, hlast⟩ := hleader
      obtain ⟨hbefore, hafter⟩ := (Machine.always_ofFun_cons ..).mp hlast
      rw [ticks_append, after_append, List.length_append]
      exact (ih hearly).tick hbefore hafter.1

theorem Beaten.recordedBy {k : ℕ} {inputs : List Input} (hb : Beaten h k r (r.after inputs)) :
    r.recordedBy inputs = beatTrace h k :=
  List.append_cancel_left ((after_history r inputs).symm.trans hb.history)

/-- Once the timeout has passed, every tick raises a beat. -/
theorem recordedBy_tick (hleader : machine.Always TicksAsLeader r (ticks (us ++ [u])))
    (htimeout : r.heartbeatTimeout = h) (hzero : r.heartbeatElapsed = 0) :
    (r.after (ticks us)).recordedBy [.tick u] =
      if us.length < h then [.tick] else [.tick, .beat] := by
  have hbefore := hleader
  rw [ticks_append, Machine.always_ofFun_append] at hbefore
  have hearly := (beaten_after hbefore.1 htimeout hzero).recordedBy
  have hlate := (beaten_after hleader htimeout hzero).recordedBy
  rw [ticks_append, recordedBy_append, hearly, List.length_append] at hlate
  exact List.append_cancel_left hlate

/-- **No window is without a beat**, however long the run. -/
theorem beat_in_every_window (hleader : machine.Always TicksAsLeader r (ticks us))
    (htimeout : r.heartbeatTimeout = h) (hzero : r.heartbeatElapsed = 0)
    {a b c : List Unspecified} (hsplit : us = a ++ b ++ c) (hlen : b.length = h + 1) :
    Event.beat ∈ (r.after (ticks a)).recordedBy (ticks b) := by
  obtain ⟨b, u, rfl⟩ := List.eq_nil_or_concat' b |>.resolve_left (by rintro rfl; cases hlen)
  have hlen : h = b.length := by simpa using hlen.symm
  subst hsplit
  rw [ticks_append, Machine.always_ofFun_append, ← List.append_assoc] at hleader
  have hlast := recordedBy_tick hleader.1 htimeout hzero
  rw [List.length_append, if_neg (by omega)] at hlast
  rw [ticks_append, recordedBy_append, ← after_append, ← ticks_append]
  apply List.mem_append_right
  rw [show ticks [u] = [.tick u] from rfl, hlast]
  simp

/-- Up to the timeout nothing but the ticks is recorded. -/
theorem beatTrace_of_le {k : ℕ} (hk : k ≤ h) : beatTrace h k = List.replicate k .tick := by
  induction k with
  | zero => rfl
  | succ k ih => rw [beatTrace, ih (Nat.le_of_succ_le hk), if_pos (Nat.lt_of_succ_le hk), List.replicate_succ']

theorem bounded_of_length_le (hleader : machine.Always TicksAsLeader r (ticks us))
    (htimeout : r.heartbeatTimeout = h) (hzero : r.heartbeatElapsed = 0) (hlen : us.length ≤ h) :
    machine.Always (fun r => r.heartbeatElapsed ≤ h + 1) r (ticks us) := by
  induction us using List.reverseRecOn with
  | nil =>
      show r.heartbeatElapsed ≤ h + 1
      omega
  | append_singleton us u ih =>
      have hend := (beaten_after hleader htimeout hzero).heartbeatElapsed
      rw [ticks_append, Machine.always_ofFun_append] at hleader ⊢
      rw [List.length_append, List.length_singleton] at hlen hend
      have hmid := (beaten_after hleader.1 htimeout hzero).heartbeatElapsed
      rw [ticks_append, after_append] at hend
      refine ⟨ih hleader.1 (by omega), (Machine.always_ofFun_cons ..).mpr ⟨?_, ?_⟩⟩
      · show (r.after (ticks us)).heartbeatElapsed ≤ _
        omega
      · show ((r.after (ticks us)).after (ticks [u])).heartbeatElapsed ≤ _
        omega

/-- **When the heartbeats keep their pace.** A leader that starts to count keeps the pace
through a run of ticks exactly when the run ends before the first beat. -/
theorem paced_iff (h : ℕ) (r : Raft) (us : List Unspecified)
    (hleader : machine.Always TicksAsLeader r (ticks us)) (htimeout : r.heartbeatTimeout = h)
    (hzero : r.heartbeatElapsed = 0) : Paced h r us ↔ us.length ≤ h := by
  have hend := beaten_after hleader htimeout hzero
  constructor
  · intro hpaced
    have hbound := Machine.always_ofFun_foldl hpaced.bounded
    have hcounter : (us.length : ℤ) + (us.length - h : ℕ) ≤ h + 1 :=
      hend.heartbeatElapsed ▸ hbound
    omega
  · intro hlen
    refine ⟨bounded_of_length_le hleader htimeout hzero hlen, ?_, ?_⟩
    · rw [hend.recordedBy, beatTrace_of_le hlen]
      refine Trace.spaced_nil.append fun e he => ?_
      rw [List.eq_of_mem_replicate he]
      rfl
    · intro a b c hsplit hwindow
      exact beat_in_every_window hleader htimeout hzero hsplit hwindow

/-- One tick with a timeout of one. -/
theorem paced_iff_leaderOfThree : Paced 1 leaderOfThree [.filledIn] :=
  (paced_iff 1 leaderOfThree [.filledIn] (by decide) rfl rfl).mpr le_rfl

/-- With a timeout of one the second tick raises a beat and leaves the counter at three. -/
theorem paced_fails :
    ¬ ∀ (h : ℕ) (r : Raft) (us : List Unspecified), 1 ≤ h →
      machine.Always TicksAsLeader r (ticks us) → r.heartbeatTimeout = h →
      r.heartbeatElapsed = 0 → Paced h r us := by
  intro hall
  have hpaced := hall 1 leaderOfThree [.filledIn, .filledIn] le_rfl (by decide) rfl rfl
  exact absurd (Machine.always_ofFun_foldl hpaced.bounded) (by decide)

end Raft

end Anraft
