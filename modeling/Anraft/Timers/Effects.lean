import Anraft.Election.Roles
import Anraft.Membership.Lookups
import Anraft.Replication.Frame

/-!
# What a call does to the timers

`Step` restarts the election timer in two ways. A vote or an append sets
`election_elapsed_` to zero and leaves the threshold alone; `Reset`, on the way into
a role, draws a new threshold and leaves `election_elapsed_` alone. `Tick` advances
the counters.
-/

namespace Anraft

namespace Event

/-- The events that restart the election timer. -/
def isRestart : Event → Bool
  | .becomeFollower .. | .becomeCandidate .. | .grantVote _ | .maybeAppend .. => true
  | _ => false

def isTick : Event → Bool
  | .tick => true
  | _ => false

def isHup : Event → Bool
  | .hup => true
  | _ => false

def isBeat : Event → Bool
  | .beat => true
  | _ => false

/-- What the election timer counts, is restarted by, or raises. -/
def isTimed (e : Event) : Bool := e.isRestart || e.isTick || e.isHup

@[simp] theorem isTimed_poll (id : UInt64) (type : MessageType) (vote : Bool) :
    (poll id type vote).isTimed = false := rfl

@[simp] theorem isTimed_becomeLeader (old : StateType) : (becomeLeader old).isTimed = false := rfl

@[simp] theorem isTimed_beat : beat.isTimed = false := rfl

theorem isHup_of_isRestart {e : Event} (h : e.isRestart = true) : e.isHup = false := by
  cases e <;> first | rfl | cases h

end Event

namespace Raft

variable {u : Unspecified} {r r' r'' : Raft} {msg : Message}

/-- The election timer, and what says whether it runs. -/
structure SameTimer (r r' : Raft) : Prop where
  electionElapsed : r'.electionElapsed = r.electionElapsed
  electionTimeout : r'.electionTimeout = r.electionTimeout
  randomizedElectionTimeout : r'.randomizedElectionTimeout = r.randomizedElectionTimeout
  tickFunc : r'.tickFunc = r.tickFunc
  state : r'.state = r.state

namespace SameTimer

theorem refl (r : Raft) : SameTimer r r := ⟨rfl, rfl, rfl, rfl, rfl⟩

theorem trans (h : SameTimer r r') (h' : SameTimer r' r'') : SameTimer r r'' where
  electionElapsed := h'.electionElapsed.trans h.electionElapsed
  electionTimeout := h'.electionTimeout.trans h.electionTimeout
  randomizedElectionTimeout :=
    h'.randomizedElectionTimeout.trans h.randomizedElectionTimeout
  tickFunc := h'.tickFunc.trans h.tickFunc
  state := h'.state.trans h.state

end SameTimer

theorem Replicates.sameTimer (h : Replicates r r') : SameTimer r r' := by
  obtain ⟨_, _, _, _, rfl⟩ := h
  exact ⟨rfl, rfl, rfl, rfl, rfl⟩

theorem SendsOnly.sameTimer (h : SendsOnly r r') : SameTimer r r' := h.replicates.sameTimer

/-- `Reset` on the way into the role `state`. -/
def intoRole (u : Unspecified) (r : Raft) (state : StateType) (tickFunc : TickFunc) : Raft :=
  { r with
    randomizedElectionTimeout := r.electionTimeout + u.randGenerator
    tickFunc := tickFunc
    state := state }

theorem becomeFollower_sameTimer (u : Unspecified) (r : Raft) (term lead : UInt64) :
    SameTimer (r.intoRole u .stateFollower .tickElection) (r.becomeFollower u term lead) :=
  ⟨rfl, rfl, rfl, rfl, rfl⟩

/-- Only events the election timer has nothing to do with are recorded. -/
def RecordsUntimed (r r' : Raft) : Prop :=
  ∃ es, r'.history = r.history ++ es ∧ ∀ e ∈ es, e.isTimed = false

/-- The last event recorded restarts the timer, and those before it have nothing to
do with it. -/
def RecordsRestart (r r' : Raft) : Prop :=
  ∃ es e, r'.history = r.history ++ es ++ [e] ∧ (∀ x ∈ es, x.isTimed = false) ∧
    e.isRestart = true

/-- The node takes up the role of a follower with a new threshold. -/
def Rearms (u : Unspecified) (r r' : Raft) : Prop :=
  SameTimer (r.intoRole u .stateFollower .tickElection) r' ∧ RecordsRestart r r'

/-- The node enters a role of which the election timer is a part: it starts a campaign, it
loses one, or it is a leader that loses its quorum. -/
def RestartsRole (u : Unspecified) (r : Raft) (msg : Message) : Prop :=
  (msg.type = .msgHup ∧ r.MayCampaign) ∨
    (r.stepFunc = .stepCandidate ∧ isVoteResp msg.type ∧ ¬ r.CountsAsElected u msg) ∨
    (r.stepFunc = .stepLeader ∧ LosesQuorum u msg)

instance (u : Unspecified) (r : Raft) (msg : Message) : Decidable (r.RestartsRole u msg) :=
  inferInstanceAs (Decidable (_ ∨ _ ∨ _))

/-! ## `Step` -/

theorem recordsUntimed_of_eq (h : r'.history = r.history) : RecordsUntimed r r' :=
  ⟨[], by rw [h, List.append_nil], by simp⟩

theorem recordsRestart_of_eq {e : Event} (he : e.isRestart = true)
    (h : r'.history = r.history ++ [e]) : RecordsRestart r r' :=
  ⟨[], e, by rw [h, List.append_nil], by simp, he⟩

theorem campaign_rearms (u : Unspecified) (r : Raft) :
    Rearms u r (r.campaign u .campaignElection) := by
  have hsent := campaign_sendsOnly u r
  have hrole : SameTimer (r.intoRole u .stateFollower .tickElection) (r.becomeCandidate u) :=
    ⟨rfl, rfl, rfl, rfl, rfl⟩
  exact ⟨hrole.trans hsent.sameTimer, recordsRestart_of_eq rfl hsent.history⟩

/-- Losing a campaign, the node has filed the answer first. -/
theorem stepCandidate_rearms (hresp : isVoteResp msg.type) (hlost : ¬ r.CountsAsElected u msg) :
    Rearms u r (r.stepCandidate u msg).2 := by
  rw [stepCandidate_of_voteResp hresp, if_neg hlost]
  exact ⟨⟨rfl, rfl, rfl, rfl, rfl⟩, [.poll msg.from_ msg.type !msg.reject], _, rfl, by simp, rfl⟩

/-- A leader without its quorum. -/
theorem step_of_losesQuorum (hfunc : r.stepFunc = .stepLeader) (h : LosesQuorum u msg) :
    Replicates (r.becomeFollower u r.term 0) (r.step u msg).2 := by
  have hrest : isHandledByStep msg.type = false := by
    rw [h.1]
    rfl
  rw [step_of_not_handled hrest, hfunc, stepLeader_of_losesQuorum h]
  exact stepLeaderProgress_replicates u _ msg

theorem isHandledByStep_of_voteResp (h : isVoteResp msg.type) :
    isHandledByStep msg.type = false := by
  rcases isVoteResp_iff.mp h with h | h <;> rw [h] <;> rfl

/-- **Into a role.** The threshold is drawn anew and the counter runs on. -/
theorem step_rearms (h : r.RestartsRole u msg) : Rearms u r (r.step u msg).2 := by
  rcases h with ⟨htype, hmay⟩ | ⟨hfunc, hresp, hlost⟩ | ⟨hfunc, hloses⟩
  · rw [step_of_msgHup htype, if_pos ⟨hmay.1, hmay.2⟩]
    exact campaign_rearms u r
  · rw [step_of_not_handled (isHandledByStep_of_voteResp hresp), hfunc]
    exact stepCandidate_rearms hresp hlost
  · have hfollower := step_of_losesQuorum hfunc hloses
    have hrole := becomeFollower_sameTimer u r r.term 0
    exact ⟨hrole.trans hfollower.sameTimer, recordsRestart_of_eq rfl hfollower.history⟩

/-- What else `Step` does to the election timer. -/
inductive TimerEffect (u : Unspecified) (r r' : Raft) : Prop where
  | idle (htimer : SameTimer r r') (hhistory : RecordsUntimed r r')
  | zeroed (htimer : SameTimer { r with electionElapsed := 0 } r')
      (hhistory : RecordsRestart r r')
  | elected (htimer : SameTimer (r.intoRole u .stateLeader .tickHeatbeat) r')
      (hhistory : RecordsUntimed r r')

theorem Replicates.timerEffect (h : Replicates r r') : TimerEffect u r r' :=
  .idle h.sameTimer (recordsUntimed_of_eq h.history)

theorem stepFollower_timers (u : Unspecified) (r : Raft) (msg : Message) :
    TimerEffect u r (r.stepFollower u msg).2 := by
  unfold stepFollower
  split
  · have happend := handleAppendEntries_replicates u
      { r with electionElapsed := 0, lead := msg.from_ } msg
    have hzeroed : SameTimer { r with electionElapsed := 0 }
        (Raft.record { r with electionElapsed := 0, lead := msg.from_ }
          (.maybeAppend msg.index msg.term msg.commit msg.entries)) := ⟨rfl, rfl, rfl, rfl, rfl⟩
    exact .zeroed (hzeroed.trans happend.sameTimer) (recordsRestart_of_eq rfl happend.history)
  · exact (Replicates.refl r).timerEffect

theorem stepCandidate_timers (h : ¬ (isVoteResp msg.type ∧ ¬ r.CountsAsElected u msg)) :
    TimerEffect u r (r.stepCandidate u msg).2 := by
  by_cases hresp : isVoteResp msg.type = true
  · have hwon : r.CountsAsElected u msg := not_not.mp fun hlost => h ⟨hresp, hlost⟩
    rw [stepCandidate_of_voteResp hresp, if_pos hwon]
    split
    · exact .idle ⟨rfl, rfl, rfl, rfl, rfl⟩
        ⟨[.poll msg.from_ msg.type !msg.reject], rfl, by simp⟩
    · have hsent := bcastAppend_sendsOnly u ((r.polled msg).becomeLeader u)
      have hrole : SameTimer (r.intoRole u .stateLeader .tickHeatbeat)
          ((r.polled msg).becomeLeader u) := ⟨rfl, rfl, rfl, rfl, rfl⟩
      refine .elected (hrole.trans hsent.sameTimer)
        ⟨[.poll msg.from_ msg.type !msg.reject, .becomeLeader r.state], ?_, by simp⟩
      rw [hsent.history]
      exact List.append_assoc _ _ _
  · rw [stepCandidate_of_not_voteResp hresp]
    exact (Replicates.refl r).timerEffect

/-- **Elsewhere.** Whatever else a step does, it leaves the timer alone, sets its counter to
zero, or makes the node a leader. -/
theorem step_timers (h : ¬ r.RestartsRole u msg) : TimerEffect u r (r.step u msg).2 := by
  obtain ⟨hhup, hcandidate, hleader⟩ : ¬ (msg.type = .msgHup ∧ r.MayCampaign) ∧
      ¬ (r.stepFunc = .stepCandidate ∧ isVoteResp msg.type ∧ ¬ r.CountsAsElected u msg) ∧
      ¬ (r.stepFunc = .stepLeader ∧ LosesQuorum u msg) := by
    simpa only [RestartsRole, not_or] using h
  apply step_elim u r msg
  · intro _
    exact (Replicates.refl r).timerEffect
  · intro htype hstate hpreVote
    exact absurd ⟨htype, hstate, hpreVote⟩ hhup
  · intro _ _ _
    exact .zeroed ⟨rfl, rfl, rfl, rfl, rfl⟩ (recordsRestart_of_eq rfl rfl)
  · intro _ _
    exact stepFollower_timers u r msg
  · intro _ hfunc
    exact stepCandidate_timers fun hlost => hcandidate ⟨hfunc, hlost⟩
  · intro _ hfunc
    exact (stepLeader_replicates (fun hloses => hleader ⟨hfunc, hloses⟩) r).timerEffect

/-! ## `Tick` of a follower or candidate -/

/-- The next tick is the one the election timer has been waiting for. -/
def Fires (r : Raft) : Prop :=
  r.id ∈ r.prs ∧ r.randomizedElectionTimeout ≤ r.electionElapsed + 1

instance (r : Raft) : Decidable r.Fires := inferInstanceAs (Decidable (_ ∧ _))

/-- The node while it waits for the timer to run out. -/
def waited (r : Raft) : Raft := { r with electionElapsed := r.electionElapsed + 1 }.record .tick

/-- The node when the timer has run out, before `Step` is called. -/
def rung (r : Raft) : Raft := ({ r with electionElapsed := 0 }.record .tick).record .hup

theorem waited_sameTimer (r : Raft) :
    SameTimer { r with electionElapsed := r.electionElapsed + 1 } r.waited :=
  ⟨rfl, rfl, rfl, rfl, rfl⟩

theorem rung_sameTimer (r : Raft) : SameTimer { r with electionElapsed := 0 } r.rung :=
  ⟨rfl, rfl, rfl, rfl, rfl⟩

theorem tick_of_tickElection (hfunc : r.tickFunc = .tickElection) (u : Unspecified) :
    r.tick u = (r.record .tick).tickElection u := by
  unfold tick
  dsimp only
  split
  · rfl
  · next hother => cases hfunc.symm.trans hother

theorem tick_of_waiting (hfunc : r.tickFunc = .tickElection) (h : ¬ r.Fires) (u : Unspecified) :
    r.tick u = r.waited := by
  have hdue : ¬ (r.promotable = true ∧
      decide (r.electionElapsed + 1 ≥ r.randomizedElectionTimeout) = true) := by
    simpa [Fires, promotable] using h
  rw [tick_of_tickElection hfunc]
  exact if_neg hdue

theorem tick_of_firing (hfunc : r.tickFunc = .tickElection) (h : r.Fires) (u : Unspecified) :
    r.tick u = (r.rung.step u { type := .msgHup, from_ := r.id }).2 := by
  have hdue : r.promotable = true ∧
      decide (r.electionElapsed + 1 ≥ r.randomizedElectionTimeout) = true := by
    simpa [Fires, promotable] using h
  rw [tick_of_tickElection hfunc]
  exact if_pos hdue

/-! ## `Tick` of a leader -/

theorem step_leaderTickMsg_replicates (h : isLeaderTickMsg msg.type)
    (hkeeps : ¬ (r.stepFunc = .stepLeader ∧ LosesQuorum u msg)) :
    Replicates r (r.step u msg).2 := by
  by_cases hfunc : r.stepFunc = .stepLeader
  · have hrest : isHandledByStep msg.type = false := by
      rcases (by simpa [isLeaderTickMsg] using h : msg.type = .msgCheckQuorum ∨ msg.type = .msgBeat)
        with h | h <;> rw [h] <;> rfl
    rw [step_of_not_handled hrest, hfunc]
    exact stepLeader_replicates (fun hloses => hkeeps ⟨hfunc, hloses⟩) r
  · rw [step_of_leaderTickMsg u r msg h hfunc]
    exact .refl r

theorem tick_of_tickHeatbeat (hfunc : r.tickFunc = .tickHeatbeat) (u : Unspecified) :
    r.tick u = ((r.record .tick).quorumChecked u).heartbeaten u := by
  unfold tick
  dsimp only
  split
  · next hother => cases hfunc.symm.trans hother
  · exact tickHeatbeat_eq u (r.record .tick)

/-- Both counters after the first lines of `TickHeatbeat`. -/
def counted (r : Raft) (electionElapsed : ℤ) : Raft :=
  { r with
    electionElapsed := electionElapsed
    heartbeatElapsed := r.heartbeatElapsed + 1 }

/-- The check of the quorum leaves the counters alone, or it has just set the one of the
election timer to zero and the node falls back to the role of a follower. -/
theorem quorumChecked_replicates (u : Unspecified) (r : Raft) :
    ∃ elapsed, (elapsed = r.electionElapsed + 1 ∨ elapsed = 0) ∧
      (Replicates (r.counted elapsed) (r.quorumChecked u) ∨
        (elapsed = 0 ∧ Replicates ((r.counted 0).becomeFollower u r.term 0)
          (r.quorumChecked u))) := by
  unfold quorumChecked
  dsimp only
  split
  · refine ⟨0, .inr rfl, ?_⟩
    split
    · by_cases hloses : r.stepFunc = .stepLeader ∧ u.checkQuorumActive = false
      · exact .inr ⟨rfl, step_of_losesQuorum (r := r.counted 0) hloses.1 ⟨rfl, hloses.2⟩⟩
      · exact .inl (step_leaderTickMsg_replicates (r := r.counted 0) rfl fun h =>
          hloses ⟨h.1, h.2.2⟩)
    · exact .inl (.refl (r.counted 0))
  · exact ⟨r.electionElapsed + 1, .inl rfl, .inl (.refl _)⟩

/-- The counter of the heartbeats has passed its timeout. -/
def BeatDue (r : Raft) : Prop := r.state = .stateLeader ∧ r.heartbeatElapsed > r.heartbeatTimeout

theorem heartbeaten_of_due (h : r.BeatDue) (u : Unspecified) :
    Replicates ({ r with heartbeatElapsed := r.heartbeatElapsed + 1 }.record .beat)
      (r.heartbeaten u) := by
  unfold heartbeaten
  rw [if_neg (not_not.mpr h.1), if_pos h.2]
  exact step_leaderTickMsg_replicates rfl fun hloses => by cases hloses.2.1

theorem heartbeaten_of_not_due (h : ¬ r.BeatDue) (u : Unspecified) : r.heartbeaten u = r := by
  unfold heartbeaten
  split
  · rfl
  · next hstate => exact if_neg fun hdue => h ⟨not_not.mp hstate, hdue⟩

theorem counted_sameTimer (r : Raft) (elapsed : ℤ) :
    SameTimer { r with electionElapsed := elapsed } ((r.record .tick).counted elapsed) :=
  ⟨rfl, rfl, rfl, rfl, rfl⟩

theorem heartbeaten_of_follower (hstate : r.state ≠ .stateLeader) (u : Unspecified) :
    r.heartbeaten u = r :=
  heartbeaten_of_not_due (fun hdue => hstate hdue.1) u

/-- A heartbeat has nothing to do with the election timer. -/
theorem heartbeaten_timers (u : Unspecified) (r : Raft) :
    SameTimer r (r.heartbeaten u) ∧ RecordsUntimed r (r.heartbeaten u) := by
  by_cases hdue : r.BeatDue
  · have hbeat := heartbeaten_of_due hdue u
    have hrecorded : SameTimer r
        (Raft.record { r with heartbeatElapsed := r.heartbeatElapsed + 1 } .beat) :=
      ⟨rfl, rfl, rfl, rfl, rfl⟩
    exact ⟨hrecorded.trans hbeat.sameTimer, [.beat], hbeat.history, by simp⟩
  · rw [heartbeaten_of_not_due hdue]
    exact ⟨.refl r, recordsUntimed_of_eq rfl⟩

/-- **A tick of a leader.** Either the quorum is there and the heartbeat comes next, or the
node falls back to the role of a follower with the counter of its election timer at zero. -/
theorem tick_leader_cases (hfunc : r.tickFunc = .tickHeatbeat) (u : Unspecified) :
    (∃ elapsed checked, (elapsed = r.electionElapsed + 1 ∨ elapsed = 0) ∧
      Replicates ((r.record .tick).counted elapsed) checked ∧
      r.tick u = checked.heartbeaten u) ∨
      Replicates (((r.record .tick).counted 0).becomeFollower u r.term 0) (r.tick u) := by
  rw [tick_of_tickHeatbeat hfunc]
  obtain ⟨elapsed, helapsed, hkept | ⟨-, hlost⟩⟩ := quorumChecked_replicates u (r.record .tick)
  · exact .inl ⟨elapsed, _, helapsed, hkept, rfl⟩
  · have hstate : ((r.record .tick).quorumChecked u).state = .stateFollower :=
      hlost.sameTimer.state
    rw [heartbeaten_of_follower (by rw [hstate]; nofun)]
    exact .inr hlost

/-! ## Runs -/

theorem step_history_grows (u : Unspecified) (r : Raft) (msg : Message) :
    r.history <+: (r.step u msg).2.history := by
  apply step_rel (R := fun r r' => r.history <+: r'.history) List.IsPrefix.trans
  · intro r r' hquiet
    obtain ⟨es, heq, -⟩ := hquiet.history
    exact ⟨es, heq.symm⟩
  · exact fun r => ⟨_, rfl⟩
  · exact fun r => ⟨_, rfl⟩
  · exact fun r => ⟨_, rfl⟩
  · exact fun r => ⟨_, rfl⟩

/-- The history only grows. -/
theorem react_history_grows (r : Raft) (i : Input) : r.history <+: (r.react i).history := by
  cases i with
  | step u msg => exact step_history_grows u r msg
  | tick u =>
      refine tick_preserves (Q := fun r' => r.history <+: r'.history) ?_ ?_ (List.prefix_refl _)
      · intro r₁ r₂ hquiet hgrown
        obtain ⟨es, heq, -⟩ := hquiet.history
        exact hgrown.trans ⟨es, heq.symm⟩
      · intro r₁ msg _ hgrown
        exact hgrown.trans (step_history_grows u r₁ msg)

theorem react_sameConfig (r : Raft) (i : Input) : SameConfig r (r.react i) := by
  cases i with
  | step u msg => exact step_sameConfig u r msg
  | tick u =>
      exact tick_preserves (Q := SameConfig r) (fun hquiet hsame => hsame.trans hquiet.toSameConfig)
        (fun _ hsame => hsame.trans (step_sameConfig u _ _)) (.refl r)

theorem after_sameConfig (r : Raft) (inputs : List Input) : SameConfig r (r.after inputs) :=
  Machine.foldl_related SameConfig.refl (fun _ _ _ => SameConfig.trans) react_sameConfig r inputs

/-- A node that may be promoted stays one. -/
theorem SameConfig.self_mem_prs (h : SameConfig r r') (hmember : r.id ∈ r.prs) :
    r'.id ∈ r'.prs := by
  rw [h.id]
  exact (h.mem_prs r.id).mpr hmember

/-- The events the calls record. -/
def recordedBy (r : Raft) (inputs : List Input) : List Event :=
  (r.after inputs).history.drop r.history.length

theorem after_history (r : Raft) (inputs : List Input) :
    (r.after inputs).history = r.history ++ r.recordedBy inputs := by
  have hgrown : r.history <+: (r.after inputs).history :=
    Machine.foldl_related (R := fun r r' : Raft => r.history <+: r'.history)
      (fun r => List.prefix_refl r.history) (fun _ _ _ => List.IsPrefix.trans)
      react_history_grows r inputs
  exact (List.prefix_iff_eq_append.mp hgrown).symm

theorem after_append (r : Raft) (is js : List Input) :
    r.after (is ++ js) = (r.after is).after js :=
  List.foldl_append

theorem recordedBy_append (r : Raft) (is js : List Input) :
    r.recordedBy (is ++ js) = r.recordedBy is ++ (r.after is).recordedBy js := by
  have hall := after_history r (is ++ js)
  rw [after_append, after_history, after_history, List.append_assoc] at hall
  exact (List.append_cancel_left hall).symm

/-- Calls of `Tick` and no other. -/
def ticks (us : List Unspecified) : List Input := us.map .tick

theorem ticks_append (us us' : List Unspecified) : ticks (us ++ us') = ticks us ++ ticks us' :=
  List.map_append

end Raft

end Anraft
