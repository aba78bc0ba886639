import Anraft.RaftRun
import Anraft.Replication.Frame

/-!
# The role, stored three times

The role of a node is in `state_`, in `step_func_` and in `tick_func_`.
`BecomeFollower` and `BecomeLeader` set the three together; `BecomeCandidate` sets
`state_` to the role of a follower. So the first campaign of a run breaks the
agreement, and nothing else does.
-/

namespace Anraft

/-- The transitions `raft.cpp` calls invalid: leader to candidate and follower to
leader. -/
def Event.isInvalidTransition : Event → Bool
  | .becomeCandidate .stateLeader _ => true
  | .becomeLeader .stateFollower => true
  | _ => false

theorem Event.isInvalidTransition_of_not_isElection {e : Event} (h : e.isElection = false) :
    e.isInvalidTransition = false := by
  cases e <;> first | rfl | cases h

theorem Event.isInvalidTransition_becomeLeader {old : StateType} (h : old ≠ .stateFollower) :
    (Event.becomeLeader old).isInvalidTransition = false := by
  cases old <;> first | rfl | exact absurd rfl h

namespace Raft

variable {u : Unspecified} {r r' r'' : Raft} {msg : Message}

/-- The functions that belong to a role. -/
def funcsOf : StateType → StepFunc × TickFunc
  | .stateFollower => (.stepFollower, .tickElection)
  | .stateCandidate | .statePreCandidate => (.stepCandidate, .tickElection)
  | .stateLeader => (.stepLeader, .tickHeatbeat)

/-- The three places agree, a leader names itself as the leader, and no invalid
transition has been made. -/
structure RoleCoherent (r : Raft) : Prop where
  funcs : (r.stepFunc, r.tickFunc) = funcsOf r.state
  lead : r.state = .stateLeader → r.lead = r.id
  transitions : ∀ e ∈ r.history, e.isInvalidTransition = false

/-! ## Functions that leave the role alone -/

structure SameRole (r r' : Raft) : Prop where
  id : r'.id = r.id
  state : r'.state = r.state
  stepFunc : r'.stepFunc = r.stepFunc
  tickFunc : r'.tickFunc = r.tickFunc
  lead : r'.lead = r.lead

namespace SameRole

theorem refl (r : Raft) : SameRole r r := ⟨rfl, rfl, rfl, rfl, rfl⟩

theorem trans (h : SameRole r r') (h' : SameRole r' r'') : SameRole r r'' where
  id := h'.id.trans h.id
  state := h'.state.trans h.state
  stepFunc := h'.stepFunc.trans h.stepFunc
  tickFunc := h'.tickFunc.trans h.tickFunc
  lead := h'.lead.trans h.lead

end SameRole

theorem Replicates.sameRole (h : Replicates r r') : SameRole r r' := by
  obtain ⟨_, _, _, _, rfl⟩ := h
  exact ⟨rfl, rfl, rfl, rfl, rfl⟩

theorem SendsOnly.sameRole (h : SendsOnly r r') : SameRole r r' := h.replicates.sameRole

theorem handleAppendEntries_sameRole (u : Unspecified) (r : Raft) (msg : Message) :
    SameRole r (r.handleAppendEntries u msg) := by
  have hcall : SameRole r (r.record (.maybeAppend msg.index msg.term msg.commit msg.entries)) :=
    ⟨rfl, rfl, rfl, rfl, rfl⟩
  exact hcall.trans (handleAppendEntries_replicates u r msg).sameRole

/-! ## Coherence -/

namespace RoleCoherent

/-- Events without an election add no invalid transition. -/
theorem transitions_of_noElection (hr : RoleCoherent r) (h : NoElection r r') :
    ∀ e ∈ r'.history, e.isInvalidTransition = false := by
  obtain ⟨es, heq, hes⟩ := h.history
  intro e he
  rw [heq] at he
  rcases List.mem_append.mp he with he | he
  · exact hr.transitions e he
  · exact Event.isInvalidTransition_of_not_isElection (hes e he)

theorem of_sameRole (hr : RoleCoherent r) (h : SameRole r r') (hquiet : NoElection r r') :
    RoleCoherent r' where
  funcs := by
    rw [h.stepFunc, h.tickFunc, h.state]
    exact hr.funcs
  lead := by
    rw [h.state, h.lead, h.id]
    exact hr.lead
  transitions := hr.transitions_of_noElection hquiet

/-- Any node may fall back to the role of a follower. -/
theorem becomeFollower (hr : RoleCoherent r) (u : Unspecified) (term lead : UInt64) :
    RoleCoherent (r.becomeFollower u term lead) where
  funcs := rfl
  lead h := by cases h
  transitions := hr.transitions_of_noElection (becomeFollower_noElection u r term lead)

theorem state_of_stepFollower (hr : RoleCoherent r) (h : r.stepFunc = .stepFollower) :
    r.state = .stateFollower := by
  have hfuncs := hr.funcs
  cases hstate : r.state with
  | stateFollower => rfl
  | stateCandidate =>
      rw [hstate, h] at hfuncs
      cases hfuncs
  | statePreCandidate =>
      rw [hstate, h] at hfuncs
      cases hfuncs
  | stateLeader =>
      rw [hstate, h] at hfuncs
      cases hfuncs

theorem state_of_stepCandidate (hr : RoleCoherent r) (h : r.stepFunc = .stepCandidate) :
    r.state = .stateCandidate ∨ r.state = .statePreCandidate := by
  have hfuncs := hr.funcs
  cases hstate : r.state with
  | stateCandidate => exact .inl rfl
  | statePreCandidate => exact .inr rfl
  | stateFollower =>
      rw [hstate, h] at hfuncs
      cases hfuncs
  | stateLeader =>
      rw [hstate, h] at hfuncs
      cases hfuncs

theorem stepFollower (hr : RoleCoherent r) (hfunc : r.stepFunc = .stepFollower)
    (u : Unspecified) (msg : Message) : RoleCoherent (r.stepFollower u msg).2 := by
  unfold Raft.stepFollower
  split
  · have hstarted : RoleCoherent { r with electionElapsed := 0, lead := msg.from_ } := by
      refine ⟨hr.funcs, fun hleader => ?_, hr.transitions⟩
      -- a follower may name anybody as the leader
      have hstate : r.state = .stateLeader := hleader
      rw [hr.state_of_stepFollower hfunc] at hstate
      cases hstate
    exact hstarted.of_sameRole (handleAppendEntries_sameRole u _ msg)
      (handleAppendEntries_noElection u _ msg)
  · exact hr

theorem stepLeader (hr : RoleCoherent r) (u : Unspecified) (msg : Message) :
    RoleCoherent (r.stepLeader u msg).2 := by
  unfold Raft.stepLeader
  have hprogress : ∀ {r : Raft}, RoleCoherent r → RoleCoherent (r.stepLeaderProgress u msg).2 :=
    fun hr => hr.of_sameRole (stepLeaderProgress_replicates u _ msg).sameRole
      ((noElection_keptByReplication u).stepLeaderProgress _ msg)
  split
  · apply hprogress
    split
    · exact hr
    · exact hr.becomeFollower u _ _
  · split
    · exact hr
    · split
      · exact hr
      · have happend := hr.of_sameRole (appendEntry_replicates u r msg.entries).sameRole
          (appendEntry_noElection u r msg.entries)
        have hbcast := bcastAppend_sendsOnly u (r.appendEntry u msg.entries)
        exact hprogress (happend.of_sameRole hbcast.sameRole hbcast.noElection)
  · exact hprogress hr

theorem polled (hr : RoleCoherent r) (msg : Message) : RoleCoherent (r.polled msg) where
  funcs := hr.funcs
  lead := hr.lead
  transitions := by
    intro e he
    rcases List.mem_append.mp he with he | he
    · exact hr.transitions e he
    · rw [List.mem_singleton.mp he]
      rfl

theorem becomeLeader (hr : RoleCoherent r) (hstate : r.state ≠ .stateFollower)
    (u : Unspecified) : RoleCoherent (r.becomeLeader u) where
  funcs := rfl
  lead _ := rfl
  transitions := by
    intro e he
    rcases List.mem_append.mp he with he | he
    · exact hr.transitions e he
    · rw [List.mem_singleton.mp he]
      exact Event.isInvalidTransition_becomeLeader hstate

theorem stepCandidate (hr : RoleCoherent r) (hfunc : r.stepFunc = .stepCandidate)
    (u : Unspecified) (msg : Message) : RoleCoherent (r.stepCandidate u msg).2 := by
  by_cases hresp : isVoteResp msg.type = true
  · rw [stepCandidate_of_voteResp hresp]
    split
    · split
      · exact hr.polled msg
      · have hstate : r.state ≠ .stateFollower := by
          rcases hr.state_of_stepCandidate hfunc with h | h <;> rw [h] <;> nofun
        have hleader := (hr.polled msg).becomeLeader hstate u
        have hbcast := bcastAppend_sendsOnly u ((r.polled msg).becomeLeader u)
        exact hleader.of_sameRole hbcast.sameRole hbcast.noElection
    · exact (hr.polled msg).becomeFollower u _ _
  · rw [stepCandidate_of_not_voteResp hresp]
    exact hr

end RoleCoherent

/-! ## The calls -/

/-- A `MsgHup` starts a campaign: the node is no leader, and goes without a pre-vote. -/
def MayCampaign (r : Raft) : Prop := r.state ≠ .stateLeader ∧ r.preVote = false

instance (r : Raft) : Decidable r.MayCampaign := inferInstanceAs (Decidable (_ ∧ _))

/-- The call starts a campaign: a `MsgHup` is stepped, or the election timer of a
voting member runs out. -/
def Input.Campaigns (r : Raft) : Input → Prop
  | .step _ msg => msg.type = .msgHup ∧ r.MayCampaign
  | .tick _ =>
    (r.tickFunc = .tickElection ∧ r.id ∈ r.prs ∧
      r.randomizedElectionTimeout ≤ r.electionElapsed + 1) ∧ r.MayCampaign

instance (r : Raft) : (i : Input) → Decidable (i.Campaigns r)
  | .step .. => inferInstanceAs (Decidable (_ ∧ _))
  | .tick _ => inferInstanceAs (Decidable (_ ∧ _))

/-- After a campaign has begun, `state_` names a follower and `step_func_` a candidate. -/
theorem campaign_not_roleCoherent (u : Unspecified) (r : Raft) :
    ¬ RoleCoherent (r.campaign u .campaignElection) := by
  intro h
  obtain ⟨msgs, heq⟩ := campaign_eq_becomeCandidate u r
  have hfuncs := h.funcs
  rw [heq] at hfuncs
  cases hfuncs

theorem step_roleCoherent (u : Unspecified) {msg : Message} (hr : RoleCoherent r)
    (hquiet : ¬ (msg.type = .msgHup ∧ r.MayCampaign)) : RoleCoherent (r.step u msg).2 := by
  apply step_elim u r msg fun _ => hr
  · intro htype hstate hpreVote
    exact absurd ⟨htype, hstate, hpreVote⟩ hquiet
  · intro _ _ _
    refine ⟨hr.funcs, hr.lead, fun e he => ?_⟩
    rcases List.mem_append.mp he with he | he
    · exact hr.transitions e he
    · rw [List.mem_singleton.mp he]
      rfl
  · intro _ hfunc
    exact hr.stepFollower hfunc u msg
  · intro _ hfunc
    exact hr.stepCandidate hfunc u msg
  · intro _ _
    exact hr.stepLeader u msg

theorem step_roleCoherent_iff (u : Unspecified) (msg : Message) (hr : RoleCoherent r) :
    RoleCoherent (r.step u msg).2 ↔ ¬ (msg.type = .msgHup ∧ r.MayCampaign) := by
  constructor
  · rintro h ⟨htype, hmay⟩
    rw [step_of_msgHup htype, if_pos ⟨hmay.1, hmay.2⟩] at h
    exact campaign_not_roleCoherent u r h
  · intro hquiet
    exact step_roleCoherent u hr hquiet

theorem RoleCoherent.of_counts (hr : RoleCoherent r) (h : Counts r r') : RoleCoherent r' := by
  have hquiet := h.noElection
  obtain ⟨_, _, _, rfl, -⟩ := h
  exact hr.of_sameRole ⟨rfl, rfl, rfl, rfl, rfl⟩ hquiet

theorem tickElection_roleCoherent_iff (u : Unspecified) (hr : RoleCoherent r) :
    RoleCoherent (r.tickElection u) ↔
      ¬ ((r.id ∈ r.prs ∧ r.randomizedElectionTimeout ≤ r.electionElapsed + 1) ∧
        r.MayCampaign) := by
  unfold tickElection
  dsimp only
  split
  · next hdue =>
      have hdue : r.id ∈ r.prs ∧ r.randomizedElectionTimeout ≤ r.electionElapsed + 1 := by
        simpa [promotable, pastElectionTimeout] using hdue
      have hreset := hr.of_counts (counts_with r 0 r.heartbeatElapsed)
      have hhup := hreset.of_counts (counts_record _ (e := .hup) rfl)
      rw [step_roleCoherent_iff u _ hhup]
      exact not_congr ⟨fun h => ⟨hdue, h.2⟩, fun h => ⟨rfl, h.2⟩⟩
  · next hdue =>
      have hdue : ¬ (r.id ∈ r.prs ∧ r.randomizedElectionTimeout ≤ r.electionElapsed + 1) := by
        simpa [promotable, pastElectionTimeout] using hdue
      exact iff_of_true (hr.of_counts (counts_with ..)) fun h => hdue h.1

theorem tickHeatbeat_roleCoherent (u : Unspecified) (hr : RoleCoherent r) :
    RoleCoherent (r.tickHeatbeat u) := by
  apply tickHeatbeat_preserves (fun h hr => RoleCoherent.of_counts hr h) ?_ hr
  intro r msg htype hr
  refine step_roleCoherent u hr fun h => ?_
  rw [h.1] at htype
  cases htype

/-- **One reaction.** A coherent node stays coherent exactly if it starts no campaign. -/
theorem react_roleCoherent_iff (i : Input) (hr : RoleCoherent r) :
    RoleCoherent (r.react i) ↔ ¬ i.Campaigns r := by
  cases i with
  | step u msg => exact step_roleCoherent_iff u msg hr
  | tick u =>
      have hrecord : RoleCoherent (r.record .tick) := hr.of_counts (counts_record r rfl)
      show RoleCoherent (r.tick u) ↔ _
      unfold tick Input.Campaigns
      dsimp only
      split
      · next hfunc =>
          rw [tickElection_roleCoherent_iff u hrecord]
          exact not_congr (and_congr_left' (iff_and_self.mpr fun _ => hfunc))
      · next hfunc =>
          have hfunc : r.tickFunc = .tickHeatbeat := hfunc
          refine iff_of_true (tickHeatbeat_roleCoherent u hrecord) fun h => ?_
          rw [hfunc] at h
          cases h.1.1

/-- **When the roles are coherent.** Over every run from `BecomeFollower`, the three
places agree, a leader names itself and no invalid transition is made, in every
state, exactly when no call of the run starts a campaign. -/
theorem role_coherence_iff (u : Unspecified) (r : Raft) (term lead : UInt64)
    (inputs : List Input) :
    machine.Always RoleCoherent (r.unrecorded.becomeFollower u term lead) inputs ↔
      machine.Along (fun r i => ¬ i.Campaigns r) (r.unrecorded.becomeFollower u term lead)
        inputs := by
  have hstart : RoleCoherent (r.unrecorded.becomeFollower u term lead) :=
    ⟨rfl, nofun, fun e he => by rw [List.mem_singleton.mp he]; rfl⟩
  apply Machine.always_ofFun_iff_along (I := fun _ => True) (fun _ _ _ => trivial) ?_ trivial hstart
  intro s i _ hs
  exact (react_roleCoherent_iff i hs).symm

/-- After a `MsgHup`, `state_` names a follower and `step_func_` a candidate. -/
theorem role_coherence_fails :
    ¬ ∀ (u : Unspecified) (r : Raft) (term lead : UInt64) (inputs : List Input),
      machine.Always RoleCoherent (r.unrecorded.becomeFollower u term lead) inputs := by
  intro h
  have hlast := Machine.always_ofFun_foldl (h .filledIn (started 1 [1, 2, 3]) 1 0
    [.step .filledIn { type := .msgHup, from_ := 1 }])
  exact absurd hlast.funcs (by decide)

end Raft

end Anraft
