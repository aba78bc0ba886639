import Anraft.Cluster.Traffic
import Anraft.Replication.CommitProvenance
import Anraft.Replication.Proposals

/-!
# What a member reads that nothing has set

`Campaign` and `SendHeartbeat` have variables they may read before setting them,
`MaybeCommit` reads a vector at a position it may not have, and most step functions end
without a `return`. For a voting member with an id none of this is ever looked at, the count of
`Poll` apart.
-/

namespace Anraft

namespace Raft

variable {u u' : Unspecified} {r : Raft} {msg : Message}

/-- Answers that differ in nothing but what is read unset, outside a vector, or from a function
without a `return`. `Poll` reads its count unset, too, and there the two agree. -/
def Agree (u u' : Unspecified) : Prop :=
  ∃ ctx commit campaignTerm campaignType outsideMatches outsideEntries returned,
    u' = { u with
      lastPendingRequestCtx := ctx
      commit := commit
      campaignTerm := campaignTerm
      campaignType := campaignType
      outsideMatches := outsideMatches
      outsideEntries := outsideEntries
      returned := returned }

theorem Agree.becomeFollower (h : Agree u u') (r : Raft) (term lead : UInt64) :
    r.becomeFollower u' term lead = r.becomeFollower u term lead := by
  obtain ⟨_, _, _, _, _, _, _, rfl⟩ := h
  rfl

theorem Agree.campaign (h : Agree u u') (r : Raft) :
    r.campaign u' .campaignElection = r.campaign u .campaignElection := by
  obtain ⟨_, _, _, _, _, _, _, rfl⟩ := h
  rfl

theorem Agree.canVote (h : Agree u u') (r : Raft) (msg : Message) :
    r.canVote u' msg = r.canVote u msg := by
  obtain ⟨_, _, _, _, _, _, _, rfl⟩ := h
  rfl

theorem Agree.stepFollower (h : Agree u u') (r : Raft) (msg : Message) :
    (r.stepFollower u' msg).2 = (r.stepFollower u msg).2 := by
  obtain ⟨_, _, _, _, _, _, _, rfl⟩ := h
  unfold Raft.stepFollower
  split <;> rfl

/-- The position `Quorum() - 1` is there as soon as there is a member. -/
theorem Agree.maybeCommit (h : Agree u u') (hprs : r.prs.isEmpty = false) :
    r.maybeCommit u' = r.maybeCommit u := by
  obtain ⟨q, hq, -⟩ := exists_quorumIndex hprs
  obtain ⟨_, _, _, _, _, _, _, rfl⟩ := h
  unfold Raft.maybeCommit
  simp only [hq, Option.getD_some]

theorem Agree.appendEntry (h : Agree u u') (hprs : r.prs.isEmpty = false)
    (entries : List LogEntry) : r.appendEntry u' entries = r.appendEntry u entries := by
  have hwritten : u'.toUnwritten = u.toUnwritten := by
    obtain ⟨_, _, _, _, _, _, _, rfl⟩ := h
    rfl
  rw [appendEntry_eq_stamp, appendEntry_eq_stamp, hwritten, h.maybeCommit]
  exact (updateProgress_sameConfig _ _ _).prs_isEmpty.trans hprs

/-- With an id no broadcast looks a member up, and none sends. -/
theorem Agree.bcastAppend (hid : r.id ≠ 0) : r.bcastAppend u' = r.bcastAppend u := by
  rw [bcastAppend_of_id_ne_zero hid, bcastAppend_of_id_ne_zero hid]

theorem Agree.stepCandidate (h : Agree u u') (hid : r.id ≠ 0) (msg : Message) :
    (r.stepCandidate u' msg).2 = (r.stepCandidate u msg).2 := by
  by_cases hresp : isVoteResp msg.type = true
  · have hcounts : r.CountsAsElected u' msg ↔ r.CountsAsElected u msg := by
      obtain ⟨_, _, _, _, _, _, _, rfl⟩ := h
      exact Iff.rfl
    have hleader : (r.polled msg).becomeLeader u' = (r.polled msg).becomeLeader u := by
      obtain ⟨_, _, _, _, _, _, _, rfl⟩ := h
      rfl
    have hbcast : ((r.polled msg).becomeLeader u).bcastAppend u' =
        ((r.polled msg).becomeLeader u).bcastAppend u := Agree.bcastAppend hid
    rw [stepCandidate_of_voteResp hresp, stepCandidate_of_voteResp hresp, hleader,
      h.becomeFollower, hbcast]
    simp only [hcounts]
  · rw [stepCandidate_of_not_voteResp hresp, stepCandidate_of_not_voteResp hresp]

theorem Agree.stepLeaderProgress (h : Agree u u') (hid : r.id ≠ 0) (hprs : r.prs.isEmpty = false)
    (msg : Message) : (r.stepLeaderProgress u' msg).2 = (r.stepLeaderProgress u msg).2 := by
  have hsame := (getProgress_sendsOnly r msg.from_).noElection.toSameConfig
  unfold Raft.stepLeaderProgress
  split
  · rfl
  next ptr r₁ hget =>
  rw [hget] at hsame
  have hprs₁ := (modifyProgress_noElection r₁ ptr fun p => (p.maybeUpdate msg.index).2).toSameConfig
  split
  · split
    · rfl
    · dsimp only
      rw [h.maybeCommit ((hsame.trans hprs₁).prs_isEmpty.trans hprs)]
      split
      · apply Agree.bcastAppend
        exact (hsame.trans hprs₁).id.symm ▸ hid
      · rfl
  · rfl

theorem Agree.stepLeader (h : Agree u u') (hid : r.id ≠ 0) (hprs : r.prs.isEmpty = false)
    (msg : Message) : (r.stepLeader u' msg).2 = (r.stepLeader u msg).2 := by
  have hquorum : u'.checkQuorumActive = u.checkQuorumActive := by
    obtain ⟨_, _, _, _, _, _, _, rfl⟩ := h
    rfl
  unfold Raft.stepLeader
  split
  · dsimp only
    rw [hquorum, h.becomeFollower]
    split
    · exact h.stepLeaderProgress hid hprs msg
    · exact h.stepLeaderProgress (r := r.becomeFollower u r.term 0) hid hprs msg
  · split
    · rfl
    · split
      · rfl
      · have happended := (appendEntry_noElection u r msg.entries).toSameConfig
        have hid' : (r.appendEntry u msg.entries).id ≠ 0 := happended.id.symm ▸ hid
        rw [h.appendEntry hprs, bcastAppend_of_id_ne_zero hid', bcastAppend_of_id_ne_zero hid']
        exact h.stepLeaderProgress hid' (happended.prs_isEmpty.trans hprs) msg
  · exact h.stepLeaderProgress hid hprs msg

/-- **One message.** -/
theorem Agree.step (h : Agree u u') (hid : r.id ≠ 0) (hprs : r.prs.isEmpty = false)
    (msg : Message) : (r.step u' msg).2 = (r.step u msg).2 := by
  by_cases hhup : msg.type = .msgHup
  · rw [step_of_msgHup hhup, step_of_msgHup hhup, h.campaign]
  by_cases hvote : msg.type = .msgVote
  · rw [step_of_msgVote hvote, step_of_msgVote hvote, h.canVote]
  by_cases hpre : msg.type = .msgPreVote
  · rw [step_of_msgPreVote hpre, step_of_msgPreVote hpre]
  have hrest : isHandledByStep msg.type = false := by simp [isHandledByStep, hhup, hvote, hpre]
  rw [step_of_not_handled hrest, step_of_not_handled hrest]
  cases r.stepFunc with
  | stepFollower => exact h.stepFollower r msg
  | stepCandidate => exact h.stepCandidate hid msg
  | stepLeader => exact h.stepLeader hid hprs msg

/-- The check of the quorum and the heartbeat are steps of their own. -/
theorem Agree.tick (h : Agree u u') (hid : r.id ≠ 0) (hprs : r.prs.isEmpty = false) :
    r.tick u' = r.tick u := by
  have hstep : ∀ {r' : Raft} (msg : Message), SameConfig r r' →
      (r'.step u' msg).2 = (r'.step u msg).2 :=
    fun msg hsame => h.step (hsame.id.symm ▸ hid) (hsame.prs_isEmpty.trans hprs) msg
  have hcount : ∀ (electionElapsed heartbeatElapsed : ℤ) (history : List Event),
      SameConfig r { r with electionElapsed, heartbeatElapsed, history } :=
    fun _ _ _ => .of_eq rfl rfl rfl rfl
  unfold Raft.tick
  dsimp only
  split
  · unfold tickElection
    dsimp only
    split
    · exact hstep _ (hcount _ _ _)
    · rfl
  · have hchecked : (r.record .tick).quorumChecked u' = (r.record .tick).quorumChecked u := by
      unfold quorumChecked
      dsimp only
      split
      · split
        · exact hstep _ (hcount _ _ _)
        · rfl
      · rfl
    have hsame : SameConfig r ((r.record .tick).quorumChecked u) := by
      unfold quorumChecked
      dsimp only
      split
      · split
        · exact (hcount _ _ _).trans (step_sameConfig u _ _)
        · exact hcount _ _ _
      · exact hcount _ _ _
    rw [tickHeatbeat_eq, tickHeatbeat_eq, hchecked]
    unfold heartbeaten
    split
    · rfl
    · split
      · exact hstep _ (hsame.trans (.of_eq rfl rfl rfl rfl))
      · rfl

/-! ## Runs -/

/-- The same message or tick, with answers that agree. -/
inductive AgreeOnInput : Input → Input → Prop where
  | step {u u' : Unspecified} (h : Agree u u') (msg : Message) :
      AgreeOnInput (.step u msg) (.step u' msg)
  | tick {u u' : Unspecified} (h : Agree u u') : AgreeOnInput (.tick u) (.tick u')

theorem AgreeOnInput.react {i i' : Input} (h : AgreeOnInput i i') (hid : r.id ≠ 0)
    (hprs : r.prs.isEmpty = false) : r.react i' = r.react i := by
  cases h with
  | step h msg => exact h.step hid hprs msg
  | tick h => exact h.tick hid hprs

/-- **What is not looked at.** Two runs of a voting member with an id, over the same messages and
ticks, go through the same states, whatever the variables of `Campaign` and `SendHeartbeat` that
were never set, the reads outside of a vector and the step functions without a `return` have
answered in each. The count of `Poll` and the functions without a body answer alike. -/
theorem after_eq_of_agree {start : Raft} (hid : start.id ≠ 0) (hprs : start.prs.isEmpty = false)
    {inputs inputs' : List Input} (h : List.Forall₂ AgreeOnInput inputs inputs') :
    start.after inputs' = start.after inputs := by
  induction h generalizing start with
  | nil => rfl
  | @cons i i' inputs inputs' hi _ ih =>
      have hsame := react_sameConfig start i
      show (start.react i').after inputs' = (start.react i).after inputs
      rw [hi.react hid hprs]
      exact ih (hsame.id.symm ▸ hid) (hsame.prs_isEmpty.trans hprs)

/-- Answers as unlike those of the plain ones as they may be. -/
def Unspecified.odd : Unspecified :=
  { Unspecified.filledIn with
    commit := 7
    campaignTerm := 9
    campaignType := .msgSnap
    outsideMatches := 11
    returned := .errParam }

theorem after_eq_of_agree_campaign :
    (started 1 [1, 2, 3]).after (List.replicate 10 (.tick .odd)) =
        (started 1 [1, 2, 3]).after (List.replicate 10 (.tick .filledIn)) ∧
      ((started 1 [1, 2, 3]).after (List.replicate 10 (.tick .odd))).msgs.length = 2 := by
  have hagree : AgreeOnInput (.tick .filledIn) (.tick .odd) :=
    .tick ⟨_, _, _, _, _, _, _, rfl⟩
  have hruns : List.Forall₂ AgreeOnInput (List.replicate 10 (.tick .filledIn))
      (List.replicate 10 (.tick .odd)) := by
    simp [List.replicate, hagree]
  exact ⟨after_eq_of_agree (by decide) (by decide) hruns, by decide +kernel⟩

end Raft

end Anraft
