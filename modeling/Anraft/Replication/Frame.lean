import Anraft.RaftFrames

/-!
# What replication leaves alone

A leader that replicates entries changes the progress of the members, its log and
the messages it has queued, and nothing else of the node: neither the role, nor a
timer, nor the history.
-/

namespace Anraft

namespace Raft

variable {u : Unspecified} {r r' r'' : Raft} {msg : Message}

def Replicates (r r' : Raft) : Prop :=
  ∃ prs learnerPrs msgs raftlog, r' = { r with prs, learnerPrs, msgs, raftlog }

namespace Replicates

theorem refl (r : Raft) : Replicates r r := ⟨_, _, _, _, rfl⟩

theorem trans (h : Replicates r r') (h' : Replicates r' r'') : Replicates r r'' := by
  obtain ⟨_, _, _, _, rfl⟩ := h
  obtain ⟨_, _, _, _, rfl⟩ := h'
  exact ⟨_, _, _, _, rfl⟩

theorem history (h : Replicates r r') : r'.history = r.history := by
  obtain ⟨_, _, _, _, rfl⟩ := h
  rfl

end Replicates

theorem SendsOnly.replicates (h : SendsOnly r r') : Replicates r r' := by
  obtain ⟨msgs, learnerPrs, rfl⟩ := h
  exact ⟨r.prs, learnerPrs, msgs, r.raftlog, rfl⟩

theorem replicates_raftlog (r : Raft) (raftlog : RaftLog) :
    Replicates r { r with raftlog := raftlog } :=
  ⟨r.prs, r.learnerPrs, r.msgs, raftlog, rfl⟩

theorem modifyProgress_replicates (r : Raft) (ptr : ProgressPtr) (f : Progress → Progress) :
    Replicates r (r.modifyProgress ptr f) := by
  cases ptr with
  | prs id => exact ⟨r.prs.modify id f, r.learnerPrs, r.msgs, r.raftlog, rfl⟩
  | learnerPrs id => exact ⟨r.prs, r.learnerPrs.modify id f, r.msgs, r.raftlog, rfl⟩

theorem replicates_keptByReplication (u : Unspecified) : KeptByReplication u Replicates where
  refl := .refl
  trans := .trans
  getProgress r id := (getProgress_sendsOnly r id).replicates
  modifyProgress := modifyProgress_replicates
  maybeCommit r := replicates_raftlog r _
  bcastAppend r := (bcastAppend_sendsOnly u r).replicates

theorem appendEntry_replicates (u : Unspecified) (r : Raft) (entries : List LogEntry) :
    Replicates r (r.appendEntry u entries) :=
  (replicates_keptByReplication u).appendEntry replicates_raftlog r entries

theorem stepLeaderProgress_replicates (u : Unspecified) (r : Raft) (msg : Message) :
    Replicates r (r.stepLeaderProgress u msg).2 :=
  (replicates_keptByReplication u).stepLeaderProgress r msg

/-- Besides replicating, a follower records the call. -/
theorem handleAppendEntries_replicates (u : Unspecified) (r : Raft) (msg : Message) :
    Replicates (r.record (.maybeAppend msg.index msg.term msg.commit msg.entries))
      (r.handleAppendEntries u msg) := by
  obtain ⟨msgs, heq⟩ := handleAppendEntries_eq u r msg
  exact ⟨r.prs, r.learnerPrs, msgs, _, heq⟩

/-- The check of the quorum has failed: the leader falls back to the role of a follower. -/
def LosesQuorum (u : Unspecified) (msg : Message) : Prop :=
  msg.type = .msgCheckQuorum ∧ u.checkQuorumActive = false

instance (u : Unspecified) (msg : Message) : Decidable (LosesQuorum u msg) :=
  inferInstanceAs (Decidable (_ ∧ _))

theorem stepLeader_of_losesQuorum (h : LosesQuorum u msg) (r : Raft) :
    (r.stepLeader u msg).2 = ((r.becomeFollower u r.term 0).stepLeaderProgress u msg).2 := by
  simp [stepLeader, h.1, h.2]

theorem stepLeader_replicates (h : ¬ LosesQuorum u msg) (r : Raft) :
    Replicates r (r.stepLeader u msg).2 := by
  unfold stepLeader
  split
  · next htype =>
      have hactive : u.checkQuorumActive = true :=
        Bool.of_not_eq_false fun hinactive => h ⟨htype, hinactive⟩
      rw [hactive]
      exact stepLeaderProgress_replicates u r msg
  · split
    · exact .refl r
    · split
      · exact .refl r
      · have hbcast := (bcastAppend_sendsOnly u (r.appendEntry u msg.entries)).replicates
        have happend := (appendEntry_replicates u r msg.entries).trans hbcast
        exact happend.trans (stepLeaderProgress_replicates u _ msg)
  · exact stepLeaderProgress_replicates u r msg

end Raft

end Anraft
