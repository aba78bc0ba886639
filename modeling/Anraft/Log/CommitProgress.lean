import Anraft.Log.Calls
import Anraft.Replication.AppendReplies

/-!
# Progress of the commit index

The commit index is written by the leader, from the matches of the members, and by
a follower, from the leader's messages. Both go through `CommitTo`, which takes
a maximum; `applied_` is written by `NewLog` alone. So between two states of a
run the commit index has not fallen and the applied index has not moved.
-/

namespace Anraft

namespace RaftLog

variable {w : Unwritten} {l l' l'' : RaftLog}

/-- The commit index has not fallen, and nothing was applied. -/
structure CommitAdvances (l l' : RaftLog) : Prop where
  committed : l.committed ≤ l'.committed
  applied : l'.applied = l.applied

namespace CommitAdvances

theorem refl (l : RaftLog) : CommitAdvances l l := ⟨le_rfl, rfl⟩

theorem trans (h : CommitAdvances l l') (h' : CommitAdvances l' l'') : CommitAdvances l l'' where
  committed := h.committed.trans h'.committed
  applied := h'.applied.trans h.applied

theorem of_eq (h : l' = l) : CommitAdvances l l' := h ▸ refl l

/-- The documented invariant of the log. -/
theorem applied_le_committed (h : CommitAdvances l l') (hl : l.applied ≤ l.committed) :
    l'.applied ≤ l'.committed := by
  rw [h.applied]
  exact hl.trans h.committed

end CommitAdvances

theorem commitTo_commitAdvances (l : RaftLog) (c : UInt64) : CommitAdvances l (l.commitTo c) where
  committed := by
    rw [commitTo_committed]
    exact le_max_left _ _
  applied := by
    unfold commitTo
    split <;> rfl

theorem maybeCommit_commitAdvances (w : Unwritten) (l : RaftLog) (index term : UInt64) :
    CommitAdvances l (l.maybeCommit w index term).2 := by
  unfold maybeCommit
  split
  · exact commitTo_commitAdvances l index
  · exact .refl l

theorem maybeAppend_commitAdvances (w : Unwritten) (l : RaftLog) (index term committed : UInt64)
    (ents : List LogEntry) :
    CommitAdvances l (l.maybeAppend w index term committed ents).2 := by
  rw [maybeAppend_eq]
  split
  · exact commitTo_commitAdvances l _
  · exact .refl l

theorem append_commitAdvances {ents : List LogEntry} {ret : UInt64}
    (h : l.append ents = some (ret, l')) : CommitAdvances l l' := by
  unfold append at h
  split at h
  · obtain ⟨-, rfl⟩ := Prod.mk.inj (Option.some.inj h)
    exact .refl l
  · obtain ⟨_, -, heq⟩ := Option.map_eq_some_iff.mp h
    obtain ⟨-, rfl⟩ := Prod.mk.inj heq
    exact ⟨le_rfl, rfl⟩

theorem call_commitAdvances {c : LogCall} (h : l.call w c = some l') : CommitAdvances l l' := by
  cases c with
  | maybeAppend index term committed ents =>
      obtain rfl := Option.some.inj h
      exact maybeAppend_commitAdvances w l index term committed ents
  | maybeCommit index term =>
      obtain rfl := Option.some.inj h
      exact maybeCommit_commitAdvances w l index term
  | append ents =>
      obtain ⟨⟨ret, _⟩, happend, rfl⟩ := Option.map_eq_some_iff.mp h
      exact append_commitAdvances happend

/-- `MaybeCommit` answers whether it has raised the commit index. -/
theorem maybeCommit_returns_iff (w : Unwritten) (l : RaftLog) (index term : UInt64) :
    (l.maybeCommit w index term).1 = true ↔
      l.committed < (l.maybeCommit w index term).2.committed := by
  rw [maybeCommit_eq]
  split
  · next h => exact iff_of_true rfl h.1
  · exact iff_of_false Bool.false_ne_true (lt_irrefl _)

/-- A log initialised without an error has applied what is committed. -/
theorem newLog_applied {storage : Option Storage} (h : (l.newLog storage).1 ≠ some false) :
    (l.newLog storage).2.applied = (l.newLog storage).2.committed := by
  unfold newLog at h ⊢
  split
  · exact absurd rfl h
  · dsimp only at h ⊢
    split
    · next hfirst => exact absurd (by rw [if_pos hfirst]) h
    · next hfirst =>
        split
        · next hlast => exact absurd (by rw [if_neg hfirst, if_pos hlast]) h
        · rfl

/-- The unwritten `Append` leaves the two indexes alone, as its empty body does, and
the overload that is written. -/
def Unwritten.AppendKeepsIndexes (w : Unwritten) : Prop :=
  ∀ (l : RaftLog) (ents : List LogEntry),
    (w.appendRepeated l ents).2.committed = l.committed ∧
      (w.appendRepeated l ents).2.applied = l.applied

theorem filledIn_appendKeepsIndexes : Unwritten.filledIn.AppendKeepsIndexes := by
  intro l ents
  show ((l.append ents).getD (l.lastIndex, l)).2.committed = _ ∧
    ((l.append ents).getD (l.lastIndex, l)).2.applied = _
  unfold append
  split
  · exact ⟨rfl, rfl⟩
  · cases l.unstable.truncateAndAppend _ <;> exact ⟨rfl, rfl⟩

end RaftLog

namespace Raft

open RaftLog

variable {u : Unspecified} {r r' r'' : Raft}

/-! ## The node's functions -/

theorem SendsOnly.raftlog (h : SendsOnly r r') : r'.raftlog = r.raftlog := by
  obtain ⟨_, _, rfl⟩ := h
  rfl

theorem modifyProgress_raftlog (r : Raft) (ptr : ProgressPtr) (f : Progress → Progress) :
    (r.modifyProgress ptr f).raftlog = r.raftlog := by
  cases ptr <;> rfl

theorem updateProgress_raftlog (r : Raft) (id : UInt64) (f : Progress → Progress) :
    (r.updateProgress id f).raftlog = r.raftlog :=
  updateProgress_rel (R := fun r r' => r'.raftlog = r.raftlog) (fun h h' => h'.trans h)
    (fun r id => (getProgress_sendsOnly r id).raftlog) modifyProgress_raftlog r id f

theorem maybeCommit_raftlog_commitAdvances (u : Unspecified) (r : Raft) :
    CommitAdvances r.raftlog (r.maybeCommit u).2.raftlog :=
  maybeCommit_commitAdvances _ _ _ _

/-- `MaybeCommit` of the node answers whether the commit index has changed. -/
theorem maybeCommit_node_returns_iff (u : Unspecified) (r : Raft) :
    (r.maybeCommit u).1 = true ↔ r.raftlog.committed < (r.maybeCommit u).2.raftlog.committed :=
  maybeCommit_returns_iff _ _ _ _

theorem appendEntry_commitAdvances (hu : u.AppendKeepsIndexes) (r : Raft)
    (entries : List LogEntry) : CommitAdvances r.raftlog (r.appendEntry u entries).raftlog := by
  obtain ⟨ents, heq⟩ := appendEntry_eq u r entries
  rw [heq]
  obtain ⟨hcommitted, happlied⟩ := hu r.raftlog ents
  refine .trans ?_ (maybeCommit_raftlog_commitAdvances u _)
  rw [updateProgress_raftlog]
  exact ⟨hcommitted.ge, happlied⟩

theorem stepFollower_commitAdvances (u : Unspecified) (r : Raft) (msg : Message) :
    CommitAdvances r.raftlog (r.stepFollower u msg).2.raftlog := by
  unfold stepFollower
  split
  · dsimp only
    rw [handleAppendEntries_raftlog]
    exact maybeAppend_commitAdvances ..
  · exact .refl _

theorem commitAdvances_keptByReplication (u : Unspecified) :
    KeptByReplication u fun r r' => CommitAdvances r.raftlog r'.raftlog where
  refl r := .refl r.raftlog
  trans := .trans
  getProgress r id := .of_eq (getProgress_sendsOnly r id).raftlog
  modifyProgress r ptr f := .of_eq (modifyProgress_raftlog r ptr f)
  maybeCommit := maybeCommit_raftlog_commitAdvances u
  bcastAppend r := .of_eq (bcastAppend_sendsOnly u r).raftlog

theorem stepLeader_commitAdvances (hu : u.AppendKeepsIndexes) (r : Raft) (msg : Message) :
    CommitAdvances r.raftlog (r.stepLeader u msg).2.raftlog :=
  (commitAdvances_keptByReplication u).stepLeader (fun r => .refl r.raftlog)
    (appendEntry_commitAdvances hu) r msg

theorem stepCandidate_raftlog (u : Unspecified) (r : Raft) (msg : Message) :
    (r.stepCandidate u msg).2.raftlog = r.raftlog := by
  by_cases hresp : isVoteResp msg.type = true
  · rw [stepCandidate_of_voteResp hresp]
    split
    · split
      · rfl
      · exact (bcastAppend_sendsOnly u _).raftlog
    · rfl
  · rw [stepCandidate_of_not_voteResp hresp]

/-- **`Step` never lowers the commit index.** -/
theorem step_commitAdvances (hu : u.AppendKeepsIndexes) (r : Raft) (msg : Message) :
    CommitAdvances r.raftlog (r.step u msg).2.raftlog := by
  apply step_elim u r msg (P := fun r' => CommitAdvances r.raftlog r'.raftlog)
  · intro _
    exact .refl _
  · intro _ _ _
    obtain ⟨msgs, heq⟩ := campaign_eq_becomeCandidate u r
    rw [heq]
    exact .refl _
  · intro _ _ _
    exact .refl _
  · intro _ _
    exact stepFollower_commitAdvances u r msg
  · intro _ _
    rw [stepCandidate_raftlog]
    exact .refl _
  · intro _ _
    exact stepLeader_commitAdvances hu r msg

theorem tick_commitAdvances (hu : u.AppendKeepsIndexes) (r : Raft) :
    CommitAdvances r.raftlog (r.tick u).raftlog := by
  apply tick_preserves_of_counts (Q := fun r' => CommitAdvances r.raftlog r'.raftlog)
  · intro r₁ r₂ hcounts h
    obtain ⟨_, _, _, rfl, -⟩ := hcounts
    exact h
  · intro r₁ msg _ h
    exact h.trans (step_commitAdvances hu r₁ msg)
  · exact .refl _

/-! ## Runs -/

/-- The calls that may commit, those of the log itself included. Each call of the
log comes with the answers of the bodies that are missing. -/
inductive CommitCall where
  | step (u : Unspecified) (msg : Message)
  | tick (u : Unspecified)
  | log (w : Unwritten) (c : LogCall)

/-- The unwritten `Append` of the call leaves the commit index and the applied index
alone. -/
def CommitCall.AppendKeepsIndexes : CommitCall → Prop
  | .step u _ => u.AppendKeepsIndexes
  | .tick u => u.AppendKeepsIndexes
  | .log _ _ => True

def commitCall (r : Raft) : CommitCall → Option Raft
  | .step u msg => some (r.step u msg).2
  | .tick u => some (r.tick u)
  | .log w c => (r.raftlog.call w c).map fun l => { r with raftlog := l }

def commitMachine : Machine Raft CommitCall where
  step := commitCall

theorem commitCall_commitAdvances {c : CommitCall} (hc : c.AppendKeepsIndexes)
    (h : r.commitCall c = some r') : CommitAdvances r.raftlog r'.raftlog := by
  cases c with
  | step u msg =>
      obtain rfl := Option.some.inj h
      exact step_commitAdvances hc r msg
  | tick u =>
      obtain rfl := Option.some.inj h
      exact tick_commitAdvances hc r
  | log w c =>
      obtain ⟨l, hl, rfl⟩ := Option.map_eq_some_iff.mp h
      exact call_commitAdvances hl

theorem run_commitAdvances {calls : List CommitCall}
    (hkeeps : ∀ c ∈ calls, c.AppendKeepsIndexes)
    (hrun : commitMachine.run r calls = some r') : CommitAdvances r.raftlog r'.raftlog := by
  apply Machine.run_invariant (C := fun _ c => c.AppendKeepsIndexes)
    (Q := fun r' => CommitAdvances r.raftlog r'.raftlog) ?_ (Machine.along_of_forall r hkeeps)
    (.refl _) hrun
  intro r₁ c r₂ hc h hcall
  exact h.trans (commitCall_commitAdvances hc hcall)

/-- **Commit progress.** In every state of a run from a successful `NewLog`, what is
applied is committed, and no call of the run lowers the commit index. `MaybeCommit`,
of the log and of the node, answers true exactly when it raises it. -/
theorem commit_progress (r : Raft) (prior : RaftLog) (storage : Option Storage)
    (calls : List CommitCall) (hnew : (prior.newLog storage).1 ≠ some false)
    (hkeeps : ∀ c ∈ calls, c.AppendKeepsIndexes) :
    (∀ early late mid last, calls = early ++ late →
      commitMachine.run { r with raftlog := (prior.newLog storage).2 } early = some mid →
      commitMachine.run mid late = some last →
        mid.raftlog.applied ≤ mid.raftlog.committed ∧
          mid.raftlog.committed ≤ last.raftlog.committed) ∧
      (∀ (w : Unwritten) (l : RaftLog) (index term : UInt64),
        (l.maybeCommit w index term).1 = true ↔
          l.committed < (l.maybeCommit w index term).2.committed) ∧
      (∀ (u : Unspecified) (s : Raft),
        (s.maybeCommit u).1 = true ↔
          s.raftlog.committed < (s.maybeCommit u).2.raftlog.committed) := by
  refine ⟨?_, maybeCommit_returns_iff, maybeCommit_node_returns_iff⟩
  rintro early late mid last rfl hearly hlate
  have hmid := run_commitAdvances (fun c hc => hkeeps c (List.mem_append_left _ hc)) hearly
  have hlast := run_commitAdvances (fun c hc => hkeeps c (List.mem_append_right _ hc)) hlate
  exact ⟨hmid.applied_le_committed (newLog_applied hnew).le, hlast.committed⟩

/-- An entry is appended to a fresh log and committed, and the timer ticks. -/
def oneEntryCalls : List CommitCall :=
  [.log .filledIn (.append [{ term := 1, index := 1 }]), .log .filledIn (.maybeCommit 1 1),
    .tick .filledIn]

def oneEntryRun : Option Raft :=
  commitMachine.run
    { started 1 [1, 2, 3] with
      raftlog := (blank.newLog (some MemoryStorage.newMemoryStorage.toStorage)).2 }
    oneEntryCalls

theorem oneEntryRun_isSome : oneEntryRun.isSome := by decide

theorem commit_progress_one_entry :
    (oneEntryRun.get oneEntryRun_isSome).raftlog.applied ≤
      (oneEntryRun.get oneEntryRun_isSome).raftlog.committed := by
  have hkeeps : ∀ c ∈ oneEntryCalls, c.AppendKeepsIndexes := by
    intro c hc
    cases c with
    | log w c => trivial
    | tick u =>
        obtain rfl : u = .filledIn := by simpa [oneEntryCalls] using hc
        exact filledIn_appendKeepsIndexes
    | step u msg => simp [oneEntryCalls] at hc
  have hprogress := commit_progress (started 1 [1, 2, 3]) blank
    (some MemoryStorage.newMemoryStorage.toStorage) oneEntryCalls (by decide) hkeeps
  exact (hprogress.1 oneEntryCalls [] _ _ (List.append_nil _).symm
    (Option.some_get oneEntryRun_isSome).symm rfl).1

end Raft

end Anraft
