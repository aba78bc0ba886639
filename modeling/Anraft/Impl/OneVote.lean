import Anraft.Impl.Elections

/-!
# One vote in a term

Three functions write the term and the vote of the replica: `Election` stands for
itself in a new term, `ElectionCallback` and `CheckTerm` give the vote up for a newer
term. None writes the vote without raising the term.
-/

namespace Anraft

namespace AnraftImpl

variable {s s' : AnraftImpl}

/-- The calls that start an election or bring in a response. -/
inductive ReplicaCall where
  | elect (c : ElectionCall)
  | replicateLogToFollower (u : Unspecified) (id : ℕ)

def act (s : AnraftImpl) : ReplicaCall → AnraftImpl
  | .elect c => s.elect c
  | .replicateLogToFollower u id => s.replicateLogToFollower u id

/-- From `s` to `s'` the term does not fall, and the vote stays while the term does. -/
def VoteKept (s s' : AnraftImpl) : Prop :=
  s.currentTerm ≤ s'.currentTerm ∧
    (s'.currentTerm = s.currentTerm → s'.votedFor = s.votedFor)

namespace VoteKept

theorem refl (s : AnraftImpl) : VoteKept s s := ⟨le_rfl, fun _ => rfl⟩

theorem trans (s t u : AnraftImpl) (hst : VoteKept s t) (htu : VoteKept t u) : VoteKept s u := by
  refine ⟨hst.1.trans htu.1, fun hterm => ?_⟩
  -- the term between the two cannot differ from both
  have hmid : t.currentTerm = s.currentTerm := le_antisymm (hterm ▸ htu.1) hst.1
  rw [htu.2 (hterm.trans hmid.symm), hst.2 hmid]

/-- A newer term may come with any vote. -/
theorem of_lt (h : s.currentTerm < s'.currentTerm) : VoteKept s s' :=
  ⟨h.le, fun hterm => absurd hterm h.ne'⟩

theorem of_eq (hterm : s'.currentTerm = s.currentTerm) (hvote : s'.votedFor = s.votedFor) :
    VoteKept s s' :=
  ⟨hterm.ge, fun _ => hvote⟩

/-- The vote changes only with the term. -/
theorem term_lt (h : VoteKept s s') (hvote : s'.votedFor ≠ s.votedFor) :
    s.currentTerm < s'.currentTerm :=
  h.1.lt_of_ne fun hterm => hvote (h.2 hterm.symm)

end VoteKept

theorem voteKept_election (s : AnraftImpl) : VoteKept s s.election.2 := by
  by_cases hleader : s.role = .kLeader
  · rw [election_of_leader hleader]
    exact .refl s
  · rw [election_eq hleader]
    exact .of_lt (Int.lt_succ s.currentTerm)

theorem voteKept_checkTerm (s : AnraftImpl) (term : ℤ) : VoteKept s (s.checkTerm term).2 := by
  rcases le_or_gt term s.currentTerm with hterm | hterm
  · rw [checkTerm_eq_of_le hterm]
    exact .refl s
  · rw [checkTerm_eq_of_lt hterm]
    exact .of_lt hterm

/-- The callback gives way to a newer term as `CheckTerm` does, then may count the
vote, which touches neither term nor vote. -/
theorem voteKept_electionCallback (s : AnraftImpl) (response : VoteResponse) (failed : Bool)
    (error : ℤ) (voteNode : Bytes) :
    VoteKept s (s.electionCallback response failed error voteNode) := by
  unfold electionCallback
  split
  · exact .refl s
  extract_lets term granted s'
  have hyield : VoteKept s s' := by
    unfold s'
    split
    · next hnewer => exact .of_lt hnewer
    · exact .refl s
  split
  · exact hyield
  · obtain ⟨-, hterm, hvote, -⟩ := countVote_fields s' voteNode
    exact .trans s s' _ hyield (.of_eq hterm hvote)

theorem voteKept_replicateLogToFollower (u : Unspecified) (s : AnraftImpl) (id : ℕ) :
    VoteKept s (s.replicateLogToFollower u id) := by
  apply replicate_elim (P := VoteKept s) u s id
  · exact .refl s
  · intro term hterm
    exact .of_lt hterm
  · exact .of_eq rfl rfl
  · intro _
    obtain ⟨lastApplied, applyCallbacks, invoked, heq⟩ := commitMatches_eq u s
    rw [heq]
    exact .of_eq rfl rfl

/-- **One call.** -/
theorem voteKept_act (s : AnraftImpl) (c : ReplicaCall) : VoteKept s (s.act c) := by
  cases c with
  | elect c =>
      cases c with
      | election => exact voteKept_election s
      | electionCallback response failed error voteNode =>
          exact voteKept_electionCallback s response failed error voteNode
      | checkTerm term => exact voteKept_checkTerm s term
  | replicateLogToFollower u id => exact voteKept_replicateLogToFollower u s id

/-- **At most one vote per term.** In a run from any state, with any responses, the
term never falls; whatever is called later, the vote is the same as long as the term
is; and a single call changes the vote only by raising the term. -/
theorem keeps_vote_in_term (start : AnraftImpl) (early late : List ReplicaCall) (c : ReplicaCall) :
    (early.foldl act start).currentTerm ≤ ((early ++ late).foldl act start).currentTerm ∧
      (((early ++ late).foldl act start).currentTerm = (early.foldl act start).currentTerm →
        ((early ++ late).foldl act start).votedFor = (early.foldl act start).votedFor) ∧
      (((early ++ [c]).foldl act start).votedFor ≠ (early.foldl act start).votedFor →
        (early.foldl act start).currentTerm < ((early ++ [c]).foldl act start).currentTerm) := by
  have hrun := Machine.foldl_related VoteKept.refl VoteKept.trans voteKept_act
    (early.foldl act start)
  rw [List.foldl_append, List.foldl_append]
  exact ⟨(hrun late).1, (hrun late).2, (hrun [c]).term_lt⟩

end AnraftImpl

end Anraft
