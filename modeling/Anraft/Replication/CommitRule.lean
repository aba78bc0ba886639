import Anraft.Base.OrderStatistic
import Anraft.RaftRun

/-!
# The commit rule of the leader

`MaybeCommit` sorts the matches and reads the one at position `Quorum() - 1`: the
largest index a majority of the members has reached. It is committed if the
log holds an entry of the leader's own term there.
-/

namespace Anraft

open OrderStatistic

namespace Raft

variable {u : Unspecified} {r : Raft}

/-- How many members have `Match ≥ n`. -/
def matching (r : Raft) (n : UInt64) : ℕ :=
  r.prs.toList.countP fun x => decide (n ≤ x.2.match_)

/-- The indexes reached by a majority. -/
def majorityMatched (r : Raft) : Set UInt64 := {n | r.quorum ≤ r.matching n}

theorem matching_eq_reaching (n : UInt64) :
    r.matching n = reaching (r.prs.toList.map fun x => x.2.match_) n := by
  unfold matching reaching
  rw [List.countP_map]
  rfl

/-- A majority is strict: twice its members are more than all of them. -/
theorem size_lt_of_mem_majorityMatched {n : UInt64} (h : n ∈ r.majorityMatched) :
    r.prs.size < 2 * r.matching n := by
  have hq : r.prs.size / 2 + 1 ≤ r.matching n := h
  omega

theorem prs_ne_empty_iff_quorum_le : r.prs.isEmpty = false ↔ r.quorum - 1 < r.prs.size := by
  have hsize : r.prs.isEmpty = false ↔ r.prs.size ≠ 0 := by
    rw [Std.TreeMap.isEmpty_eq_size_eq_zero]
    simp
  rw [hsize]
  unfold quorum
  omega

/-- **The quorum index.** Position `Quorum() - 1` of the sorted matches holds the
largest index a majority has reached. -/
theorem exists_quorumIndex (h : r.prs.isEmpty = false) :
    ∃ q, r.sortedMatches[r.quorum - 1]? = some q ∧ IsGreatest r.majorityMatched q := by
  have hk : r.quorum - 1 < (r.prs.toList.map fun x => x.2.match_).length := by
    rw [List.length_map, Std.TreeMap.length_toList]
    exact prs_ne_empty_iff_quorum_le.mp h
  obtain ⟨q, hq, hgreatest⟩ := exists_isGreatest_insertionSort _ hk
  refine ⟨q, hq, ?_⟩
  have hset : {n | r.quorum - 1 < reaching (r.prs.toList.map fun x => x.2.match_) n} =
      r.majorityMatched := by
    ext n
    rw [Set.mem_ofPred_eq, ← matching_eq_reaching]
    show _ ↔ r.quorum ≤ _
    unfold quorum
    omega
  rwa [hset] at hgreatest

/-- `MaybeCommit` for the quorum index `q`. -/
theorem maybeCommit_of_quorumIndex (hw : u.TermIsStored) (hterm : 1 ≤ r.term) {q : UInt64}
    (hq : r.sortedMatches[r.quorum - 1]? = some q) :
    r.maybeCommit u =
      if r.raftlog.committed < q ∧ r.raftlog.Holds q r.term then
        (true, { r with raftlog := { r.raftlog with committed := q } })
      else (false, r) := by
  have hne : r.term ≠ 0 := by
    rintro h
    rw [h] at hterm
    exact absurd hterm (by decide)
  unfold maybeCommit
  simp only [hq, Option.getD_some, RaftLog.maybeCommit_eq, RaftLog.zeroTerm_term_eq_iff hw hne]
  by_cases hcommit : r.raftlog.committed < q ∧ r.raftlog.Holds q r.term
  · rw [if_pos hcommit, if_pos hcommit]
  · rw [if_neg hcommit, if_neg hcommit]

/-- **The commit rule.** Let `q` be the largest index a majority has reached. The
commit index moves to `q` exactly when `q` is above it, inside the log, and an
entry of the leader's term; otherwise nothing changes. So what is committed is
matched by a strict majority, of the leader's own term, and inside the log. -/
theorem commit_rule (u : Unspecified) (r : Raft) (hprs : r.prs.isEmpty = false)
    (hterm : 1 ≤ r.term) (hw : u.TermIsStored) :
    ∃ q, IsGreatest {n | r.prs.size / 2 + 1 ≤ r.matching n} q ∧
      r.maybeCommit u =
        (if r.raftlog.committed < q ∧
            (r.raftlog.firstIndex - 1 ≤ q ∧ q ≤ r.raftlog.lastIndex) ∧
            r.raftlog.storedTerm q = r.term then
          (true, { r with raftlog := { r.raftlog with committed := q } })
        else (false, r)) ∧
      ((r.maybeCommit u).2.raftlog.committed ≠ r.raftlog.committed →
        r.prs.size < 2 * r.matching (r.maybeCommit u).2.raftlog.committed ∧
          r.raftlog.storedTerm (r.maybeCommit u).2.raftlog.committed = r.term ∧
          (r.maybeCommit u).2.raftlog.committed ≤ r.raftlog.lastIndex) := by
  obtain ⟨q, hq, hgreatest⟩ := exists_quorumIndex hprs
  have hcommit := maybeCommit_of_quorumIndex hw hterm hq
  refine ⟨q, hgreatest, hcommit, fun hmoved => ?_⟩
  rw [hcommit] at hmoved ⊢
  split at hmoved
  · next h =>
      rw [if_pos h]
      exact ⟨size_lt_of_mem_majorityMatched hgreatest.1, h.2.2, h.2.1.2⟩
  · exact absurd rfl hmoved

/-- The leader of three members in term 1, with two entries of that term: node 2
has the first one, the leader both. -/
def leaderOfThree : Raft :=
  let members : List (UInt64 × Progress) :=
    [(1, { match_ := 2, next := 3 }), (2, { match_ := 1, next := 2 }), (3, { next := 1 })]
  { started 1 [1, 2, 3] with
    term := 1
    state := .stateLeader
    stepFunc := .stepLeader
    tickFunc := .tickHeatbeat
    lead := 1
    prs := .ofList members
    raftlog := {
      storage := MemoryStorage.newMemoryStorage.toStorage
      unstable := { entries := [{ term := 1, index := 1 }, { term := 1, index := 2 }], offset := 1 }
      committed := 0
      applied := 0 } }

/-- Index 1 is committed. -/
theorem commit_rule_leaderOfThree :
    leaderOfThree.prs.size <
        2 * leaderOfThree.matching (leaderOfThree.maybeCommit .filledIn).2.raftlog.committed ∧
      leaderOfThree.raftlog.storedTerm
        (leaderOfThree.maybeCommit .filledIn).2.raftlog.committed = leaderOfThree.term ∧
      (leaderOfThree.maybeCommit .filledIn).2.raftlog.committed ≤
        leaderOfThree.raftlog.lastIndex := by
  obtain ⟨_, -, -, hmoved⟩ := commit_rule .filledIn leaderOfThree (by decide) (by decide)
    RaftLog.filledIn_termIsStored
  exact hmoved (by decide)

end Raft

end Anraft
