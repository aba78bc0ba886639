import Anraft.AnraftImpl
import Anraft.Base.Machine

/-!
# Who elects the replica

`votes_` is never cleared, and a response of a newer term is counted after it has
turned the node into a follower. A run whose elections start without votes, and
which counts only what answers the election that is on, makes a leader by a
majority of its own term.
-/

namespace Anraft

namespace AnraftImpl

variable {s : AnraftImpl} {response : VoteResponse} {failed : Bool} {error : ℤ}

/-! ## Calls -/

inductive ElectionCall where
  | election
  | electionCallback (response : VoteResponse) (failed : Bool) (error : ℤ) (voteNode : Bytes)
  | checkTerm (term : ℤ)
deriving DecidableEq, Repr

def elect (s : AnraftImpl) : ElectionCall → AnraftImpl
  | .election => s.election.2
  | .electionCallback response failed error voteNode =>
    s.electionCallback response failed error voteNode
  | .checkTerm term => (s.checkTerm term).2

abbrev electionMachine : Machine AnraftImpl ElectionCall := .ofFun elect

/-- The call delivers a granted response of `node` with `term`. -/
def ElectionCall.Grants (term : ℤ) (node : Bytes) : ElectionCall → Prop
  | .electionCallback response _ _ voteNode =>
    response.voteGranted = true ∧ response.term = term ∧ voteNode = node
  | _ => False

/-- The response gets as far as `votes_`. -/
def Counts (s : AnraftImpl) (response : VoteResponse) (failed : Bool) (error : ℤ) : Prop :=
  (failed = true ∧ error = 0) ∧ response.voteGranted = true ∧
    (s.currentTerm < response.term ∨ (response.term = s.currentTerm ∧ s.role ≠ .kLeader))

/-- An election starts without votes, and a response that is counted answers the
election that is on. -/
def CountsOwnElection (s : AnraftImpl) : ElectionCall → Prop
  | .election => s.role ≠ .kLeader → s.votes = ∅
  | .electionCallback response failed error _ =>
    s.Counts response failed error → s.role = .kCandidate ∧ response.term = s.currentTerm
  | .checkTerm _ => True

/-! ## What a call does -/

theorem checkTerm_cases (s : AnraftImpl) (term : ℤ) :
    (s.checkTerm term).2 = s ∨ (s.checkTerm term).2.role = .kFollower := by
  unfold checkTerm
  split
  · exact .inr rfl
  · exact .inl rfl

theorem election_eq (h : s.role ≠ .kLeader) :
    s.election.2 =
      { s with
        currentTerm := s.currentTerm + 1
        role := .kCandidate
        votedFor := s.options.localAddr } := by
  unfold election
  rw [if_neg h]

theorem election_of_leader (h : s.role = .kLeader) : s.election.2 = s := by
  unfold election
  rw [if_pos h]

/-- A response that is not counted demotes the node at most. -/
theorem electionCallback_of_not_counts (h : ¬ s.Counts response failed error) (voteNode : Bytes) :
    s.electionCallback response failed error voteNode = s ∨
      (s.electionCallback response failed error voteNode).role = .kFollower := by
  unfold electionCallback
  split
  · exact .inl rfl
  · next hdelivered =>
      obtain ⟨hfailed, herror⟩ := not_or.mp hdelivered
      have hdelivered : failed = true ∧ error = 0 :=
        ⟨Bool.eq_true_of_not_eq_false hfailed, not_not.mp herror⟩
      dsimp only
      by_cases hnewer : s.currentTerm < response.term
      · rw [if_pos hnewer]
        by_cases hgranted : response.voteGranted = true
        · exact absurd ⟨hdelivered, hgranted, .inl hnewer⟩ h
        · rw [if_pos (.inr (.inl (Bool.eq_false_of_not_eq_true hgranted)))]
          exact .inr rfl
      · rw [if_neg hnewer]
        split
        · exact .inl rfl
        · next hcounted =>
            obtain ⟨hterm, hcounted⟩ := not_or.mp hcounted
            obtain ⟨hgranted, hrole⟩ := not_or.mp hcounted
            exact absurd ⟨hdelivered, Bool.eq_true_of_not_eq_false hgranted,
              .inr ⟨not_not.mp hterm, hrole⟩⟩ h

theorem electionCallback_of_counts (h : s.Counts response failed error)
    (hterm : response.term = s.currentTerm) (voteNode : Bytes) :
    s.electionCallback response failed error voteNode = s.countVote voteNode := by
  obtain ⟨⟨rfl, rfl⟩, hgranted, hrole⟩ := h
  have hrole : s.role ≠ .kLeader := by
    rcases hrole with hnewer | ⟨-, hrole⟩
    · exact absurd hterm hnewer.ne'
    · exact hrole
  unfold electionCallback
  rw [if_neg (by simp)]
  dsimp only
  rw [if_neg hterm.le.not_gt, if_neg]
  simp [hterm, hgranted, hrole]

/-- **What a call can do** when it meets its condition: nothing, demote the node, start an
election, or count a vote of the election that is on. -/
theorem elect_cases {c : ElectionCall} (hc : s.CountsOwnElection c) :
    s.elect c = s ∨ (s.elect c).role = .kFollower ∨
      (c = .election ∧ s.role ≠ .kLeader ∧ s.votes = ∅ ∧
        s.elect c =
          { s with
            currentTerm := s.currentTerm + 1
            role := .kCandidate
            votedFor := s.options.localAddr }) ∨
      ∃ v, s.role = .kCandidate ∧ c.Grants s.currentTerm v ∧ s.elect c = s.countVote v := by
  cases c with
  | election =>
      by_cases hleader : s.role = .kLeader
      · exact .inl (election_of_leader hleader)
      · exact .inr (.inr (.inl ⟨rfl, hleader, hc hleader, election_eq hleader⟩))
  | electionCallback response failed error v =>
      by_cases hcounts : s.Counts response failed error
      · obtain ⟨hcandidate, hterm⟩ := hc hcounts
        refine .inr (.inr (.inr ⟨v, hcandidate, ⟨hcounts.2.1, hterm, rfl⟩, ?_⟩))
        exact electionCallback_of_counts hcounts hterm v
      · rcases electionCallback_of_not_counts hcounts v with hsame | hfollower
        · exact .inl hsame
        · exact .inr (.inl hfollower)
  | checkTerm term =>
      rcases checkTerm_cases s term with hsame | hfollower
      · exact .inl hsame
      · exact .inr (.inl hfollower)

/-! ## The election behind a leader -/

/-- In `calls`, from `start` to `s`, the node ran an election in its current term, and
each of `voters` granted that term afterwards. -/
def StoodWith (start : AnraftImpl) (calls : List ElectionCall) (s : AnraftImpl)
    (voters : Finset Bytes) : Prop :=
  s.votedFor = s.options.localAddr ∧
    ∃ early late, calls = early ++ .election :: late ∧
      (early.foldl elect start).role ≠ .kLeader ∧
      (early.foldl elect start).currentTerm + 1 = s.currentTerm ∧
      ∀ v ∈ voters, ∃ c ∈ late, c.Grants s.currentTerm v

/-- Whenever a call of the run makes the node leader, a majority of the nodes has
elected it in its term. -/
def ElectedByMajority (start : AnraftImpl) (calls : List ElectionCall) : Prop :=
  ∀ before c after, calls = before ++ c :: after →
    (before.foldl elect start).role ≠ .kLeader →
    ((before.foldl elect start).elect c).role = .kLeader →
      ∃ voters : Finset Bytes,
        ((before.foldl elect start).elect c).options.nodes.length / 2 + 1 ≤ voters.card ∧
          StoodWith start (before ++ [c]) ((before.foldl elect start).elect c) voters

/-- The invariant of a run: the votes of a candidate are those of its election. -/
def CandidateStood (start : AnraftImpl) (calls : List ElectionCall) : Prop :=
  (calls.foldl elect start).role = .kCandidate →
    StoodWith start calls (calls.foldl elect start) (calls.foldl elect start).votes

variable {start : AnraftImpl} {calls : List ElectionCall}

namespace StoodWith

variable {s' : AnraftImpl} {voters : Finset Bytes} {c : ElectionCall} {v : Bytes}

/-- Only the term, the vote and the options of the node matter. -/
theorem congr (h : StoodWith start calls s voters) (hterm : s'.currentTerm = s.currentTerm)
    (hvotedFor : s'.votedFor = s.votedFor) (hoptions : s'.options = s.options) :
    StoodWith start calls s' voters := by
  unfold StoodWith at h ⊢
  rwa [hterm, hvotedFor, hoptions]

/-- A further call keeps what was granted, and may add to it. -/
theorem extend {voters' : Finset Bytes} (h : StoodWith start calls s voters)
    (hnew : ∀ v ∈ voters', v ∈ voters ∨ c.Grants s.currentTerm v) :
    StoodWith start (calls ++ [c]) s voters' := by
  obtain ⟨hvoted, early, late, rfl, hrole, hrun, hgrants⟩ := h
  refine ⟨hvoted, early, late ++ [c], by simp, hrole, hrun, ?_⟩
  intro v hv
  rcases hnew v hv with hv | hc
  · obtain ⟨d, hd, hgrants⟩ := hgrants v hv
    exact ⟨d, List.mem_append_left _ hd, hgrants⟩
  · exact ⟨c, List.mem_append_right _ (List.mem_singleton_self c), hc⟩

theorem snoc (h : StoodWith start calls s voters) (c : ElectionCall) :
    StoodWith start (calls ++ [c]) s voters :=
  h.extend fun _ hv => .inl hv

theorem insert (h : StoodWith start calls s voters) (hc : c.Grants s.currentTerm v) :
    StoodWith start (calls ++ [c]) s (insert v voters) := by
  apply h.extend
  intro w hw
  rcases Finset.mem_insert.mp hw with rfl | hw
  · exact .inr hc
  · exact .inl hw

end StoodWith

/-- What `countVote` leaves of the state. -/
theorem countVote_fields (s : AnraftImpl) (v : Bytes) :
    (s.countVote v).votes = insert v s.votes ∧ (s.countVote v).currentTerm = s.currentTerm ∧
      (s.countVote v).votedFor = s.votedFor ∧ (s.countVote v).options = s.options := by
  unfold countVote
  dsimp only
  split <;> exact ⟨rfl, rfl, rfl, rfl⟩

/-- Counting a vote makes a leader only of a majority. -/
theorem countVote_isLeader (hrole : s.role ≠ .kLeader) {v : Bytes}
    (h : (s.countVote v).role = .kLeader) :
    s.options.nodes.length / 2 + 1 ≤ (insert v s.votes).card := by
  unfold countVote at h
  dsimp only at h
  split at h
  · next hmajority => exact hmajority
  · exact absurd h hrole

/-- A vote counted for a candidate is one of its election. -/
theorem countVote_stoodWith (hstood : CandidateStood start calls) {c : ElectionCall} {v : Bytes}
    (hcandidate : (calls.foldl elect start).role = .kCandidate)
    (hc : c.Grants (calls.foldl elect start).currentTerm v) :
    StoodWith start (calls ++ [c]) ((calls.foldl elect start).countVote v)
      (insert v (calls.foldl elect start).votes) := by
  obtain ⟨-, hterm, hvotedFor, hoptions⟩ := countVote_fields (calls.foldl elect start) v
  exact ((hstood hcandidate).insert hc).congr hterm hvotedFor hoptions

/-- **One call.** The votes of a candidate stay those of its election. -/
theorem candidateStood_snoc {c : ElectionCall}
    (hc : (calls.foldl elect start).CountsOwnElection c) (h : CandidateStood start calls) :
    CandidateStood start (calls ++ [c]) := by
  unfold CandidateStood
  rw [List.foldl_append, List.foldl_cons, List.foldl_nil]
  intro hcandidate
  rcases elect_cases hc with hsame | hfollower | ⟨rfl, hrole, hvotes, hstarts⟩ |
    ⟨v, hstanding, hgrants, hcounts⟩
  · rw [hsame] at hcandidate ⊢
    exact (h hcandidate).snoc c
  · rw [hfollower] at hcandidate
    cases hcandidate
  · rw [hstarts, hvotes]
    exact ⟨rfl, calls, [], rfl, hrole, rfl, fun v hv => absurd hv (Finset.notMem_empty v)⟩
  · rw [hcounts, (countVote_fields _ v).1]
    exact countVote_stoodWith h hstanding hgrants

/-- The call that makes a leader counts a vote. -/
theorem elected_of_call {c : ElectionCall} (hc : (calls.foldl elect start).CountsOwnElection c)
    (h : CandidateStood start calls) (hrole : (calls.foldl elect start).role ≠ .kLeader)
    (hleader : ((calls.foldl elect start).elect c).role = .kLeader) :
    ∃ voters : Finset Bytes,
      ((calls.foldl elect start).elect c).options.nodes.length / 2 + 1 ≤ voters.card ∧
        StoodWith start (calls ++ [c]) ((calls.foldl elect start).elect c) voters := by
  rcases elect_cases hc with hsame | hfollower | ⟨rfl, -, -, hstarts⟩ |
    ⟨v, hstanding, hgrants, hcounts⟩
  · rw [hsame] at hleader
    exact absurd hleader hrole
  · rw [hfollower] at hleader
    cases hleader
  · rw [hstarts] at hleader
    cases hleader
  · rw [hcounts] at hleader ⊢
    refine ⟨_, ?_, countVote_stoodWith h hstanding hgrants⟩
    rw [(countVote_fields _ v).2.2.2]
    exact countVote_isLeader hrole hleader

/-- **Elected by a majority of its own term.** A node that is not a candidate yet, in
a run that counts the votes of its own elections only. -/
theorem elected_by_majority (start : AnraftImpl) (calls : List ElectionCall)
    (hrole : start.role ≠ .kCandidate)
    (hcalls : electionMachine.Along CountsOwnElection start calls) :
    ElectedByMajority start calls := by
  rintro before c after rfl hbefore hleader
  obtain ⟨hearly, hlate⟩ := Machine.along_ofFun_append.mp hcalls
  have hc := ((Machine.along_ofFun_cons _ _ _ _ _).mp hlate).1
  have hstood : CandidateStood start before := by
    apply Machine.traced_invariant (I := CandidateStood start) ?_ ?_ hearly
    · intro hcandidate
      exact absurd hcandidate hrole
    · intro is i hi h
      exact candidateStood_snoc hi h
  exact elected_of_call hc hstood hbefore hleader

/-- Three nodes, addressed by one byte each; this is the first. -/
def firstOfThree : AnraftImpl where
  options := { nodes := [[1], [2], [3]], localAddr := [1] }

/-- An election that both other nodes grant. -/
theorem elected_by_majority_granted :
    ElectedByMajority firstOfThree
      [.election, .electionCallback { term := 1, voteGranted := true } true 0 [2],
        .electionCallback { term := 1, voteGranted := true } true 0 [3]] := by
  refine elected_by_majority _ _ (by decide) ?_
  simp only [Machine.along_ofFun_cons]
  exact ⟨fun _ => rfl, fun _ => by decide, fun _ => by decide, trivial⟩

/-- The vote of the first election is counted in the second. -/
theorem elected_by_majority_fails :
    ¬ ∀ (start : AnraftImpl) (calls : List ElectionCall), start.role ≠ .kCandidate →
      start.votes = ∅ → ElectedByMajority start calls := by
  intro h
  obtain ⟨voters, hcard, -, early, late, hcalls, -, -, hgrants⟩ :=
    h firstOfThree
      [.election, .electionCallback { term := 1, voteGranted := true } true 0 [2], .election,
        .electionCallback { term := 2, voteGranted := true } true 0 [3]] (by decide) rfl
      [.election, .electionCallback { term := 1, voteGranted := true } true 0 [2], .election]
      _ [] rfl (by decide) (by decide)
  have hone : voters ⊆ {[3]} := by
    intro v hv
    obtain ⟨c, hc, hgrants⟩ := hgrants v hv
    have hmem : c ∈ early ++ .election :: late :=
      List.mem_append_right _ (List.mem_cons_of_mem _ hc)
    rw [← hcalls] at hmem
    simp only [List.cons_append, List.nil_append, List.mem_cons, List.not_mem_nil, or_false] at hmem
    rcases hmem with rfl | rfl | rfl | rfl
    · exact hgrants.elim
    · exact absurd hgrants.2.1 (by decide)
    · exact hgrants.elim
    · rw [← hgrants.2.2]
      exact Finset.mem_singleton_self _
  have hle := Finset.card_le_card hone
  rw [Finset.card_singleton] at hle
  exact absurd (hcard.trans hle) (by decide)

end AnraftImpl

end Anraft
