import Anraft.Election.Majority

/-!
# What decides an election

A candidate should become leader with the grant that completes a quorum, fall back
with the rejection that completes one, and wait otherwise. `StepCandidate` asks for
more grants than a quorum and falls back whenever there are not that many, so the
first response ends every candidacy.
-/

namespace Anraft

namespace Raft

variable {u : Unspecified} {r : Raft} {msg : Message}

/-- How many ids have answered no. -/
def noVotes (votes : Std.TreeMap UInt64 Bool) : ℕ := votes.toList.countP (!·.2)

/-- `votes_` with the response in it. -/
def tally (r : Raft) (msg : Message) : Std.TreeMap UInt64 Bool :=
  r.votes.insertIfNew msg.from_ !msg.reject

/-- `r'` is what a response should make of the candidate `r`. The step function says
what the node is: `BecomeCandidate` sets `state_` to that of a follower. -/
structure QuorumVerdict (r : Raft) (msg : Message) (r' : Raft) : Prop where
  leader : r'.stepFunc = .stepLeader ↔ r.quorum ≤ yesVotes (r.tally msg)
  follower : r'.stepFunc = .stepFollower ↔ r.quorum ≤ noVotes (r.tally msg)
  waits : yesVotes (r.tally msg) < r.quorum → noVotes (r.tally msg) < r.quorum →
    r'.stepFunc = .stepCandidate ∧ r'.votes = r.tally msg

/-- Every response that finds the node a candidate gets the verdict of the quorum. -/
def DecidedAtQuorum : Raft → List (Unspecified × Message) → Prop
  | _, [] => True
  | r, (u, msg) :: rest =>
    QuorumVerdict r msg (r.stepCandidate u msg).2 ∧
      ((r.stepCandidate u msg).2.stepFunc = .stepCandidate →
        DecidedAtQuorum (r.stepCandidate u msg).2 rest)

theorem countsAsElected_iff_tally (hgrant : u.grant = 0) :
    r.CountsAsElected u msg ↔ r.quorum < yesVotes (r.tally msg) := by
  rw [countsAsElected_iff, hgrant, zero_add, Nat.cast_lt, tally]

theorem stepFunc_of_voteResp (htype : isVoteResp msg.type) (hstate : r.state ≠ .statePreCandidate)
    (hgrant : u.grant = 0) :
    (r.stepCandidate u msg).2.stepFunc =
      if r.quorum < yesVotes (r.tally msg) then .stepLeader else .stepFollower := by
  rw [stepCandidate_of_voteResp htype]
  by_cases hcount : r.CountsAsElected u msg
  · rw [if_pos hcount, if_neg hstate, if_pos ((countsAsElected_iff_tally hgrant).mp hcount),
      (bcastAppend_sendsOnly u _).stepFunc]
    rfl
  · rw [if_neg hcount, if_neg fun h => hcount ((countsAsElected_iff_tally hgrant).mpr h)]
    rfl

/-- **One response.** The verdict is the right one when the grants pass the quorum and
the rejections do not reach it, or the rejections reach it and the grants do not. -/
theorem stepCandidate_quorumVerdict_iff (htype : isVoteResp msg.type)
    (hstate : r.state ≠ .statePreCandidate) (hgrant : u.grant = 0) :
    QuorumVerdict r msg (r.stepCandidate u msg).2 ↔
      (r.quorum < yesVotes (r.tally msg) ∧ noVotes (r.tally msg) < r.quorum) ∨
        (yesVotes (r.tally msg) < r.quorum ∧ r.quorum ≤ noVotes (r.tally msg)) := by
  have hfunc := stepFunc_of_voteResp (r := r) (u := u) htype hstate hgrant
  rcases lt_or_ge r.quorum (yesVotes (r.tally msg)) with hyes | hyes
  · rw [if_pos hyes] at hfunc
    rw [and_iff_right hyes, or_iff_left fun h => absurd h.1 hyes.not_gt]
    constructor
    · intro hverdict
      by_contra hno
      have hfollower := hverdict.follower.mpr (not_lt.mp hno)
      rw [hfunc] at hfollower
      cases hfollower
    · intro hno
      exact ⟨iff_of_true hfunc hyes.le, iff_of_false (by rw [hfunc]; nofun) hno.not_ge,
        fun hlt => absurd hlt hyes.not_gt⟩
  · rw [if_neg hyes.not_gt] at hfunc
    rw [or_iff_right fun h => absurd h.1 hyes.not_gt]
    constructor
    · intro hverdict
      refine ⟨hyes.lt_of_ne fun heq => ?_, hverdict.follower.mp hfunc⟩
      have hleader := hverdict.leader.mpr heq.ge
      rw [hfunc] at hleader
      cases hleader
    · rintro ⟨hlt, hno⟩
      exact ⟨iff_of_false (by rw [hfunc]; nofun) hlt.not_ge, iff_of_true hfunc hno,
        fun _ hlow => absurd hlow hno.not_gt⟩

/-- The tally of the first response. -/
theorem toList_tally_of_empty (hvotes : r.votes = ∅) :
    (r.tally msg).toList = [(msg.from_, !msg.reject)] := by
  rw [tally, hvotes]
  rfl

theorem yesVotes_tally_of_empty (hvotes : r.votes = ∅) :
    yesVotes (r.tally msg) = if msg.reject then 0 else 1 := by
  rw [yesVotes, toList_tally_of_empty hvotes]
  cases msg.reject <;> rfl

theorem noVotes_tally_of_empty (hvotes : r.votes = ∅) :
    noVotes (r.tally msg) = if msg.reject then 1 else 0 := by
  rw [noVotes, toList_tally_of_empty hvotes]
  cases msg.reject <;> rfl

theorem quorum_pos (r : Raft) : 1 ≤ r.quorum := Nat.le_add_left 1 _

/-- A first response is judged by the quorum only if a single rejection is one. -/
theorem first_quorumVerdict_iff (htype : isVoteResp msg.type)
    (hstate : r.state ≠ .statePreCandidate) (hgrant : u.grant = 0) (hvotes : r.votes = ∅) :
    QuorumVerdict r msg (r.stepCandidate u msg).2 ↔ r.quorum = 1 ∧ msg.reject = true := by
  have hquorum := r.quorum_pos
  rw [stepCandidate_quorumVerdict_iff htype hstate hgrant, yesVotes_tally_of_empty hvotes,
    noVotes_tally_of_empty hvotes]
  by_cases hreject : msg.reject = true
  · rw [if_pos hreject, if_pos hreject, and_iff_left hreject]
    constructor
    · rintro (⟨hyes, -⟩ | ⟨-, hno⟩)
      · exact absurd hyes (Nat.not_lt_zero _)
      · exact le_antisymm hno hquorum
    · intro hone
      exact .inr ⟨hquorum, hone.le⟩
  · rw [if_neg hreject, if_neg hreject]
    apply iff_of_false
    · rintro (⟨hyes, -⟩ | ⟨-, hno⟩)
      · exact absurd hyes hquorum.not_gt
      · exact absurd hno (Nat.not_le_of_lt hquorum)
    · rintro ⟨-, htrue⟩
      exact hreject htrue

/-- **When an election is decided at the quorum.** From `BecomeCandidate` with no
votes, whatever responses come in: if there are none, or the only member there is
sends a rejection. -/
theorem decidedAtQuorum_iff (u₀ : Unspecified) (responses : List (Unspecified × Message))
    (hvotes : (r.becomeCandidate u₀).votes = ∅)
    (htype : ∀ x ∈ responses, x.2.type = .msgVoteResp) (hgrant : ∀ x ∈ responses, x.1.grant = 0) :
    DecidedAtQuorum (r.becomeCandidate u₀) responses ↔
      ∀ x, responses.head? = some x → r.prs.size < 2 ∧ x.2.reject = true := by
  rcases responses with _ | ⟨⟨u, msg⟩, rest⟩
  · apply iff_of_true trivial
    rintro x ⟨⟩
  have hresp : isVoteResp msg.type := isVoteResp_iff.mpr (.inr (htype _ List.mem_cons_self))
  have hzero : u.grant = 0 := hgrant _ List.mem_cons_self
  have hstate : (r.becomeCandidate u₀).state ≠ .statePreCandidate := nofun
  have hfirst := first_quorumVerdict_iff hresp hstate hzero hvotes
  have hone : (r.becomeCandidate u₀).quorum = 1 ↔ r.prs.size < 2 := by
    have hsize : (r.becomeCandidate u₀).quorum = r.prs.size / 2 + 1 := rfl
    rw [hsize]
    omega
  rw [hone] at hfirst
  constructor
  · rintro ⟨hverdict, -⟩ x hx
    obtain rfl := Option.some.inj hx
    exact hfirst.mp hverdict
  · intro hhead
    refine ⟨hfirst.mpr (hhead _ rfl), fun hcandidate => ?_⟩
    -- there is no second response to a candidate
    rw [stepFunc_of_voteResp hresp hstate hzero] at hcandidate
    split at hcandidate <;> cases hcandidate

/-- A cluster of one, whose member rejects. -/
theorem decidedAtQuorum_single :
    DecidedAtQuorum ((started 1 [1]).becomeCandidate .filledIn)
      [(.filledIn, { type := .msgVoteResp, from_ := 1, reject := true })] := by
  refine (decidedAtQuorum_iff .filledIn _ rfl ?_ ?_).mpr ?_
  · intro x hx
    obtain rfl := List.mem_singleton.mp hx
    rfl
  · intro x hx
    obtain rfl := List.mem_singleton.mp hx
    rfl
  · intro x hx
    obtain rfl := Option.some.inj hx
    exact ⟨by decide, rfl⟩

/-- A cluster of three: the grant of node 2 turns the candidate into a follower, and
the grant of node 3, which would complete the quorum, finds none. -/
theorem not_decidedAtQuorum :
    ((started 1 [1, 2, 3]).becomeCandidate .filledIn).votes = ∅ ∧
      (((started 1 [1, 2, 3]).becomeCandidate .filledIn).stepCandidate .filledIn
        { type := .msgVoteResp, from_ := 2 }).2.stepFunc = .stepFollower ∧
      ¬ DecidedAtQuorum ((started 1 [1, 2, 3]).becomeCandidate .filledIn)
        [(.filledIn, { type := .msgVoteResp, from_ := 2 }),
          (.filledIn, { type := .msgVoteResp, from_ := 3 })] := by
  have hfalls : (((started 1 [1, 2, 3]).becomeCandidate .filledIn).stepCandidate .filledIn
      { type := .msgVoteResp, from_ := 2 }).2.stepFunc = .stepFollower := by decide
  refine ⟨rfl, hfalls, ?_⟩
  rintro ⟨hverdict, -⟩
  obtain ⟨hstays, -⟩ := hverdict.waits (by decide) (by decide)
  rw [hfalls] at hstays
  cases hstays

end Raft

end Anraft
