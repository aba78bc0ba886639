import Anraft.RaftRun

/-!
# Between the candidate and the voter

`Campaign` writes neither the last index nor the last log term of the candidate
into its requests, and `Step` reads the index and the *term of the message* in
their place. The voter therefore compares the candidate's current term with the
term of its own last entry, and never looks at the candidate's log.
-/

namespace Anraft

/-- Term and index of the last entry, ordered by term first. -/
def RaftLog.lastPosition (l : RaftLog) : UInt64 ×ₗ UInt64 :=
  toLex (l.storedTerm l.lastIndex, l.lastIndex)

namespace Raft

variable {u : Unspecified} {C V : Raft} {msg : Message}

/-! ## What a candidate sends -/

/-- The messages `Campaign(CampaignElection)` adds to the queue. -/
def campaignMsgs (u : Unspecified) (C : Raft) : List Message :=
  (C.campaign u .campaignElection).msgs.drop C.msgs.length

/-- The request for the vote of member `i`. -/
def voteRequest (C : Raft) (i : UInt64) : Message :=
  { type := .msgVote, to_ := i, from_ := C.id, term := C.term }

theorem foldl_send_msgs (term : UInt64) (type : MessageType) (xs : List (UInt64 × Progress))
    (r : Raft) :
    (xs.foldl (fun r x =>
      if x.1 = r.id then r
      else r.send { term := term, to_ := x.1, type := type }) r).msgs =
      r.msgs ++ (xs.filter (·.1 ≠ r.id)).map fun x =>
        { type := type, to_ := x.1, from_ := r.id, term := term } := by
  induction xs generalizing r with
  | nil => exact (List.append_nil _).symm
  | cons x xs ih =>
      rw [List.foldl_cons, ih]
      by_cases hx : x.1 = r.id
      · simp [hx]
      · simp [hx, send]

theorem campaign_eq (hpoll : u.pollSelf = false) :
    C.campaign u .campaignElection =
      C.prs.toList.foldl (fun r x =>
        if x.1 = r.id then r
        else r.send { term := C.term, to_ := x.1, type := .msgVote }) (C.becomeCandidate u) := by
  simp only [campaign, hpoll, Bool.false_eq_true, and_false, if_false]
  rfl

/-- With the argument-less `Poll` false, one request for each other member. -/
theorem mem_campaignMsgs_iff (hpoll : u.pollSelf = false) :
    msg ∈ C.campaignMsgs u ↔ ∃ i ∈ C.prs, i ≠ C.id ∧ msg = C.voteRequest i := by
  have hmsgs : C.campaignMsgs u =
      (C.prs.toList.filter (·.1 ≠ C.id)).map fun x => C.voteRequest x.1 := by
    unfold campaignMsgs
    rw [campaign_eq hpoll, foldl_send_msgs]
    exact List.drop_left
  rw [hmsgs]
  simp only [List.mem_map, List.mem_filter, decide_eq_true_eq, Prod.exists]
  constructor
  · rintro ⟨i, p, ⟨hmem, hne⟩, rfl⟩
    have hi : i ∈ C.prs := Std.TreeMap.mem_iff_isSome_getElem?.mpr
      (by rw [Std.TreeMap.mem_toList_iff_getElem?_eq_some.mp hmem]; rfl)
    exact ⟨i, hi, hne, rfl⟩
  · rintro ⟨i, hi, hne, rfl⟩
    obtain ⟨p, hp⟩ := Option.isSome_iff_exists.mp (Std.TreeMap.mem_iff_isSome_getElem?.mp hi)
    exact ⟨i, p, ⟨Std.TreeMap.mem_toList_iff_getElem?_eq_some.mpr hp, hne⟩, rfl⟩

/-! ## What a voter grants -/

/-- `Step` takes the branch that sets `vote_` to the sender. -/
def GrantsVote (u : Unspecified) (V : Raft) (msg : Message) : Prop :=
  (V.step u msg).2 =
    { V with vote := msg.from_, electionElapsed := 0 }.record (.grantVote msg)

theorem grantsVote_iff (htype : msg.type = .msgVote) :
    V.GrantsVote u msg ↔ V.isLearner = false ∧ V.canVote u msg = true := by
  unfold GrantsVote
  rw [step_of_msgVote htype]
  split
  · next h => exact iff_of_true rfl h
  · next h =>
      refine iff_of_false (fun heq => ?_) h
      have hlen := congrArg (List.length ∘ history) heq
      simp [record] at hlen

/-- What the two tests of `Step` amount to for a request written by `Campaign`. -/
theorem canVote_voteRequest_iff (hlast : u.LastTermIsStored) (i : UInt64) :
    V.canVote u (C.voteRequest i) = true ↔
      (V.vote = 0 ∨ V.vote = C.id ∨ V.term < C.term) ∧
        V.raftlog.storedTerm V.raftlog.lastIndex < C.term := by
  have hindex : ¬ (0 : UInt64) > V.raftlog.lastIndex := not_lt.mpr (UInt64.zero_le)
  simp [canVote, RaftLog.isUpToDate, voteRequest, hlast V.raftlog, hindex, or_assoc]

/-! ## Vote safety -/

/-- Every request of `C` for the vote of `V` that `V` grants comes from a log at
least as up to date as the log of `V`. -/
def VoteSafe (uC uV : Unspecified) (C V : Raft) : Prop :=
  ∀ msg ∈ C.campaignMsgs uC, msg.type = .msgVote → msg.to_ = V.id → V.GrantsVote uV msg →
    V.raftlog.lastPosition ≤ C.raftlog.lastPosition

/-- The candidate asks the voter, the voter is free to answer yes, and the entry
at the end of its log is older than the candidate's term. -/
structure WouldGrant (C V : Raft) : Prop where
  asked : V.id ∈ C.prs ∧ V.id ≠ C.id
  notLearner : V.isLearner = false
  free : V.vote = 0 ∨ V.vote = C.id ∨ V.term < C.term
  older : V.raftlog.storedTerm V.raftlog.lastIndex < C.term

/-- **When a vote is safe.** Exactly when the candidate's log is as up to date as
the voter's, or the voter would not grant the vote whatever the candidate's log. -/
theorem vote_safety_iff (uC uV : Unspecified) (C V : Raft) (hpoll : uC.pollSelf = false)
    (hlast : uV.LastTermIsStored) :
    VoteSafe uC uV C V ↔
      (¬ WouldGrant C V ∨ V.raftlog.lastPosition ≤ C.raftlog.lastPosition) := by
  rw [← imp_iff_not_or]
  constructor
  · intro h hgrant
    apply h (C.voteRequest V.id)
    · exact (mem_campaignMsgs_iff hpoll).mpr ⟨V.id, hgrant.asked.1, hgrant.asked.2, rfl⟩
    · rfl
    · rfl
    · rw [grantsVote_iff rfl, canVote_voteRequest_iff hlast]
      exact ⟨hgrant.notLearner, hgrant.free, hgrant.older⟩
  · intro h msg hmsg _ hto hgrant
    obtain ⟨i, hi, hne, rfl⟩ := (mem_campaignMsgs_iff hpoll).mp hmsg
    obtain rfl : i = V.id := hto
    rw [grantsVote_iff rfl, canVote_voteRequest_iff hlast] at hgrant
    obtain ⟨hlearner, hfree, holder⟩ := hgrant
    exact h ⟨⟨hi, hne⟩, hlearner, hfree, holder⟩

/-- The shorter log ends in a newer term, and the vote is granted. -/
theorem vote_safety_iff_newer_entry :
    let C := { started 1 [1, 2] with term := 3 }.holding [{ term := 2, index := 1 }]
    let V := (started 2 [1, 2]).holding [{ term := 1, index := 1 }, { term := 1, index := 2 }]
    WouldGrant C V ∧ VoteSafe .filledIn .filledIn C V :=
  ⟨⟨by decide, rfl, by decide, by decide⟩,
    (vote_safety_iff .filledIn .filledIn _ _ rfl RaftLog.filledIn_lastTermIsStored).mpr
      (.inr (by decide))⟩

/-- A candidate in term 5 with an empty log gets the vote of a node that holds an
entry of term 1. -/
theorem vote_safety_fails :
    ¬ ∀ (uC uV : Unspecified) (C V : Raft), uC.pollSelf = false → uV.LastTermIsStored →
      VoteSafe uC uV C V := by
  intro h
  have hle := h .filledIn .filledIn { started 1 [1, 2] with term := 5 }
    ((started 2 [1, 2]).holding [{ term := 1, index := 1 }]) rfl
    RaftLog.filledIn_lastTermIsStored { type := .msgVote, to_ := 2, from_ := 1, term := 5 }
    (by decide) rfl rfl ((grantsVote_iff rfl).mpr (by decide))
  exact absurd hle (by decide)

end Raft

end Anraft
