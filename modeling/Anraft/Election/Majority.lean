import Anraft.RaftRun

/-!
# Who elects a leader

`BecomeCandidate` leaves `votes_` as it is, `Poll` files whatever id a response
claims and of whatever kind it is, and `StepCandidate` falls back to a follower
with every answer that does not decide. So one campaign counts one answer, and a
majority found in `votes_` was collected elsewhere unless the answer and the
node itself are one.
-/

namespace Anraft

namespace Raft

variable {u : Unspecified} {r r' : Raft} {msg : Message}

/-! ## The votes of the current campaign -/

/-- The ids that have granted their vote in the current campaign: the node itself
from `BecomeCandidate` on, and the senders of the `MsgVoteResp` processed since
then that are no rejections. -/
def campaignVotes (self : UInt64) (history : List Event) : Finset UInt64 :=
  history.foldl (fun votes (e : Event) =>
    match e with
    | .becomeCandidate .. => {self}
    | .poll id MessageType.msgVoteResp true => insert id votes
    | _ => votes) ∅

/-- A majority of the voting members has granted its vote by then. -/
def ElectedByMajority (r : Raft) (history : List Event) : Prop :=
  r.quorum ≤ ((campaignVotes r.id history).filter (· ∈ r.prs)).card

/-- Every `BecomeLeader` of the history had a majority behind it. -/
def OnlyMajorityElects (r : Raft) : Prop :=
  ∀ pre old, pre ++ [.becomeLeader old] <+: r.history → r.ElectedByMajority pre

/-- How many ids have answered yes. -/
def yesVotes (votes : Std.TreeMap UInt64 Bool) : ℕ := votes.toList.countP (·.2)

/-- The voters a candidate can count on when the first answer of its campaign
comes in: itself and, unless the answer is a rejection or to a pre-vote, the
sender. -/
def firstVoters (r : Raft) (msg : Message) : Finset UInt64 :=
  let voters : Finset UInt64 :=
    if msg.type = .msgVoteResp ∧ msg.reject = false then {r.id, msg.from_} else {r.id}
  voters.filter (· ∈ r.prs)

/-- If the answer brings the yes votes in `votes_` above the quorum, the node and
the sender alone are a majority. -/
def DecidesByMajority (r : Raft) : Input → Prop
  | .tick _ => True
  | .step u msg =>
    r.stepFunc = .stepCandidate → isVoteResp msg.type = true →
      (r.quorum : ℤ) < u.grant + yesVotes (r.votes.insertIfNew msg.from_ !msg.reject) →
        r.quorum ≤ (r.firstVoters msg).card

instance (r : Raft) : (i : Input) → Decidable (r.DecidesByMajority i)
  | .tick _ => inferInstanceAs (Decidable True)
  | .step .. => inferInstanceAs (Decidable (_ → _))

theorem foldl_grant_eq (xs : List (UInt64 × Bool)) (grant : ℤ) :
    xs.foldl (fun grant x => if x.2 then grant + 1 else grant) grant =
      grant + xs.countP (·.2) := by
  induction xs generalizing grant with
  | nil => simp
  | cons x xs ih =>
      rw [List.foldl_cons, ih, List.countP_cons]
      cases x.2
      · simp
      · simp only [if_true, Nat.cast_add, Nat.cast_one]
        ring

/-- `Poll` counts on from what it finds in `grant`. -/
theorem poll_fst (u : Unspecified) (r : Raft) (id : UInt64) (type : MessageType) (vote : Bool) :
    (r.poll u id type vote).1 = u.grant + yesVotes (r.votes.insertIfNew id vote) :=
  foldl_grant_eq _ _

theorem countsAsElected_iff :
    r.CountsAsElected u msg ↔
      (r.quorum : ℤ) < u.grant + yesVotes (r.votes.insertIfNew msg.from_ !msg.reject) := by
  unfold CountsAsElected
  rw [poll_fst, gt_iff_lt]

/-! ## Histories -/

theorem campaignVotes_concat (self : UInt64) (history : List Event) (e : Event) :
    campaignVotes self (history ++ [e]) =
      match e with
      | .becomeCandidate .. => {self}
      | .poll id MessageType.msgVoteResp true => insert id (campaignVotes self history)
      | _ => campaignVotes self history := by
  unfold campaignVotes
  rw [List.foldl_append]
  rfl

theorem campaignVotes_append {self : UInt64} {history es : List Event}
    (hes : ∀ e ∈ es, e.isElection = false) :
    campaignVotes self (history ++ es) = campaignVotes self history := by
  induction es using List.reverseRecOn with
  | nil => rw [List.append_nil]
  | append_singleton es e ih =>
      have he := hes e (by simp)
      rw [← List.append_assoc, campaignVotes_concat,
        ← ih fun e' he' => hes e' (List.mem_append_left _ he')]
      cases e <;> first | rfl | cases he

theorem prefix_of_concat_prefix_append {α : Type*} {pre l es : List α} {x : α}
    (hx : x ∉ es) (h : pre ++ [x] <+: l ++ es) : pre ++ [x] <+: l := by
  induction es using List.reverseRecOn with
  | nil => rwa [List.append_nil] at h
  | append_singleton es y ih =>
      rw [← List.append_assoc, List.prefix_concat_iff] at h
      rcases h with heq | h
      · obtain ⟨-, hxy⟩ := List.append_inj' heq rfl
        exact absurd (by simp [List.cons.inj hxy]) hx
      · exact ih (fun hmem => hx (List.mem_append_left _ hmem)) h

theorem SameConfig.electedByMajority_iff (h : SameConfig r r') (history : List Event) :
    r'.ElectedByMajority history ↔ r.ElectedByMajority history := by
  unfold ElectedByMajority
  rw [h.quorum, h.id]
  simp only [h.mem_prs]

theorem OnlyMajorityElects.of_append {es : List Event} (hc : SameConfig r r')
    (hhistory : r'.history = r.history ++ es) (hes : ∀ old, .becomeLeader old ∉ es)
    (h : r.OnlyMajorityElects) : r'.OnlyMajorityElects := by
  intro pre old hpre
  rw [hhistory] at hpre
  exact (hc.electedByMajority_iff pre).mpr
    (h pre old (prefix_of_concat_prefix_append (hes old) hpre))

/-- After one more `BecomeLeader` all of them had a majority exactly when this one
had. -/
theorem onlyMajorityElects_becomeLeader_iff {es : List Event} {old : StateType}
    (hc : SameConfig r r') (hhistory : r'.history = r.history ++ es ++ [.becomeLeader old])
    (hes : ∀ old, .becomeLeader old ∉ es) (h : r.OnlyMajorityElects) :
    r'.OnlyMajorityElects ↔ r.ElectedByMajority (r.history ++ es) := by
  constructor
  · intro h'
    apply (hc.electedByMajority_iff _).mp
    apply h' (r.history ++ es) old
    rw [hhistory]
  · intro hnew pre old' hpre
    rw [hhistory, List.prefix_concat_iff] at hpre
    apply (hc.electedByMajority_iff _).mpr
    rcases hpre with heq | hpre
    · obtain ⟨rfl, -⟩ := List.append_inj' heq rfl
      exact hnew
    · exact h pre old' (prefix_of_concat_prefix_append (hes old') hpre)

/-! ## One reaction -/

/-- A candidate has just started its campaign: it is no pre-candidate, and the
only vote it holds is its own. -/
def FreshCandidate (r : Raft) : Prop :=
  r.stepFunc = .stepCandidate →
    r.state ≠ .statePreCandidate ∧ campaignVotes r.id r.history = {r.id}

theorem NoElection.freshCandidate (h : NoElection r r') (hr : r.FreshCandidate) :
    r'.FreshCandidate := by
  intro hfunc
  obtain ⟨es, heq, hes⟩ := h.history
  rcases h.role with ⟨hsame, hstate⟩ | ⟨hfollower, -⟩
  · rw [hstate, heq, campaignVotes_append hes, h.id]
    exact hr (hsame ▸ hfunc)
  · rw [hfollower] at hfunc
    cases hfunc

theorem NoElection.onlyMajorityElects (h : NoElection r r') (hr : r.OnlyMajorityElects) :
    r'.OnlyMajorityElects := by
  obtain ⟨es, heq, hes⟩ := h.history
  apply hr.of_append h.toSameConfig heq
  intro old hmem
  have := hes _ hmem
  cases this

theorem step_of_voteResp (hfunc : r.stepFunc = .stepCandidate) (htype : isVoteResp msg.type) :
    r.step u msg = r.stepCandidate u msg := by
  have hhandled : isHandledByStep msg.type = false := by
    rcases isVoteResp_iff.mp htype with h | h <;> rw [h] <;> rfl
  rw [step_of_not_handled hhandled, hfunc]

/-- An answer ends the candidacy one way or the other. -/
theorem stepCandidate_freshCandidate (hfunc : r.stepFunc = .stepCandidate)
    (htype : isVoteResp msg.type) (hfresh : r.FreshCandidate) :
    (r.stepCandidate u msg).2.FreshCandidate := by
  intro hfunc'
  rw [stepCandidate_of_voteResp htype] at hfunc'
  split at hfunc'
  · rw [if_neg (hfresh hfunc).1, (bcastAppend_sendsOnly u _).stepFunc] at hfunc'
    cases hfunc'
  · cases hfunc'

theorem step_freshCandidate (u : Unspecified) (msg : Message) (hfresh : r.FreshCandidate) :
    (r.step u msg).2.FreshCandidate := by
  have hid := (step_sameConfig u r msg).id
  cases step_cases u r msg with
  | campaign _ hsent =>
      obtain ⟨_, _, heq⟩ := hsent
      rw [heq]
      exact fun _ => ⟨nofun, campaignVotes_concat ..⟩
  | grant _ _ _ heq =>
      intro hfunc
      rw [heq] at hfunc ⊢
      exact ⟨(hfresh hfunc).1, (campaignVotes_concat ..).trans (hfresh hfunc).2⟩
  | voteResp htype hfunc heq =>
      rw [heq]
      exact stepCandidate_freshCandidate hfunc htype hfresh
  | quiet h => exact h.freshCandidate hfresh

/-- A step that is no answer to a candidate elects nobody. -/
theorem step_onlyMajorityElects (u : Unspecified)
    (h : r.stepFunc = .stepCandidate → isVoteResp msg.type ≠ true)
    (hr : r.OnlyMajorityElects) : (r.step u msg).2.OnlyMajorityElects := by
  have hconfig := step_sameConfig u r msg
  cases step_cases u r msg with
  | campaign _ hsent => exact hr.of_append hconfig hsent.history (by simp)
  | grant _ _ _ heq => exact hr.of_append hconfig (congrArg history heq) (by simp)
  | voteResp htype hfunc => exact absurd htype (h hfunc)
  | quiet hq => exact hq.onlyMajorityElects hr

theorem campaignVotes_polled (hfunc : r.stepFunc = .stepCandidate) (hfresh : r.FreshCandidate) :
    (campaignVotes r.id (r.history ++ [.poll msg.from_ msg.type !msg.reject])).filter
      (· ∈ r.prs) = r.firstVoters msg := by
  unfold firstVoters
  congr 1
  rw [campaignVotes_concat, (hfresh hfunc).2]
  cases hreject : msg.reject <;> cases htype : msg.type <;>
    simp [Finset.pair_comm]

/-- **One answer to a candidate** elects with a majority exactly under its
condition. -/
theorem stepCandidate_onlyMajorityElects_iff (hfunc : r.stepFunc = .stepCandidate)
    (htype : isVoteResp msg.type) (hfresh : r.FreshCandidate) (hr : r.OnlyMajorityElects) :
    (r.stepCandidate u msg).2.OnlyMajorityElects ↔
      ((r.quorum : ℤ) < u.grant + yesVotes (r.votes.insertIfNew msg.from_ !msg.reject) →
        r.quorum ≤ (r.firstVoters msg).card) := by
  have hconfig : SameConfig r (r.stepCandidate u msg).2 := by
    rw [← step_of_voteResp hfunc htype]
    exact step_sameConfig u r msg
  have hhistory := stepCandidate_history (u := u) (r := r) htype
  rw [if_neg (hfresh hfunc).1] at hhistory
  rw [← countsAsElected_iff]
  by_cases hcount : r.CountsAsElected u msg
  · rw [if_pos hcount] at hhistory
    rw [onlyMajorityElects_becomeLeader_iff hconfig hhistory (by simp) hr, ElectedByMajority,
      campaignVotes_polled hfunc hfresh]
    simp only [hcount, true_implies]
  · rw [if_neg hcount, List.append_assoc] at hhistory
    exact iff_of_true (hr.of_append hconfig hhistory (by simp)) fun h => absurd h hcount

/-! ## Runs -/

theorem react_freshCandidate (i : Input) (hfresh : r.FreshCandidate) :
    (r.react i).FreshCandidate := by
  cases i with
  | step u msg => exact step_freshCandidate u msg hfresh
  | tick u =>
      exact tick_preserves (Q := FreshCandidate) NoElection.freshCandidate
        (fun _ h => step_freshCandidate u _ h) hfresh

theorem not_isVoteResp_of_isTickMsg {t : MessageType} (h : isTickMsg t) : isVoteResp t ≠ true := by
  cases t <;> first | decide | cases h

theorem react_onlyMajorityElects_iff (i : Input) (hfresh : r.FreshCandidate)
    (hr : r.OnlyMajorityElects) : r.DecidesByMajority i ↔ (r.react i).OnlyMajorityElects := by
  cases i with
  | step u msg =>
      by_cases h : r.stepFunc = .stepCandidate ∧ isVoteResp msg.type = true
      · rw [react, step_of_voteResp h.1 h.2,
          stepCandidate_onlyMajorityElects_iff h.1 h.2 hfresh hr]
        simp only [DecidesByMajority, h.1, h.2, true_implies]
      · refine iff_of_true (fun hfunc htype => absurd ⟨hfunc, htype⟩ h)
          (step_onlyMajorityElects u (fun hfunc htype => h ⟨hfunc, htype⟩) hr)
  | tick u =>
      exact iff_of_true trivial <| tick_preserves (Q := OnlyMajorityElects)
        NoElection.onlyMajorityElects
        (fun htick h => step_onlyMajorityElects u
          (fun _ => not_isVoteResp_of_isTickMsg htick) h) hr

/-- **When only a majority elects.** Over every run of `Step` and `Tick` from a node
that is no candidate, every `BecomeLeader` has a majority of the current campaign
behind it exactly when every answer that decides a campaign does. -/
theorem only_majority_elects_iff (r : Raft) (inputs : List Input)
    (h : r.stepFunc ≠ .stepCandidate) :
    machine.Always OnlyMajorityElects r.unrecorded inputs ↔
      machine.Along DecidesByMajority r.unrecorded inputs := by
  refine Machine.always_ofFun_iff_along (I := FreshCandidate) ?_ ?_
    (fun hfunc => absurd hfunc h) ?_
  · intro r i hfresh
    exact react_freshCandidate i hfresh
  · intro r i hfresh hr
    exact react_onlyMajorityElects_iff i hfresh hr
  · intro pre old hpre
    have hlen := hpre.length_le
    simp [unrecorded] at hlen

/-- A leader with a majority: the answers of node 9, which is no member, and of
node 2 come from earlier campaigns, and node 3 answers in the last one. -/
theorem only_majority_elects_iff_third_answer :
    machine.Always OnlyMajorityElects (started 1 [1, 2, 3]).unrecorded
      [.step .filledIn { type := .msgHup },
        .step .filledIn { type := .msgVoteResp, from_ := 9 },
        .step .filledIn { type := .msgHup },
        .step .filledIn { type := .msgVoteResp, from_ := 2 },
        .step .filledIn { type := .msgHup },
        .step .filledIn { type := .msgVoteResp, from_ := 3 }] :=
  (only_majority_elects_iff (started 1 [1, 2, 3]) _ (by decide)).mpr (by decide)

/-- The same answers with the one of node 9 last: no member but the node itself has
granted its vote in the campaign that makes it leader. -/
theorem only_majority_elects_fails :
    ¬ ∀ (r : Raft) (inputs : List Input), r.stepFunc = .stepFollower → r.votes.isEmpty →
      (∀ i ∈ inputs, i.answers.grant = 0) → machine.Always OnlyMajorityElects r.unrecorded inputs := by
  intro h
  have hend := Machine.always_ofFun_foldl <| h (started 1 [1, 2, 3])
    [.step .filledIn { type := .msgHup },
      .step .filledIn { type := .msgVoteResp, from_ := 2 },
      .step .filledIn { type := .msgHup },
      .step .filledIn { type := .msgVoteResp, from_ := 3 },
      .step .filledIn { type := .msgHup },
      .step .filledIn { type := .msgVoteResp, from_ := 9 }] rfl (by decide) (by decide)
  have helected := hend
    [.becomeCandidate .stateFollower 0, .poll 2 .msgVoteResp true, .becomeFollower 0 0,
      .becomeCandidate .stateFollower 0, .poll 3 .msgVoteResp true, .becomeFollower 0 0,
      .becomeCandidate .stateFollower 0, .poll 9 .msgVoteResp true]
    .stateFollower (by decide)
  exact absurd (show _ ≤ _ from helected) (by decide)

end Raft

end Anraft
