import Anraft.Replication.SenderTerms

/-!
# Answers to requests for votes

`Step` fills in an answer to a request it grants and lets it go out of scope; for a
request it refuses it does not even build one. So the messages `Step` queues are
requests for votes, appends and their acknowledgements, and nobody who asks for a
vote hears back.
-/

namespace Anraft

namespace Raft

variable {u : Unspecified} {r r' r'' : Raft} {msg : Message} {P : Message → Prop}

/-! ## What is queued -/

/-- The queue of `r'` is that of `r` and behind it messages that satisfy `P`. -/
def Queues (P : Message → Prop) (r r' : Raft) : Prop :=
  ∃ sent, r'.msgs = r.msgs ++ sent ∧ ∀ m ∈ sent, P m

namespace Queues

theorem of_eq (h : r'.msgs = r.msgs) : Queues P r r' :=
  ⟨[], by rw [h, List.append_nil], by simp⟩

theorem refl (r : Raft) : Queues P r r := of_eq rfl

theorem trans (h : Queues P r r') (h' : Queues P r' r'') : Queues P r r'' := by
  obtain ⟨sent, heq, hsent⟩ := h
  obtain ⟨sent', heq', hsent'⟩ := h'
  refine ⟨sent ++ sent', by rw [heq', heq, List.append_assoc], fun m hm => ?_⟩
  rcases List.mem_append.mp hm with hm | hm
  · exact hsent m hm
  · exact hsent' m hm

/-- A call made after the queue was left alone. -/
theorem after_eq (h : Queues P r' r'') (hmsgs : r'.msgs = r.msgs) : Queues P r r'' :=
  (of_eq hmsgs).trans h

end Queues

/-- The types of the messages `Step` queues. The first is the one an append is left with
when a lookup fails. -/
def isSentByStep (t : MessageType) : Bool :=
  t == .msgHup || t == .msgVote || t == .msgApp || t == .msgAppResp

/-- Messages of these types alone are queued. -/
abbrev QueuesOwn : Raft → Raft → Prop := Queues fun m => isSentByStep m.type = true

theorem appendMessage_type (u : Unspecified) (r : Raft) (dst : UInt64) :
    (r.appendMessage u dst).type = .msgHup ∨ (r.appendMessage u dst).type = .msgApp := by
  unfold appendMessage
  dsimp only
  split
  · exact .inl rfl
  · exact .inr rfl

theorem sendAppend_queuesOwn (u : Unspecified) (r : Raft) (dst : UInt64) :
    QueuesOwn r (r.sendAppend u dst) := by
  cases hpaused : (r.progressOf dst).isPaused with
  | true => exact .of_eq (sendAppend_msgs_of_paused hpaused)
  | false =>
      refine ⟨_, sendAppend_msgs u hpaused, ?_⟩
      rw [List.forall_mem_singleton]
      rcases appendMessage_type u r dst with htype | htype <;> simp [isSentByStep, htype]

theorem bcastAppend_queuesOwn (u : Unspecified) (r : Raft) : QueuesOwn r (r.bcastAppend u) := by
  refine forEachProgress_rel Queues.refl Queues.trans (fun r id p => ?_) r
  dsimp only
  split
  · exact .refl r
  · exact sendAppend_queuesOwn u r r.id

theorem campaign_queuesOwn (u : Unspecified) (r : Raft) :
    QueuesOwn r (r.campaign u .campaignElection) := by
  refine ⟨_, campaign_msgs nofun, fun m hm => ?_⟩
  simp [isSentByStep, (mem_campaignRequests hm).1]

theorem handleAppendEntries_queuesOwn (u : Unspecified) (r : Raft) (msg : Message) :
    QueuesOwn r (r.handleAppendEntries u msg) := by
  have hmsgs := handleAppendEntries_msgs u r msg
  rw [List.append_assoc] at hmsgs
  refine ⟨_, hmsgs, fun m hm => ?_⟩
  rcases List.mem_append.mp hm with hm | hm
  · split at hm
    · rw [List.mem_singleton.mp hm]
      rfl
    · exact absurd hm List.not_mem_nil
  · rw [List.mem_singleton.mp hm]
    split <;> rfl

theorem stepFollower_queuesOwn (u : Unspecified) (r : Raft) (msg : Message) :
    QueuesOwn r (r.stepFollower u msg).2 := by
  unfold stepFollower
  split
  · exact .after_eq (handleAppendEntries_queuesOwn u _ msg) rfl
  · exact .refl r

theorem stepCandidate_queuesOwn (u : Unspecified) (r : Raft) (msg : Message) :
    QueuesOwn r (r.stepCandidate u msg).2 := by
  by_cases hresp : isVoteResp msg.type = true
  · rw [stepCandidate_of_voteResp hresp]
    split
    · split
      · exact .of_eq rfl
      · exact .after_eq (bcastAppend_queuesOwn u _) rfl
    · exact .of_eq rfl
  · rw [stepCandidate_of_not_voteResp hresp]
    exact .refl r

theorem getProgress_msgs (r : Raft) (id : UInt64) : (r.getProgress id).2.msgs = r.msgs := by
  unfold getProgress
  split <;> rfl

theorem modifyProgress_msgs (r : Raft) (ptr : ProgressPtr) (f : Progress → Progress) :
    (r.modifyProgress ptr f).msgs = r.msgs := by
  cases ptr <;> rfl

theorem queuesOwn_keptByReplication (u : Unspecified) : KeptByReplication u QueuesOwn where
  refl := .refl
  trans := .trans
  getProgress r id := .of_eq (getProgress_msgs r id)
  modifyProgress r ptr f := .of_eq (modifyProgress_msgs r ptr f)
  maybeCommit _ := .of_eq rfl
  bcastAppend := bcastAppend_queuesOwn u

theorem stepLeader_queuesOwn (u : Unspecified) (r : Raft) (msg : Message) :
    QueuesOwn r (r.stepLeader u msg).2 :=
  (queuesOwn_keptByReplication u).stepLeader (fun _ => .of_eq rfl)
    ((queuesOwn_keptByReplication u).appendEntry fun _ _ => .of_eq rfl) r msg

/-- **What `Step` queues.** -/
theorem step_queuesOwn (u : Unspecified) (r : Raft) (msg : Message) :
    QueuesOwn r (r.step u msg).2 := by
  apply step_elim u r msg
  · intro _
    exact .refl r
  · intro _ _ _
    exact campaign_queuesOwn u r
  · intro _ _ _
    exact .of_eq rfl
  · intro _ _
    exact stepFollower_queuesOwn u r msg
  · intro _ _
    exact stepCandidate_queuesOwn u r msg
  · intro _ _
    exact stepLeader_queuesOwn u r msg

/-- A run of `Step` queues what its calls queue. -/
theorem stepAll_queuesOwn (r : Raft) (inputs : List (Unspecified × Message)) :
    QueuesOwn r (r.stepAll inputs) :=
  Machine.foldl_related (f := fun r x => (Raft.step x.1 r x.2).2) Queues.refl
    (fun _ _ _ => Queues.trans) (fun r x => step_queuesOwn x.1 r x.2) r inputs

/-! ## Requests and answers -/

def isVoteRequest (t : MessageType) : Bool := t == .msgVote || t == .msgPreVote

/-- The requests among the messages of a run, each with the outcome of the grant condition
on its arrival. -/
def requests : Raft → List (Unspecified × Message) → List (Message × Bool)
  | _, [] => []
  | r, x :: inputs =>
    (if isVoteRequest x.2.type then [(x.2, r.canVote x.1 x.2)] else []) ++
      requests (r.step x.1 x.2).2 inputs

/-- The messages a run adds to the queue. -/
def enqueued (r : Raft) (inputs : List (Unspecified × Message)) : List Message :=
  (r.stepAll inputs).msgs.drop r.msgs.length

/-- `resp` is the answer to the request `req.1`, which is granted if `req.2` holds. -/
structure Answers (req : Message × Bool) (resp : Message) : Prop where
  type : resp.type = voteRespMsgType req.1.type
  to_ : resp.to_ = req.1.from_
  reject : resp.reject = !req.2
  term : req.2 = true → resp.term = req.1.term

/-- A request for a pre-vote leaves the vote and the timer alone. -/
def PreVoteIsFree (r : Raft) (x : Unspecified × Message) : Prop :=
  x.2.type = .msgPreVote →
    (r.step x.1 x.2).2.vote = r.vote ∧ (r.step x.1 x.2).2.electionElapsed = r.electionElapsed

/-- Every request of the run is answered once: each peer is sent as many answers of a
kind as it has sent requests, and up to their order the answers are those to the
requests. -/
structure AnswersRequests (r : Raft) (inputs : List (Unspecified × Message)) : Prop where
  count : ∀ (peer : UInt64) (t : MessageType), isVoteRequest t →
    (r.enqueued inputs).countP (fun m => m.type = voteRespMsgType t ∧ m.to_ = peer) =
      inputs.countP fun x => x.2.type = t ∧ x.2.from_ = peer
  answers : ∃ answers,
    answers.Perm ((r.enqueued inputs).filter fun m => isVoteResp m.type) ∧
      List.Forall₂ Answers (r.requests inputs) answers
  preVote : stepMachine.Along PreVoteIsFree r inputs

theorem isVoteResp_voteRespMsgType (t : MessageType) : isVoteResp (voteRespMsgType t) = true := by
  unfold voteRespMsgType
  split <;> rfl

theorem not_isVoteResp_of_isSentByStep {t : MessageType} (h : isSentByStep t = true) :
    isVoteResp t = false := by
  revert h
  cases t <;> decide

/-- No answer to a request is queued. -/
theorem not_isVoteResp_of_mem_enqueued {inputs : List (Unspecified × Message)} {m : Message}
    (hm : m ∈ r.enqueued inputs) : isVoteResp m.type = false := by
  obtain ⟨sent, heq, hsent⟩ := stepAll_queuesOwn r inputs
  rw [enqueued, heq, List.drop_left] at hm
  exact not_isVoteResp_of_isSentByStep (hsent m hm)

theorem preVoteIsFree (r : Raft) (x : Unspecified × Message) : PreVoteIsFree r x := by
  intro htype
  rw [step_of_msgPreVote htype]
  exact ⟨rfl, rfl⟩

theorem requests_eq_nil {inputs : List (Unspecified × Message)}
    (h : ∀ x ∈ inputs, isVoteRequest x.2.type = false) : r.requests inputs = [] := by
  induction inputs generalizing r with
  | nil => rfl
  | cons x inputs ih =>
      rw [requests, h x List.mem_cons_self, ih fun y hy => h y (List.mem_cons_of_mem x hy)]
      rfl

/-- **When requests for votes are answered**: in a run without any. -/
theorem answersRequests_iff (r : Raft) (inputs : List (Unspecified × Message)) :
    AnswersRequests r inputs ↔ ∀ x ∈ inputs, isVoteRequest x.2.type = false := by
  have hnone : ∀ peer t, (r.enqueued inputs).countP (fun m =>
      m.type = voteRespMsgType t ∧ m.to_ = peer) = 0 := by
    intro peer t
    rw [List.countP_eq_zero]
    intro m hm hanswer
    have htype := not_isVoteResp_of_mem_enqueued hm
    rw [(of_decide_eq_true hanswer).1, isVoteResp_voteRespMsgType] at htype
    cases htype
  constructor
  · intro h x hx
    by_contra hrequest
    have hcount := h.count x.2.from_ x.2.type (Bool.not_eq_false _ ▸ hrequest)
    rw [hnone] at hcount
    exact List.countP_eq_zero.mp hcount.symm x hx (decide_eq_true ⟨rfl, rfl⟩)
  · intro h
    refine ⟨fun peer t ht => ?_, ⟨[], ?_, ?_⟩, ?_⟩
    · rw [hnone, eq_comm, List.countP_eq_zero]
      intro x hx hasked
      rw [← (of_decide_eq_true hasked).1, h x hx] at ht
      cases ht
    · have hfilter : (r.enqueued inputs).filter (fun m => isVoteResp m.type) = [] := by
        rw [List.filter_eq_nil_iff]
        intro m hm
        simp [not_isVoteResp_of_mem_enqueued hm]
      rw [hfilter]
    · rw [requests_eq_nil h]
      exact .nil
    · exact (Machine.along_of_forall r h).mono fun r x _ => preVoteIsFree r x

/-- A request that is granted, and no answer. -/
theorem answersRequests_fails :
    ¬ ∀ (r : Raft) (inputs : List (Unspecified × Message)), r.isLearner = false →
      AnswersRequests r inputs := by
  intro h
  have hcount := (h (started 2 [1, 2, 3])
    [(.filledIn, { type := .msgVote, from_ := 1, term := 1, index := 1 })] rfl).count 1 .msgVote rfl
  revert hcount
  decide

end Raft

end Anraft
