import Anraft.Raft

/-!
# What one call of `Step` or `Tick` changes

Each function of the node is described by what it leaves alone. `SendsOnly` is
the effect of the sending functions, `NoElection` the effect of everything that
neither casts nor collects a vote. What remains of `Step` are three branches:
a campaign, a vote cast, and the answer to a candidate (`step_cases`).
-/

namespace Anraft

/-- The events of an election: campaigns, votes cast and votes collected. -/
def Event.isElection : Event → Bool
  | .becomeCandidate .. | .becomeLeader _ | .grantVote _ | .poll .. => true
  | _ => false

namespace Raft

variable {u : Unspecified} {r r' r'' : Raft}

/-! ## Functions that only send -/

/-- Messages are queued, and a lookup may have created a learner. -/
def SendsOnly (r r' : Raft) : Prop :=
  ∃ msgs learnerPrs, r' = { r with msgs := msgs, learnerPrs := learnerPrs }

namespace SendsOnly

theorem refl (r : Raft) : SendsOnly r r := ⟨_, _, rfl⟩

theorem trans (h : SendsOnly r r') (h' : SendsOnly r' r'') : SendsOnly r r'' := by
  obtain ⟨_, _, rfl⟩ := h
  obtain ⟨_, _, rfl⟩ := h'
  exact ⟨_, _, rfl⟩

theorem history (h : SendsOnly r r') : r'.history = r.history := by
  obtain ⟨_, _, rfl⟩ := h
  rfl

theorem stepFunc (h : SendsOnly r r') : r'.stepFunc = r.stepFunc := by
  obtain ⟨_, _, rfl⟩ := h
  rfl

end SendsOnly

theorem send_sendsOnly (r : Raft) (msg : Message) : SendsOnly r (r.send msg) := ⟨_, _, rfl⟩

theorem getProgress_sendsOnly (r : Raft) (id : UInt64) : SendsOnly r (r.getProgress id).2 := by
  unfold getProgress
  split
  · exact SendsOnly.refl r
  · exact ⟨_, _, rfl⟩

theorem sendAppend_sendsOnly (u : Unspecified) (r : Raft) (dst : UInt64) :
    SendsOnly r (r.sendAppend u dst) := by
  have hget := getProgress_sendsOnly r dst
  unfold sendAppend
  split
  · next heq => rwa [heq] at hget
  · next heq =>
      rw [heq] at hget
      dsimp only
      split
      · exact hget
      · exact hget.trans (send_sendsOnly _ _)

/-- A relation that every call of `f` keeps is kept by the loop over the
members. -/
theorem forEachProgress_rel {R : Raft → Raft → Prop} {f : Raft → UInt64 → Progress → Raft}
    (hrefl : ∀ r, R r r) (htrans : ∀ {r r' r''}, R r r' → R r' r'' → R r r'')
    (hf : ∀ r id p, R r (f r id p)) (r : Raft) : R r (r.forEachProgress f) := by
  have hfold : ∀ (xs : List (UInt64 × Progress)) (r : Raft),
      R r (xs.foldl (fun r x => f r x.1 x.2) r) := by
    intro xs
    induction xs with
    | nil => exact hrefl
    | cons x xs ih => exact fun r => htrans (hf r x.1 x.2) (ih _)
  exact htrans (hfold _ r) (hfold _ _)

theorem bcastAppend_sendsOnly (u : Unspecified) (r : Raft) :
    SendsOnly r (r.bcastAppend u) := by
  refine forEachProgress_rel SendsOnly.refl SendsOnly.trans (fun r id p => ?_) r
  dsimp only
  split
  · exact SendsOnly.refl r
  · exact sendAppend_sendsOnly u r r.id

/-! ## Functions without an election -/

/-- What no function of the node changes: its identity, its term and the set of
voting members. -/
structure SameConfig (r r' : Raft) : Prop where
  id : r'.id = r.id
  term : r'.term = r.term
  isLearner : r'.isLearner = r.isLearner
  mem_prs : ∀ i, i ∈ r'.prs ↔ i ∈ r.prs
  size_prs : r'.prs.size = r.prs.size

namespace SameConfig

theorem of_eq (hid : r'.id = r.id) (hterm : r'.term = r.term)
    (hlearner : r'.isLearner = r.isLearner) (hprs : r'.prs = r.prs) : SameConfig r r' where
  id := hid
  term := hterm
  isLearner := hlearner
  mem_prs i := by rw [hprs]
  size_prs := by rw [hprs]

theorem refl (r : Raft) : SameConfig r r := of_eq rfl rfl rfl rfl

theorem trans (h : SameConfig r r') (h' : SameConfig r' r'') : SameConfig r r'' where
  id := h'.id.trans h.id
  term := h'.term.trans h.term
  isLearner := h'.isLearner.trans h.isLearner
  mem_prs i := (h'.mem_prs i).trans (h.mem_prs i)
  size_prs := h'.size_prs.trans h.size_prs

theorem quorum (h : SameConfig r r') : r'.quorum = r.quorum := by
  unfold Raft.quorum
  rw [h.size_prs]

end SameConfig

/-- The votes are left alone, nobody starts or wins a campaign, and the node may
only fall back to the role of a follower. -/
structure NoElection (r r' : Raft) : Prop extends SameConfig r r' where
  vote : r'.vote = r.vote
  votes : r'.votes = r.votes
  role : (r'.stepFunc = r.stepFunc ∧ r'.state = r.state) ∨
    (r'.stepFunc = .stepFollower ∧ r'.state = .stateFollower)
  history : ∃ es, r'.history = r.history ++ es ∧ ∀ e ∈ es, e.isElection = false

namespace NoElection

theorem refl (r : Raft) : NoElection r r where
  toSameConfig := .refl r
  vote := rfl
  votes := rfl
  role := .inl ⟨rfl, rfl⟩
  history := ⟨[], (List.append_nil _).symm, by simp⟩

theorem trans (h : NoElection r r') (h' : NoElection r' r'') : NoElection r r'' where
  toSameConfig := h.toSameConfig.trans h'.toSameConfig
  vote := h'.vote.trans h.vote
  votes := h'.votes.trans h.votes
  role := by
    rcases h'.role with ⟨hfunc, hstate⟩ | hfollower
    · rw [hfunc, hstate]
      exact h.role
    · exact .inr hfollower
  history := by
    obtain ⟨es, heq, hes⟩ := h.history
    obtain ⟨es', heq', hes'⟩ := h'.history
    refine ⟨es ++ es', by rw [heq', heq, List.append_assoc], fun e he => ?_⟩
    rcases List.mem_append.mp he with he | he
    · exact hes e he
    · exact hes' e he

end NoElection

/-- Fields that have nothing to do with an election. -/
theorem noElection_with (r : Raft) (lead : UInt64) (tickFunc : TickFunc)
    (electionElapsed heartbeatElapsed randomizedElectionTimeout : ℤ) (msgs : List Message)
    (learnerPrs : Std.TreeMap UInt64 Progress) (raftlog : RaftLog) :
    NoElection r { r with
      lead, tickFunc, electionElapsed, heartbeatElapsed, randomizedElectionTimeout, msgs,
      learnerPrs, raftlog } where
  toSameConfig := .of_eq rfl rfl rfl rfl
  vote := rfl
  votes := rfl
  role := .inl ⟨rfl, rfl⟩
  history := ⟨[], (List.append_nil _).symm, by simp⟩

theorem SendsOnly.noElection (h : SendsOnly r r') : NoElection r r' := by
  obtain ⟨_, _, rfl⟩ := h
  exact noElection_with ..

theorem noElection_record {e : Event} (r : Raft) (he : e.isElection = false) :
    NoElection r (r.record e) where
  toSameConfig := .of_eq rfl rfl rfl rfl
  vote := rfl
  votes := rfl
  role := .inl ⟨rfl, rfl⟩
  history := ⟨[e], rfl, by simpa using he⟩

theorem becomeFollower_noElection (u : Unspecified) (r : Raft) (term lead : UInt64) :
    NoElection r (r.becomeFollower u term lead) where
  toSameConfig := .of_eq rfl rfl rfl rfl
  vote := rfl
  votes := rfl
  role := .inr ⟨rfl, rfl⟩
  history := ⟨[.becomeFollower term lead], rfl, by simp [Event.isElection]⟩

theorem modifyProgress_noElection (r : Raft) (ptr : ProgressPtr) (f : Progress → Progress) :
    NoElection r (r.modifyProgress ptr f) := by
  cases ptr with
  | prs id =>
      refine ⟨⟨rfl, rfl, rfl, fun i => ?_, ?_⟩, rfl, rfl, .inl ⟨rfl, rfl⟩,
        [], (List.append_nil _).symm, by simp⟩
      · exact Std.TreeMap.mem_modify
      · exact Std.TreeMap.size_modify
  | learnerPrs id => exact noElection_with ..

theorem maybeCommit_noElection (u : Unspecified) (r : Raft) :
    NoElection r (r.maybeCommit u).2 :=
  noElection_with ..

/-- The update of a progress found by its id. -/
def updateProgress (r : Raft) (id : UInt64) (f : Progress → Progress) : Raft :=
  match r.getProgress id with
  | (none, r) => r
  | (some ptr, r) => r.modifyProgress ptr f

/-- A relation that lookups and modifications keep is kept by an update. -/
theorem updateProgress_rel {R : Raft → Raft → Prop}
    (htrans : ∀ {r r' r''}, R r r' → R r' r'' → R r r'')
    (hget : ∀ r id, R r (r.getProgress id).2) (hmodify : ∀ r ptr f, R r (r.modifyProgress ptr f))
    (r : Raft) (id : UInt64) (f : Progress → Progress) : R r (r.updateProgress id f) := by
  have hget := hget r id
  unfold updateProgress
  split
  · next heq => rwa [heq] at hget
  · next heq =>
      rw [heq] at hget
      exact htrans hget (hmodify _ _ _)

/-- `AppendEntry` appends, updates the progress of the node itself, and commits. -/
theorem appendEntry_eq (u : Unspecified) (r : Raft) (entries : List LogEntry) :
    ∃ ents, r.appendEntry u entries =
      ((updateProgress { r with raftlog := (u.appendRepeated r.raftlog ents).2 } r.id fun p =>
        (p.maybeUpdate (u.appendRepeated r.raftlog ents).1).2).maybeCommit u).2 :=
  ⟨_, rfl⟩

/-- A relation that the functions a leader replicates with keep. -/
structure KeptByReplication (u : Unspecified) (R : Raft → Raft → Prop) : Prop where
  refl : ∀ r, R r r
  trans : ∀ {r r' r''}, R r r' → R r' r'' → R r r''
  getProgress : ∀ r id, R r (r.getProgress id).2
  modifyProgress : ∀ r ptr f, R r (r.modifyProgress ptr f)
  maybeCommit : ∀ r, R r (r.maybeCommit u).2
  bcastAppend : ∀ r, R r (r.bcastAppend u)

namespace KeptByReplication

variable {R : Raft → Raft → Prop}

/-- Where the log is free to change. -/
theorem appendEntry (hR : KeptByReplication u R)
    (hlog : ∀ (r : Raft) (raftlog : RaftLog), R r { r with raftlog := raftlog })
    (r : Raft) (entries : List LogEntry) : R r (r.appendEntry u entries) := by
  obtain ⟨ents, heq⟩ := appendEntry_eq u r entries
  have hupdate := updateProgress_rel (R := R) hR.trans hR.getProgress hR.modifyProgress
    { r with raftlog := (u.appendRepeated r.raftlog ents).2 } r.id
    fun p => (p.maybeUpdate (u.appendRepeated r.raftlog ents).1).2
  rw [heq]
  exact hR.trans (hR.trans (hlog r _) hupdate) (hR.maybeCommit _)

theorem stepLeaderProgress (hR : KeptByReplication u R) (r : Raft) (msg : Message) :
    R r (r.stepLeaderProgress u msg).2 := by
  have hget := hR.getProgress r msg.from_
  unfold Raft.stepLeaderProgress
  split
  · next heq => rwa [heq] at hget
  · next ptr r₁ heq =>
      rw [heq] at hget
      apply hR.trans hget
      split
      · split
        · exact hR.refl r₁
        · have hcommit : R r₁
              ((r₁.modifyProgress ptr fun p => (p.maybeUpdate msg.index).2).maybeCommit u).2 :=
            hR.trans (hR.modifyProgress r₁ ptr _) (hR.maybeCommit _)
          dsimp only
          split
          · exact hR.trans hcommit (hR.bcastAppend _)
          · exact hcommit
      · exact hR.refl r₁

/-- **Rule for `StepLeader`.** Besides replicating, a leader may become a follower. -/
theorem stepLeader (hR : KeptByReplication u R)
    (hfollower : ∀ r, R r (r.becomeFollower u r.term 0))
    (happend : ∀ r entries, R r (r.appendEntry u entries)) (r : Raft) (msg : Message) :
    R r (r.stepLeader u msg).2 := by
  unfold Raft.stepLeader
  split
  · refine hR.trans ?_ (hR.stepLeaderProgress _ msg)
    split
    · exact hR.refl r
    · exact hfollower r
  · split
    · exact hR.refl r
    · split
      · exact hR.refl r
      · exact hR.trans (hR.trans (happend r _) (hR.bcastAppend _)) (hR.stepLeaderProgress _ msg)
  · exact hR.stepLeaderProgress r msg

end KeptByReplication

theorem noElection_keptByReplication (u : Unspecified) : KeptByReplication u NoElection where
  refl := .refl
  trans := .trans
  getProgress r id := (getProgress_sendsOnly r id).noElection
  modifyProgress := modifyProgress_noElection
  maybeCommit := maybeCommit_noElection u
  bcastAppend r := (bcastAppend_sendsOnly u r).noElection

theorem appendEntry_noElection (u : Unspecified) (r : Raft) (entries : List LogEntry) :
    NoElection r (r.appendEntry u entries) :=
  (noElection_keptByReplication u).appendEntry (fun _ _ => noElection_with ..) r entries

/-- **What `HandleAppendEntries` does**: it queues messages, records the call of
`MaybeAppend`, and leaves the log to it. -/
theorem handleAppendEntries_eq (u : Unspecified) (r : Raft) (msg : Message) :
    ∃ msgs, r.handleAppendEntries u msg =
      { r.record (.maybeAppend msg.index msg.term msg.commit msg.entries) with
        msgs := msgs
        raftlog :=
          (r.raftlog.maybeAppend u.toUnwritten msg.index msg.term msg.commit msg.entries).2 } := by
  unfold handleAppendEntries
  dsimp only
  split <;> split <;> exact ⟨_, rfl⟩

theorem handleAppendEntries_noElection (u : Unspecified) (r : Raft) (msg : Message) :
    NoElection r (r.handleAppendEntries u msg) := by
  obtain ⟨msgs, heq⟩ := handleAppendEntries_eq u r msg
  rw [heq]
  exact .trans (noElection_record _ rfl) (noElection_with ..)

theorem stepFollower_noElection (u : Unspecified) (r : Raft) (msg : Message) :
    NoElection r (r.stepFollower u msg).2 := by
  unfold stepFollower
  split
  · exact .trans (noElection_with ..) (handleAppendEntries_noElection u _ msg)
  · exact .refl r

/-- Without a member to hold its progress, or during a transfer, the leader drops
proposals. -/
theorem stepLeader_dropped {msg : Message} (htype : msg.type = .msgProp)
    (h : r.id ∉ r.prs ∨ r.leadTransferee ≠ 0) :
    r.stepLeader u msg = (.errProposalDropped, r) := by
  simp only [stepLeader, htype]
  by_cases hmember : r.id ∈ r.prs
  · rw [if_neg (not_not.mpr hmember), if_pos (h.resolve_left (not_not.mpr hmember))]
  · rw [if_pos hmember]

/-- A proposal that is taken is appended, broadcast, and treated like an answer. -/
theorem stepLeader_taken {msg : Message} (htype : msg.type = .msgProp) (hmember : r.id ∈ r.prs)
    (htransfer : r.leadTransferee = 0) :
    r.stepLeader u msg =
      ((r.appendEntry u msg.entries).bcastAppend u).stepLeaderProgress u msg := by
  simp only [stepLeader, htype]
  rw [if_neg (not_not.mpr hmember), if_neg (not_not.mpr htransfer)]

theorem stepLeader_noElection (u : Unspecified) (r : Raft) (msg : Message) :
    NoElection r (r.stepLeader u msg).2 :=
  (noElection_keptByReplication u).stepLeader (fun r => becomeFollower_noElection u r _ _)
    (appendEntry_noElection u) r msg

/-! ## The three branches of an election -/

/-- The loop of `Campaign` over the members queues messages. -/
theorem foldl_send_eq (term : UInt64) (type : MessageType) (xs : List (UInt64 × Progress))
    (r : Raft) :
    ∃ msgs, xs.foldl (fun r x =>
      if x.1 = r.id then r
      else r.send { term := term, to_ := x.1, type := type }) r = { r with msgs := msgs } := by
  induction xs generalizing r with
  | nil => exact ⟨r.msgs, rfl⟩
  | cons x xs ih =>
      rw [List.foldl_cons]
      split
      · exact ih r
      · exact ih (r.send _)

/-- A campaign is `BecomeCandidate` and then messages. -/
theorem campaign_eq_becomeCandidate (u : Unspecified) (r : Raft) :
    ∃ msgs, r.campaign u .campaignElection = { r.becomeCandidate u with msgs := msgs } := by
  unfold campaign
  dsimp only
  split
  · exact ⟨_, rfl⟩
  · exact foldl_send_eq _ _ _ _

theorem campaign_sendsOnly (u : Unspecified) (r : Raft) :
    SendsOnly (r.becomeCandidate u) (r.campaign u .campaignElection) := by
  obtain ⟨msgs, heq⟩ := campaign_eq_becomeCandidate u r
  exact ⟨msgs, _, heq⟩

/-- The answers `StepCandidate` reacts to. -/
def isVoteResp (t : MessageType) : Bool := t == .msgPreVoteResp || t == .msgVoteResp

theorem isVoteResp_iff {t : MessageType} :
    isVoteResp t = true ↔ t = .msgPreVoteResp ∨ t = .msgVoteResp := by
  simp [isVoteResp]

/-- The node after `Poll` has filed the answer `msg`. -/
def polled (r : Raft) (msg : Message) : Raft :=
  { r with votes := r.votes.insertIfNew msg.from_ !msg.reject }.record
    (.poll msg.from_ msg.type !msg.reject)

/-- The comparison of `StepCandidate` after `Poll` has counted the answer `msg`. -/
def CountsAsElected (u : Unspecified) (r : Raft) (msg : Message) : Prop :=
  (r.poll u msg.from_ msg.type !msg.reject).1 > r.quorum

instance (u : Unspecified) (r : Raft) (msg : Message) : Decidable (r.CountsAsElected u msg) :=
  inferInstanceAs (Decidable (_ > _))

theorem stepCandidate_of_not_voteResp {msg : Message} (h : isVoteResp msg.type ≠ true) :
    (r.stepCandidate u msg).2 = r := by
  obtain ⟨hpre, hvote⟩ := not_or.mp fun hor => h (isVoteResp_iff.mpr hor)
  unfold stepCandidate
  split
  · next htype => exact absurd htype hpre
  · next htype => exact absurd htype hvote
  · rfl

theorem stepCandidate_of_voteResp {msg : Message} (h : isVoteResp msg.type) :
    (r.stepCandidate u msg).2 =
      if r.CountsAsElected u msg then
        if r.state = .statePreCandidate then r.polled msg
        else ((r.polled msg).becomeLeader u).bcastAppend u
      else (r.polled msg).becomeFollower u r.term 0 := by
  have hboth : (r.stepCandidate u msg).2 =
      (if r.CountsAsElected u msg then
        if (r.polled msg).state = .statePreCandidate then (u.returned, r.polled msg)
        else (u.returned, ((r.polled msg).becomeLeader u).bcastAppend u)
      else (u.returned, (r.polled msg).becomeFollower u r.term 0)).2 := by
    rcases isVoteResp_iff.mp h with htype | htype
    · simp only [stepCandidate, CountsAsElected, polled, htype]
      rfl
    · simp only [stepCandidate, CountsAsElected, polled, htype]
      rfl
  rw [hboth]
  split
  · exact apply_ite Prod.snd _ _ _
  · rfl

/-- What one answer to a candidate leaves in the history. -/
theorem stepCandidate_history {msg : Message} (h : isVoteResp msg.type) :
    (r.stepCandidate u msg).2.history =
      r.history ++ [.poll msg.from_ msg.type !msg.reject] ++
        if r.CountsAsElected u msg then
          if r.state = .statePreCandidate then [] else [.becomeLeader r.state]
        else [.becomeFollower r.term 0] := by
  rw [stepCandidate_of_voteResp h]
  split
  · split
    · exact (List.append_nil _).symm
    · rw [(bcastAppend_sendsOnly u _).history]
      rfl
  · rfl

/-- The effects of `Step`. -/
inductive StepEffect (u : Unspecified) (r : Raft) (msg : Message) : Raft → Prop where
  | campaign {r' : Raft} (hstate : r.state ≠ .stateLeader)
      (hsent : SendsOnly (r.becomeCandidate u) r') : StepEffect u r msg r'
  | grant {r' : Raft} (htype : msg.type = .msgVote) (hlearner : r.isLearner = false)
      (hvote : r.canVote u msg = true)
      (heq : r' = { r with vote := msg.from_, electionElapsed := 0 }.record (.grantVote msg)) :
      StepEffect u r msg r'
  | voteResp {r' : Raft} (htype : isVoteResp msg.type) (hfunc : r.stepFunc = .stepCandidate)
      (heq : r' = (r.stepCandidate u msg).2) : StepEffect u r msg r'
  | quiet {r' : Raft} (h : NoElection r r') : StepEffect u r msg r'

/-- The messages `Step` answers without the function of the role. -/
def isHandledByStep (t : MessageType) : Bool :=
  t == .msgHup || t == .msgVote || t == .msgPreVote

theorem step_of_not_handled {msg : Message} (h : isHandledByStep msg.type = false) :
    r.step u msg =
      match r.stepFunc with
      | .stepFollower => r.stepFollower u msg
      | .stepCandidate => r.stepCandidate u msg
      | .stepLeader => r.stepLeader u msg := by
  unfold step
  cases htype : msg.type <;> first | rfl | (rw [htype] at h; cases h)

theorem step_of_msgVote {msg : Message} (h : msg.type = .msgVote) :
    (r.step u msg).2 =
      if r.isLearner = false ∧ r.canVote u msg = true then
        { r with vote := msg.from_, electionElapsed := 0 }.record (.grantVote msg)
      else r := by
  unfold step
  cases hlearner : r.isLearner <;> cases hvote : r.canVote u msg <;> simp [h]

theorem step_of_msgHup {msg : Message} (h : msg.type = .msgHup) :
    (r.step u msg).2 =
      if r.state ≠ .stateLeader ∧ r.preVote = false then r.campaign u .campaignElection
      else r := by
  unfold step
  cases hpre : r.preVote <;> by_cases hstate : r.state = .stateLeader <;> simp [h, hstate]

theorem step_of_msgPreVote {msg : Message} (h : msg.type = .msgPreVote) :
    (r.step u msg).2 = r := by
  unfold step
  cases hlearner : r.isLearner <;> cases hvote : r.canVote u msg <;> simp [h]

/-- **Case rule for `Step`.** What holds of the unchanged node, of a campaign, of a vote
cast and of the function of the role holds after every call of `Step`. -/
theorem step_elim {P : Raft → Prop} (u : Unspecified) (r : Raft) (msg : Message)
    (hsame : isHandledByStep msg.type = true → P r)
    (hcampaign : msg.type = .msgHup → r.state ≠ .stateLeader → r.preVote = false →
      P (r.campaign u .campaignElection))
    (hgrant : msg.type = .msgVote → r.isLearner = false → r.canVote u msg = true →
      P ({ r with vote := msg.from_, electionElapsed := 0 }.record (.grantVote msg)))
    (hfollower : isHandledByStep msg.type = false → r.stepFunc = .stepFollower →
      P (r.stepFollower u msg).2)
    (hcandidate : isHandledByStep msg.type = false → r.stepFunc = .stepCandidate →
      P (r.stepCandidate u msg).2)
    (hleader : isHandledByStep msg.type = false → r.stepFunc = .stepLeader →
      P (r.stepLeader u msg).2) : P (r.step u msg).2 := by
  by_cases hhup : msg.type = .msgHup
  · rw [step_of_msgHup hhup]
    split
    · next h => exact hcampaign hhup h.1 h.2
    · exact hsame (by simp [isHandledByStep, hhup])
  by_cases hvote : msg.type = .msgVote
  · rw [step_of_msgVote hvote]
    split
    · next h => exact hgrant hvote h.1 h.2
    · exact hsame (by simp [isHandledByStep, hvote])
  by_cases hpre : msg.type = .msgPreVote
  · rw [step_of_msgPreVote hpre]
    exact hsame (by simp [isHandledByStep, hpre])
  have hrest : isHandledByStep msg.type = false := by simp [isHandledByStep, hhup, hvote, hpre]
  rw [step_of_not_handled hrest]
  cases hfunc : r.stepFunc with
  | stepFollower => exact hfollower hrest hfunc
  | stepCandidate => exact hcandidate hrest hfunc
  | stepLeader => exact hleader hrest hfunc

/-- **Inversion of `Step`.** -/
theorem step_cases (u : Unspecified) (r : Raft) (msg : Message) :
    StepEffect u r msg (r.step u msg).2 := by
  apply step_elim u r msg
  · intro _
    exact .quiet (.refl r)
  · intro _ hstate _
    exact .campaign hstate (campaign_sendsOnly u r)
  · intro htype hlearner hvote
    exact .grant htype hlearner hvote rfl
  · intro _ _
    exact .quiet (stepFollower_noElection u r msg)
  · intro _ hfunc
    by_cases htype : isVoteResp msg.type = true
    · exact .voteResp htype hfunc rfl
    · rw [stepCandidate_of_not_voteResp htype]
      exact .quiet (.refl r)
  · intro _ _
    exact .quiet (stepLeader_noElection u r msg)

/-! ## `Tick` -/

/-- The messages `Tick` steps. -/
def isTickMsg (t : MessageType) : Bool := t == .msgHup || t == .msgCheckQuorum || t == .msgBeat

/-- Those among them for a leader. -/
def isLeaderTickMsg (t : MessageType) : Bool := t == .msgCheckQuorum || t == .msgBeat

/-- The bookkeeping of `Tick`: counters, and events without an election. -/
def Counts (r r' : Raft) : Prop :=
  ∃ electionElapsed heartbeatElapsed es,
    r' = { r with electionElapsed, heartbeatElapsed, history := r.history ++ es } ∧
      ∀ e ∈ es, e.isElection = false

theorem counts_with (r : Raft) (electionElapsed heartbeatElapsed : ℤ) :
    Counts r { r with electionElapsed, heartbeatElapsed } :=
  ⟨_, _, [], by rw [List.append_nil], by simp⟩

theorem counts_record {e : Event} (r : Raft) (he : e.isElection = false) :
    Counts r (r.record e) :=
  ⟨_, _, [e], rfl, by simpa using he⟩

theorem Counts.noElection (h : Counts r r') : NoElection r r' := by
  obtain ⟨_, _, es, rfl, hes⟩ := h
  exact ⟨.of_eq rfl rfl rfl rfl, rfl, rfl, .inl ⟨rfl, rfl⟩, es, rfl, hes⟩

theorem tickElection_preserves {Q : Raft → Prop}
    (hcounts : ∀ {r r'}, Counts r r' → Q r → Q r')
    (hstep : ∀ {r msg}, isTickMsg msg.type → Q r → Q (r.step u msg).2) (h : Q r) :
    Q (r.tickElection u) := by
  unfold tickElection
  dsimp only
  split
  · exact hstep rfl (hcounts (counts_record _ rfl) (hcounts (counts_with ..) h))
  · exact hcounts (counts_with ..) h

theorem tickHeatbeat_preserves {Q : Raft → Prop}
    (hcounts : ∀ {r r'}, Counts r r' → Q r → Q r')
    (hstep : ∀ {r msg}, isLeaderTickMsg msg.type → Q r → Q (r.step u msg).2) (h : Q r) :
    Q (r.tickHeatbeat u) := by
  unfold tickHeatbeat
  extract_lets counted reset checked advanced beaten
  have hcounted : Q counted := hcounts (counts_with ..) h
  have hreset : Q reset := hcounts (counts_with ..) hcounted
  have hchecked : Q checked := by
    show Q (if counted.electionElapsed > counted.electionTimeout then
      if reset.checkQuorum then
        (reset.step u { type := .msgCheckQuorum, from_ := reset.id }).2
      else reset
      else counted)
    split
    · split
      · exact hstep rfl hreset
      · exact hreset
    · exact hcounted
  have hadvanced : Q advanced := hcounts (counts_with ..) hchecked
  split
  · exact hchecked
  · split
    · exact hstep rfl (hcounts (counts_record _ rfl) hadvanced)
    · exact hchecked

/-- **Rule for `Tick`.** What bookkeeping keeps, and every step on one of its own
messages, a whole call of `Tick` keeps. -/
theorem tick_preserves_of_counts {Q : Raft → Prop}
    (hcounts : ∀ {r r'}, Counts r r' → Q r → Q r')
    (hstep : ∀ {r msg}, isTickMsg msg.type → Q r → Q (r.step u msg).2) (h : Q r) :
    Q (r.tick u) := by
  have hrecord : Q (r.record .tick) := hcounts (counts_record r rfl) h
  unfold tick
  dsimp only
  split
  · exact tickElection_preserves hcounts hstep hrecord
  · refine tickHeatbeat_preserves hcounts (fun htype => hstep ?_) hrecord
    simpa [isTickMsg, isLeaderTickMsg, or_assoc] using Or.inr htype

theorem tick_preserves {Q : Raft → Prop}
    (hquiet : ∀ {r r'}, NoElection r r' → Q r → Q r')
    (hstep : ∀ {r msg}, isTickMsg msg.type → Q r → Q (r.step u msg).2) (h : Q r) :
    Q (r.tick u) :=
  tick_preserves_of_counts (fun hcounts => hquiet hcounts.noElection) hstep h

/-! ## What every call keeps -/

/-- **Rule for `Step`.** A transitive relation that holds for everything without an
election and for the four election steps holds for a whole call of `Step`. -/
theorem step_rel {R : Raft → Raft → Prop} {msg : Message}
    (htrans : ∀ {r r' r''}, R r r' → R r' r'' → R r r'')
    (hquiet : ∀ {r r'}, NoElection r r' → R r r')
    (hcandidate : ∀ r, R r (r.becomeCandidate u))
    (hgrant : ∀ r, R r
      ({ r with vote := msg.from_, electionElapsed := 0 }.record (.grantVote msg)))
    (hpolled : ∀ r, R r (r.polled msg))
    (hleader : ∀ r, R r (r.becomeLeader u)) (r : Raft) : R r (r.step u msg).2 := by
  cases step_cases u r msg with
  | campaign _ hsent => exact htrans (hcandidate r) (hquiet hsent.noElection)
  | grant _ _ _ heq =>
      rw [heq]
      exact hgrant r
  | voteResp htype _ heq =>
      rw [heq, stepCandidate_of_voteResp htype]
      split
      · split
        · exact hpolled r
        · have hwon := htrans (hpolled r) (hleader _)
          exact htrans hwon (hquiet (bcastAppend_sendsOnly u _).noElection)
      · exact htrans (hpolled r) (hquiet (becomeFollower_noElection u _ _ _))
  | quiet h => exact hquiet h

theorem step_sameConfig (u : Unspecified) (r : Raft) (msg : Message) :
    SameConfig r (r.step u msg).2 := by
  apply step_rel (R := SameConfig) SameConfig.trans NoElection.toSameConfig
  · intro r
    exact .of_eq rfl rfl rfl rfl
  · intro r
    exact .of_eq rfl rfl rfl rfl
  · intro r
    exact .of_eq rfl rfl rfl rfl
  · intro r
    exact .of_eq rfl rfl rfl rfl

end Raft

end Anraft
