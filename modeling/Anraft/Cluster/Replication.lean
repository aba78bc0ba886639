import Anraft.Cluster.ElectionSafety
import Anraft.Replication.CommitProvenance
import Anraft.Replication.Proposals

/-!
# What a cluster replicates

Nothing. A leader that takes a proposal appends it to its own log, and the broadcast that
should follow passes every member by. No member is sent an entry, none acknowledges one,
and the quorum index stays where it was.
-/

namespace Anraft

open OrderStatistic

namespace Raft

variable {u : Unspecified} {r r' : Raft} {msg : Message} {members : Finset UInt64} {term i : UInt64}

/-! ## The commit rule with one acknowledgement -/

/-- No member but `i` has acknowledged an entry. -/
def OnlyAcksOwn (i : UInt64) (r : Raft) : Prop :=
  ∀ (k : UInt64) (p : Progress), k ≠ i → r.prs[k]? = some p → p.match_ = 0

theorem OnlyAcksOwn.matching_le (h : OnlyAcksOwn i r) {n : UInt64} (hn : 0 < n) :
    r.matching n ≤ 1 := by
  classical
  have hcount : r.matching n =
      (({i} : Finset UInt64).filter fun k => ∃ p, r.prs[k]? = some p ∧ n ≤ p.match_).card := by
    apply TreeMap.countP_toList_eq_card
    intro k
    rw [Finset.mem_filter, Finset.mem_singleton]
    simp only [decide_eq_true_eq]
    apply and_iff_right_of_imp
    rintro ⟨p, hp, hle⟩
    by_contra hk
    rw [h k p hk hp] at hle
    exact absurd (hn.trans_le hle) (lt_irrefl _)
  rw [hcount]
  exact (Finset.card_filter_le _ _).trans_eq (Finset.card_singleton i)

/-- One member is no quorum of two or more. -/
theorem OnlyAcksOwn.maybeCommit (h : OnlyAcksOwn i r) (hsize : 2 ≤ r.prs.size) (u : Unspecified) :
    (r.maybeCommit u).2 = r := by
  have hne : r.prs.isEmpty = false := by
    rw [Std.TreeMap.isEmpty_eq_size_eq_zero]
    simp
    omega
  obtain ⟨q, hq, hgreatest⟩ := exists_quorumIndex hne
  have hzero : q = 0 := by
    by_contra hq0
    have hquorum : r.quorum ≤ r.matching q := hgreatest.1
    have hone := h.matching_le (UInt64.pos_iff_ne_zero.mpr hq0)
    unfold quorum at hquorum
    omega
  unfold Raft.maybeCommit
  simp only [hq, hzero, Option.getD_some, RaftLog.maybeCommit]
  rw [if_neg]
  rintro ⟨hlt, -⟩
  exact absurd hlt (by simp)

/-! ## A leader that hears of no acknowledgement -/

/-- A proposal changes the log and the leader's own progress, and commits nothing. -/
theorem OnlyAcksOwn.appendEntry (h : OnlyAcksOwn r.id r) (hmember : r.id ∈ r.prs)
    (hsize : 2 ≤ r.prs.size) (u : Unspecified) (entries : List LogEntry) :
    ∃ ents f, r.appendEntry u entries =
      { r with
        raftlog := (u.appendRepeated r.raftlog ents).2
        prs := r.prs.modify r.id f } := by
  obtain ⟨ents, heq⟩ := appendEntry_eq u r entries
  let appended : Raft := { r with raftlog := (u.appendRepeated r.raftlog ents).2 }
  let own : Progress → Progress := fun p => (p.maybeUpdate (u.appendRepeated r.raftlog ents).1).2
  have hacks : OnlyAcksOwn r.id { appended with prs := r.prs.modify r.id own } := by
    intro k p hk hp
    apply h k p hk
    rw [← hp]
    show _ = (r.prs.modify r.id own)[k]?
    rw [Std.TreeMap.getElem?_modify, if_neg]
    exact fun hcmp => hk (Std.LawfulEqCmp.compare_eq_iff_eq.mp hcmp).symm
  refine ⟨ents, own, heq.trans ?_⟩
  rw [updateProgress_of_mem (r := appended) hmember]
  apply hacks.maybeCommit (u := u)
  show 2 ≤ (r.prs.modify r.id own).size
  rwa [Std.TreeMap.size_modify]

/-! ## One node without followers -/

/-- Since `start` the node has written to its log as a leader alone, has committed nothing,
and has learnt nothing of the progress of the others. -/
structure Unreplicated (i : UInt64) (start r : Raft) : Prop where
  others : ∀ k : UInt64, k ≠ i → r.prs[k]? = start.prs[k]?
  committed : r.raftlog.committed = start.raftlog.committed
  log : (∀ old, .becomeLeader old ∉ r.history) → r.raftlog = start.raftlog
  leads : r.stepFunc = .stepLeader → ∃ old, .becomeLeader old ∈ r.history

namespace Unreplicated

variable {start : Raft}

/-- Log and progress are left alone. -/
theorem of_eq (h : Unreplicated i start r) (hprs : r'.prs = r.prs) (hlog : r'.raftlog = r.raftlog)
    (hhistory : r.history <+: r'.history)
    (hleads : r'.stepFunc = .stepLeader →
      r.stepFunc = .stepLeader ∨ ∃ old, .becomeLeader old ∈ r'.history) :
    Unreplicated i start r' where
  others := hprs.symm ▸ h.others
  committed := hlog.symm ▸ h.committed
  log hnever := hlog.trans (h.log fun old hold => hnever old (hhistory.subset hold))
  leads hfunc := by
    rcases hleads hfunc with hfunc | hled
    · obtain ⟨old, hold⟩ := h.leads hfunc
      exact ⟨old, hhistory.subset hold⟩
    · exact hled

theorem onlyAcksOwn (h : Unreplicated i start r) (hstart : OnlyAcksOwn i start) : OnlyAcksOwn i r :=
  fun k p hk hp => hstart k p hk (h.others k hk ▸ hp)

/-- Messages and learners do not matter. -/
theorem of_learners (h : Unreplicated i start r) (learnerPrs : Std.TreeMap UInt64 Progress) :
    Unreplicated i start { r with learnerPrs := learnerPrs } :=
  h.of_eq rfl rfl (List.prefix_refl _) .inl

theorem campaign (h : Unreplicated i start r) (u : Unspecified) :
    Unreplicated i start (r.campaign u .campaignElection) := by
  obtain ⟨msgs, heq⟩ := campaign_eq_becomeCandidate u r
  rw [heq]
  exact h.of_eq rfl rfl ⟨_, rfl⟩ (by intro hfunc; cases hfunc)

theorem stepCandidate (h : Unreplicated i start r) (hid : r.id ≠ 0) (u : Unspecified)
    (msg : Message) : Unreplicated i start (r.stepCandidate u msg).2 := by
  by_cases hresp : isVoteResp msg.type = true
  · rw [stepCandidate_of_voteResp hresp]
    have hpolled : Unreplicated i start (r.polled msg) := h.of_eq rfl rfl ⟨_, rfl⟩ .inl
    split
    · split
      · exact hpolled
      · rw [bcastAppend_of_id_ne_zero (r := (r.polled msg).becomeLeader u) hid]
        refine hpolled.of_eq rfl rfl ⟨_, rfl⟩ fun _ => .inr ⟨(r.polled msg).state, ?_⟩
        exact List.mem_append_right _ (List.mem_singleton_self _)
    · exact hpolled.of_eq rfl rfl ⟨_, rfl⟩ (by intro hfunc; cases hfunc)
  · rw [stepCandidate_of_not_voteResp hresp]
    exact h

/-- A proposal that is taken. -/
theorem appendEntry (h : Unreplicated i start r) (hstart : OnlyAcksOwn i start)
    (hnode : IsNode members term i r) (hi : i ∈ members) (hsize : 2 ≤ members.card)
    (hu : u.AppendKeepsIndexes) (hfunc : r.stepFunc = .stepLeader) (entries : List LogEntry) :
    Unreplicated i start (r.appendEntry u entries) := by
  obtain ⟨old, hold⟩ := h.leads hfunc
  have hacks : OnlyAcksOwn r.id r := hnode.id.symm ▸ h.onlyAcksOwn hstart
  obtain ⟨ents, f, heq⟩ := hacks.appendEntry (u := u)
    ((hnode.mem_prs _).mpr (hnode.id.symm ▸ hi)) (hnode.size_prs.symm ▸ hsize) entries
  rw [heq]
  refine ⟨fun k hk => ?_, ?_, fun hnever => absurd hold (hnever old), fun _ => ⟨old, hold⟩⟩
  · show (r.prs.modify r.id f)[k]? = _
    rw [Std.TreeMap.getElem?_modify, if_neg, h.others k hk]
    rw [hnode.id]
    exact fun hcmp => hk (Std.LawfulEqCmp.compare_eq_iff_eq.mp hcmp).symm
  · exact (hu r.raftlog ents).1.trans h.committed

theorem stepLeader (h : Unreplicated i start r) (hstart : OnlyAcksOwn i start)
    (hnode : IsNode members term i r) (hi : i ∈ members) (hzero : i ≠ 0) (hsize : 2 ≤ members.card)
    (hu : u.AppendKeepsIndexes) (hfunc : r.stepFunc = .stepLeader)
    (hack : msg.type ≠ .msgAppResp) : Unreplicated i start (r.stepLeader u msg).2 := by
  have hprogress : ∀ {r' : Raft}, Unreplicated i start r' →
      Unreplicated i start (r'.stepLeaderProgress u msg).2 := by
    intro r' h'
    obtain ⟨learnerPrs, heq⟩ := stepLeaderProgress_of_ne_ack hack u r'
    rw [heq]
    exact h'.of_learners learnerPrs
  by_cases hprop : msg.type = .msgProp
  · by_cases hdropped : r.id ∉ r.prs ∨ r.leadTransferee ≠ 0
    · rw [stepLeader_dropped hprop hdropped]
      exact h
    · obtain ⟨hmember, htransfer⟩ := not_or.mp hdropped
      have hid : (r.appendEntry u msg.entries).id ≠ 0 := by
        rw [(appendEntry_noElection u r msg.entries).id, hnode.id]
        exact hzero
      rw [stepLeader_taken hprop (not_not.mp hmember) (not_not.mp htransfer),
        bcastAppend_of_id_ne_zero hid]
      exact hprogress (h.appendEntry hstart hnode hi hsize hu hfunc msg.entries)
  · unfold Raft.stepLeader
    split
    · apply hprogress
      split
      · exact h
      · exact h.of_eq rfl rfl ⟨_, rfl⟩ (by intro hfunc; cases hfunc)
    · next htype => exact absurd htype hprop
    · exact hprogress h

/-- **One message.** -/
theorem step (h : Unreplicated i start r) (hstart : OnlyAcksOwn i start)
    (hnode : IsNode members term i r) (hi : i ∈ members) (hzero : i ≠ 0)
    (hsize : r.stepFunc = .stepLeader → 2 ≤ members.card)
    (hu : u.AppendKeepsIndexes)
    (happ : msg.type ≠ .msgApp) (hack : msg.type ≠ .msgAppResp) :
    Unreplicated i start (r.step u msg).2 := by
  apply step_elim u r msg
  · intro _
    exact h
  · intro _ _ _
    exact h.campaign u
  · intro _ _ _
    exact h.of_eq rfl rfl ⟨_, rfl⟩ .inl
  · intro _ _
    unfold Raft.stepFollower
    split
    · next htype => exact absurd htype happ
    · exact h
  · intro _ _
    exact h.stepCandidate (hnode.id.symm ▸ hzero) u msg
  · intro _ hfunc
    exact h.stepLeader hstart hnode hi hzero (hsize hfunc) hu hfunc hack

theorem tick (h : Unreplicated i start r) (hstart : OnlyAcksOwn i start)
    (hnode : IsNode members term i r) (hi : i ∈ members) (hzero : i ≠ 0) (hu : u.AppendKeepsIndexes)
    (hsize : r.stepFunc = .stepLeader → 2 ≤ members.card) : Unreplicated i start (r.tick u) := by
  have hkept : IsNode members term i (r.tick u) ∧
      ((r.tick u).stepFunc = .stepLeader → 2 ≤ members.card) ∧ Unreplicated i start (r.tick u) := by
    refine tick_preserves_of_counts (Q := fun r => IsNode members term i r ∧
      (r.stepFunc = .stepLeader → 2 ≤ members.card) ∧ Unreplicated i start r) ?_ ?_
      ⟨hnode, hsize, h⟩
    · rintro r₁ r₂ hcounts ⟨hnode, hsize, h⟩
      refine ⟨hnode.of_sameConfig hcounts.noElection.toSameConfig, ?_⟩
      obtain ⟨_, _, _, rfl, -⟩ := hcounts
      exact ⟨hsize, h.of_eq rfl rfl ⟨_, rfl⟩ .inl⟩
    · rintro r₁ m hm ⟨hnode, hsize, h⟩
      have hne : ∀ t, isTickMsg t = false → m.type ≠ t := by
        rintro t ht rfl
        rw [hm] at ht
        cases ht
      refine ⟨hnode.of_sameConfig (step_sameConfig u r₁ m), ?_, ?_⟩
      · intro hfunc
        cases step_cases u r₁ m with
        | campaign _ hsent =>
            rw [hsent.stepFunc] at hfunc
            cases hfunc
        | grant htype => exact absurd htype (hne _ rfl)
        | voteResp hresp => exact absurd hresp (not_isVoteResp_of_isTickMsg hm)
        | quiet hquiet =>
            rcases hquiet.role with ⟨hsame, -⟩ | ⟨hfollower, -⟩
            · exact hsize (hsame ▸ hfunc)
            · rw [hfollower] at hfunc
              cases hfunc
      · exact h.step hstart hnode hi hzero hsize hu (hne _ rfl) (hne _ rfl)
  exact hkept.2.2

end Unreplicated

end Raft

/-! ## The cluster -/

namespace Cluster

open Raft

variable {members : Finset UInt64} {term : UInt64} {start c : Cluster} {a : Action}

/-- The traffic of the cluster itself: messages out of the queues of members, proposals, which
`Node::Run` stamps with the id of the node, and honest answers to requests for votes. -/
def IsOwnTraffic (members : Finset UInt64) (c : Cluster) : Action → Prop
  | (i, .tick _) => i ∈ members
  | (i, .step u msg) =>
    i ∈ members ∧
      (InFlight members c i msg ∨
        (msg.type = .msgProp ∧ msg.from_ = i) ∨
        (isVoteResp msg.type = true ∧ u.grant ≤ 0 ∧ IsHonest members c i msg))

instance (members : Finset UInt64) (c : Cluster) : (a : Action) → Decidable (IsOwnTraffic members c a)
  | (i, .tick _) => inferInstanceAs (Decidable (i ∈ members))
  | (_, .step ..) => inferInstanceAs (Decidable (_ ∧ (_ ∨ _ ∨ _)))

/-- A member that has just been started has heard nothing. -/
theorem ofMembers_onlyAcksOwn {ids : List UInt64} (hnodup : ids.Nodup) (term i : UInt64) :
    OnlyAcksOwn i (ofMembers ids term i) := by
  intro k p _ hp
  let progress : List (UInt64 × Progress) := ids.map fun k => (k, { next := 1 })
  have hp : (Std.TreeMap.ofList progress)[k]? = some p := hp
  have hdistinct : progress.Pairwise fun a b => ¬ compare a.1 b.1 = .eq := by
    rw [List.pairwise_map]
    exact hnodup.imp fun hne heq => hne (Std.LawfulEqCmp.compare_eq_iff_eq.mp heq)
  by_cases hk : k ∈ ids
  · have hmem : (k, ({ next := 1 } : Progress)) ∈ progress := List.mem_map_of_mem hk
    rw [Std.TreeMap.getElem?_ofList_of_mem Std.ReflCmp.compare_self hdistinct hmem] at hp
    rw [← Option.some.inj hp]
  · rw [Std.TreeMap.getElem?_ofList_of_contains_eq_false] at hp
    · cases hp
    · simpa [progress] using hk

/-- What a run of own traffic keeps. -/
structure Unheard (members : Finset UInt64) (term : UInt64) (start c : Cluster) : Prop where
  ballot : ∃ b, Ballot.Sound members (members.card / 2 + 2) b ∧ CarriesOut false members term c b
  requests : ∀ i ∈ members, ∀ m ∈ (c i).msgs, IsRequest members term i m
  unreplicated : ∀ i ∈ members, Unreplicated i (start i) (c i)

/-- A leader has at least four others to vote for it. -/
theorem Unheard.two_le (h : Unheard members term start c) {i : UInt64} (hi : i ∈ members)
    (hfunc : (c i).stepFunc = .stepLeader) : 2 ≤ members.card := by
  obtain ⟨b, hsound, hb⟩ := h.ballot
  have hcard := hsound.quorum_le (hb.elected ⟨hi, (h.unreplicated i hi).leads hfunc⟩)
  rw [Finset.card_erase_of_mem hi] at hcard
  omega

/-- As long as requests are all there is, own traffic votes honestly. -/
theorem IsOwnTraffic.votesHonestly
    (hrequests : ∀ i ∈ members, ∀ m ∈ (c i).msgs, IsRequest members term i m)
    (h : IsOwnTraffic members c a) : VotesHonestly members c a := by
  obtain ⟨i, input⟩ := a
  cases input with
  | tick u => exact h
  | step u msg =>
      obtain ⟨hi, hflight | ⟨hprop, -⟩ | ⟨hresp, hanswer⟩⟩ := h
      · obtain ⟨j, hj, hqueued, hto⟩ := hflight
        have htype := (hrequests j hj msg hqueued).type
        refine ⟨hi, fun _ => ⟨j, hj, hqueued, hto⟩, fun hresp => ?_⟩
        rw [htype] at hresp
        cases hresp
      · refine ⟨hi, fun htype => ?_, fun hresp => ?_⟩
        · rw [hprop] at htype
          cases htype
        · rw [hprop] at hresp
          cases hresp
      · refine ⟨hi, fun htype => ?_, fun _ => hanswer⟩
        rw [htype] at hresp
        cases hresp

/-- The types of messages that are delivered. -/
theorem IsOwnTraffic.type_cases
    (hrequests : ∀ i ∈ members, ∀ m ∈ (c i).msgs, IsRequest members term i m) {i : UInt64}
    {u : Unspecified} {msg : Message} (h : IsOwnTraffic members c (i, .step u msg)) :
    msg.type = .msgVote ∨ msg.type = .msgProp ∨ isVoteResp msg.type = true := by
  obtain ⟨-, ⟨j, hj, hqueued, -⟩ | ⟨hprop, -⟩ | ⟨hresp, -⟩⟩ := h
  · exact .inl (hrequests j hj msg hqueued).type
  · exact .inr (.inl hprop)
  · exact .inr (.inr hresp)

/-- **One reaction.** -/
theorem Unheard.react {i : UInt64} {input : Input} (h : Unheard members term start c)
    (hzero : 0 ∉ members) (hacks : OnlyAcksOwn i (start i))
    (hC : IsOwnTraffic members c (i, input)) (hu : input.answers.AppendKeepsIndexes) :
    Unreplicated i (start i) ((c i).react input) ∧
      ∀ m ∈ ((c i).react input).msgs, IsRequest members term i m := by
  have hi : i ∈ members := (hC.votesHonestly h.requests).mem
  have hi0 : i ≠ 0 := fun heq => hzero (heq ▸ hi)
  obtain ⟨b, -, hb⟩ := h.ballot
  have hnode := (hb.asks i hi).node
  have hkept := h.unreplicated i hi
  -- a reaction that queues requests alone
  have hmsgs : ∀ {r : Raft}, Queues (IsRequest members term i) (c i) r →
      ∀ m ∈ r.msgs, IsRequest members term i m := by
    rintro r ⟨sent, heq, hsent⟩ m hm
    rw [heq] at hm
    rcases List.mem_append.mp hm with hm | hm
    · exact h.requests i hi m hm
    · exact hsent m hm
  cases input with
  | tick u =>
      exact ⟨hkept.tick hacks hnode hi hi0 hu (h.two_le hi), hmsgs (tick_queues hnode hi0 u)⟩
  | step u msg =>
      have htype := hC.type_cases h.requests
      have happ : msg.type ≠ .msgApp := by
        intro happ
        rw [happ] at htype
        rcases htype with htype | htype | htype <;> cases htype
      have hack : msg.type ≠ .msgAppResp := by
        intro hack
        rw [hack] at htype
        rcases htype with htype | htype | htype <;> cases htype
      refine ⟨hkept.step hacks hnode hi hi0 (h.two_le hi) hu happ hack, hmsgs ?_⟩
      obtain ⟨sent, heq, hsent⟩ := step_queues hnode hi0 u msg
      exact ⟨sent, heq, fun m hm => (hsent m hm).resolve_right fun hreply => happ hreply.1⟩

theorem Unheard.act (h : Unheard members term start c) (hzero : 0 ∉ members)
    (hacks : ∀ i ∈ members, OnlyAcksOwn i (start i)) (hC : IsOwnTraffic members c a)
    (hu : a.2.answers.AppendKeepsIndexes) : Unheard members term start (Cluster.act c a) := by
  obtain ⟨i, input⟩ := a
  have hvotes := hC.votesHonestly h.requests
  have hi : i ∈ members := hvotes.mem
  obtain ⟨hunreplicated, hrequests⟩ := h.react hzero (hacks i hi) hC hu
  constructor
  · obtain ⟨b, hsound, hb⟩ := h.ballot
    obtain ⟨b', hreaches, hb'⟩ := simulates_ballot hzero c (i, input) b hvotes hb
    exact ⟨b', hsound.reaches hreaches, hb'⟩
  · intro k hk
    exact Network.forall_act
      (Q := fun k (r : Raft) => k ∈ members → ∀ m ∈ r.msgs, IsRequest members term k m)
      h.requests (fun _ => hrequests) k hk
  · intro k hk
    exact Network.forall_act (Q := fun k (r : Raft) => k ∈ members → Unreplicated k (start k) r)
      h.unreplicated (fun _ => hunreplicated) k hk

theorem Assembled.unheard (h : Assembled members term start) : Unheard members term start start where
  ballot := ⟨.blank, Ballot.sound_blank, h.carriesOut⟩
  requests i hi := by simp [(h.joined i hi).msgs]
  unreplicated i hi := by
    refine ⟨fun _ _ => rfl, rfl, fun _ => rfl, fun hfunc => ?_⟩
    rw [(h.joined i hi).stepFunc] at hfunc
    cases hfunc

/-- **Nothing is replicated.** Over every run of its own traffic, all that ever travels in a
cluster is requests for votes. A member that has not led has the log it started with; whoever
has led, no member has committed anything, and none has heard of the progress of another. -/
theorem replicates_nothing (h : Assembled members term start)
    (hacks : ∀ i ∈ members, OnlyAcksOwn i (start i)) {run : List Action}
    (hrun : machine.Along (IsOwnTraffic members) start run)
    (hkeeps : ∀ a ∈ run, a.2.answers.AppendKeepsIndexes) :
    ∀ i ∈ members,
      (∀ m ∈ (start.after run i).msgs, IsRequest members term i m) ∧
      (start.after run i).raftlog.committed = (start i).raftlog.committed ∧
      (∀ k : UInt64, k ≠ i → (start.after run i).prs[k]? = (start i).prs[k]?) ∧
      (¬ (start.after run).HasLed i → (start.after run i).raftlog = (start i).raftlog) := by
  have hend : Unheard members term start (start.after run) :=
    Machine.foldl_invariant (fun c a hC hc => hc.act h.zero_notMem hacks hC.1 hC.2)
      (hrun.and (Machine.along_of_forall start hkeeps)) h.unheard
  intro i hi
  obtain ⟨hothers, hcommitted, hlog, -⟩ := hend.unreplicated i hi
  refine ⟨hend.requests i hi, hcommitted, hothers, fun hnever => hlog fun old hold => ?_⟩
  exact hnever ⟨old, hold⟩

/-- Once it is leader, node 1 takes a proposal. -/
def firstProposal : List Action :=
  firstElection ++ [(1, .step .filledIn { type := .msgProp, from_ := 1, entries := [{}] })]

theorem firstProposal_answers : ∀ a ∈ firstProposal, a.2.answers = .filledIn := by
  intro a ha
  rcases List.mem_append.mp ha with ha | ha
  · obtain ⟨v, -, ha⟩ := List.mem_flatMap.mp ha
    rcases List.mem_append.mp ha with ha | ha
    · rw [List.eq_of_mem_replicate ha]
      rfl
    · rcases List.mem_pair.mp ha with rfl | rfl <;> rfl
  · rw [List.mem_singleton.mp ha]
    rfl

theorem replicates_nothing_five :
    ((ofMembers [1, 2, 3, 4, 5] 1).after firstProposal 1).raftlog.lastIndex = 1 ∧
      ((ofMembers [1, 2, 3, 4, 5] 1).after firstProposal 1).raftlog.committed = 0 ∧
      ∀ m ∈ ((ofMembers [1, 2, 3, 4, 5] 1).after firstProposal 1).msgs,
        IsRequest [1, 2, 3, 4, 5].toFinset 1 1 m := by
  have hstart : Assembled [1, 2, 3, 4, 5].toFinset 1 (ofMembers [1, 2, 3, 4, 5] 1) :=
    assembled_ofMembers (by decide) 1
  have hrun : machine.Along (IsOwnTraffic [1, 2, 3, 4, 5].toFinset) (ofMembers [1, 2, 3, 4, 5] 1)
      firstProposal := by decide +kernel
  obtain ⟨hrequests, hcommitted, -⟩ := replicates_nothing hstart
    (fun i _ => ofMembers_onlyAcksOwn (by decide) 1 i) hrun
    (fun a ha => (firstProposal_answers a ha).symm ▸ RaftLog.filledIn_appendKeepsIndexes)
    1 (by decide)
  exact ⟨by decide +kernel, hcommitted, hrequests⟩

/-! ## A cluster left to itself -/

/-- The traffic of the cluster as it is, without the answers that are never sent. -/
def IsUnanswered (members : Finset UInt64) (c : Cluster) : Action → Prop
  | (i, .tick _) => i ∈ members
  | (i, .step _ msg) =>
    i ∈ members ∧ (InFlight members c i msg ∨ (msg.type = .msgProp ∧ msg.from_ = i))

instance (members : Finset UInt64) (c : Cluster) : (a : Action) → Decidable (IsUnanswered members c a)
  | (i, .tick _) => inferInstanceAs (Decidable (i ∈ members))
  | (_, .step ..) => inferInstanceAs (Decidable (_ ∧ (_ ∨ _)))

theorem IsUnanswered.isOwnTraffic (h : IsUnanswered members c a) : IsOwnTraffic members c a := by
  obtain ⟨i, input⟩ := a
  cases input with
  | tick u => exact h
  | step u msg => exact ⟨h.1, h.2.imp_right .inl⟩

/-- A follower, and never anything else to the outside. -/
structure NeverLed (r : Raft) : Prop where
  state : r.state = .stateFollower
  history : ∀ old, .becomeLeader old ∉ r.history

theorem NeverLed.of_noElection {r r' : Raft} (h : NeverLed r) (hquiet : NoElection r r') :
    NeverLed r' where
  state := by
    rcases hquiet.role with ⟨-, hsame⟩ | ⟨-, hfollower⟩
    · rw [hsame, h.state]
    · exact hfollower
  history old hold := by
    obtain ⟨es, heq, hes⟩ := hquiet.history
    rw [heq] at hold
    rcases List.mem_append.mp hold with hold | hold
    · exact h.history old hold
    · have hfalse := hes _ hold
      cases hfalse

theorem NeverLed.step {r : Raft} {u : Unspecified} {msg : Message} (h : NeverLed r)
    (hresp : isVoteResp msg.type ≠ true) : NeverLed (r.step u msg).2 := by
  cases step_cases u r msg with
  | campaign _ hsent =>
      have hcandidate : NeverLed (r.becomeCandidate u) := by
        refine ⟨rfl, fun old hold => ?_⟩
        rcases List.mem_append.mp hold with hold | hold
        · exact h.history old hold
        · cases List.mem_singleton.mp hold
      exact hcandidate.of_noElection hsent.noElection
  | grant _ _ _ heq =>
      rw [heq]
      refine ⟨h.state, fun old hold => ?_⟩
      rcases List.mem_append.mp hold with hold | hold
      · exact h.history old hold
      · cases List.mem_singleton.mp hold
  | voteResp htype => exact absurd htype hresp
  | quiet hquiet => exact h.of_noElection hquiet

/-- Nothing that is delivered answers a request. -/
theorem NeverLed.react {i : UInt64} {input : Input} (h : NeverLed (c i))
    (hrequests : ∀ i ∈ members, ∀ m ∈ (c i).msgs, IsRequest members term i m)
    (hC : IsUnanswered members c (i, input)) : NeverLed ((c i).react input) := by
  cases input with
  | tick u =>
      exact tick_preserves (Q := NeverLed) (fun hquiet hr => hr.of_noElection hquiet)
        (fun htick hr => hr.step (not_isVoteResp_of_isTickMsg htick)) h
  | step u msg =>
      apply h.step
      obtain ⟨-, ⟨j, hj, hqueued, -⟩ | ⟨hprop, -⟩⟩ := hC
      · rw [(hrequests j hj msg hqueued).type]
        decide
      · rw [hprop]
        decide

/-- **A cluster left to itself has no leader.** With nothing delivered but what its members
send and what clients propose, every member of every cluster stays a follower for ever, with
the log it started with. -/
theorem left_to_itself (h : Assembled members term start)
    (hacks : ∀ i ∈ members, OnlyAcksOwn i (start i)) {run : List Action}
    (hrun : machine.Along (IsUnanswered members) start run)
    (hkeeps : ∀ a ∈ run, a.2.answers.AppendKeepsIndexes) :
    ∀ i ∈ members, (start.after run i).state = .stateFollower ∧
      ¬ (start.after run).HasLed i ∧ (start.after run i).raftlog = (start i).raftlog := by
  have hstart : ∀ i ∈ members, NeverLed (start i) := by
    intro i hi
    exact ⟨(h.joined i hi).state, by simp [(h.joined i hi).history]⟩
  obtain ⟨hunheard, hnever⟩ : Unheard members term start (start.after run) ∧
      ∀ i ∈ members, NeverLed (start.after run i) := by
    refine Machine.foldl_invariant
      (Q := fun c => Unheard members term start c ∧ ∀ i ∈ members, NeverLed (c i)) ?_
      (hrun.and (Machine.along_of_forall start hkeeps)) ⟨h.unheard, hstart⟩
    rintro c a ⟨hC, hu⟩ ⟨hunheard, hnever⟩
    refine ⟨hunheard.act h.zero_notMem hacks hC.isOwnTraffic hu, fun k hk => ?_⟩
    exact Network.forall_act (Q := fun k (r : Raft) => k ∈ members → NeverLed r) hnever
      (fun hi => (hnever a.1 hi).react hunheard.requests hC) k hk
  intro i hi
  have hled : ¬ (start.after run).HasLed i := fun ⟨old, hold⟩ => (hnever i hi).history old hold
  refine ⟨(hnever i hi).state, hled, (hunheard.unreplicated i hi).log fun old hold => ?_⟩
  exact hled ⟨old, hold⟩

/-- Node 1 campaigns, and the two others grant it their votes. -/
def grantedCampaign : List Action :=
  List.replicate 10 (1, .tick .filledIn) ++
    [(2, .step .filledIn { type := .msgVote, to_ := 2, from_ := 1, term := 1 }),
      (3, .step .filledIn { type := .msgVote, to_ := 3, from_ := 1, term := 1 })]

theorem left_to_itself_three :
    ((ofMembers [1, 2, 3] 1).after grantedCampaign).Granted 2 1 ∧
      ((ofMembers [1, 2, 3] 1).after grantedCampaign).Granted 3 1 ∧
      ((ofMembers [1, 2, 3] 1).after grantedCampaign 1).state = .stateFollower := by
  have hstart : Assembled [1, 2, 3].toFinset 1 (ofMembers [1, 2, 3] 1) :=
    assembled_ofMembers (by decide) 1
  have hrun : machine.Along (IsUnanswered [1, 2, 3].toFinset) (ofMembers [1, 2, 3] 1)
      grantedCampaign := by decide +kernel
  refine ⟨by decide +kernel, by decide +kernel, ?_⟩
  apply (left_to_itself hstart (fun i _ => ofMembers_onlyAcksOwn (by decide) 1 i) hrun
    ?_ 1 (by decide)).1
  intro a ha
  rcases List.mem_append.mp ha with ha | ha
  · rw [List.eq_of_mem_replicate ha]
    exact RaftLog.filledIn_appendKeepsIndexes
  · rcases List.mem_pair.mp ha with rfl | rfl <;> exact RaftLog.filledIn_appendKeepsIndexes

end Cluster

end Anraft
