import Anraft.Base.Simulation
import Anraft.Log.CommitProgress
import Anraft.Membership.Lookups
import Anraft.Replication.CommitRule
import Anraft.Timers.Effects

/-!
# Where a commit comes from

Whatever a node has committed, somebody has vouched for it: a leader that announced it in
a `MsgApp`, or a quorum of the members that acknowledged it, the node itself included
without having said so. Nothing else in the node moves the commit index.
-/

namespace Anraft

open IteratorRange

namespace Raft

variable {u : Unspecified} {r r' : Raft} {msg : Message} {acked : UInt64 → UInt64 → Prop}
  {announced : UInt64 → Prop}

/-! ## The quorum behind a commit index -/

/-- Without the node itself, a quorum of members has acknowledged index `n`. -/
def QuorumAcked (acked : UInt64 → UInt64 → Prop) (r : Raft) (n : UInt64) : Prop :=
  ∃ S : Finset UInt64, r.id ∉ S ∧ r.quorum ≤ S.card + 1 ∧ ∀ k ∈ S, k ∈ r.prs ∧ acked k n

/-- The other members have acknowledged their matches, and the commit index was announced or
acknowledged. -/
structure CommitBacked (acked : UInt64 → UInt64 → Prop) (announced : UInt64 → Prop) (r : Raft) :
    Prop where
  matches_ : ∀ (k : UInt64) (p : Progress), k ≠ r.id → r.prs[k]? = some p → acked k p.match_
  committed : announced r.raftlog.committed ∨ QuorumAcked acked r r.raftlog.committed

/-- The members whose matches reach `n`. -/
theorem exists_card_eq_matching (r : Raft) (n : UInt64) :
    ∃ S : Finset UInt64, S.card = r.matching n ∧
      ∀ k ∈ S, ∃ p, r.prs[k]? = some p ∧ n ≤ p.match_ := by
  classical
  let S : Finset UInt64 := (r.prs.toList.map Prod.fst).toFinset.filter
    fun k => ∃ p, r.prs[k]? = some p ∧ n ≤ p.match_
  refine ⟨S, ?_, fun k hk => (Finset.mem_filter.mp hk).2⟩
  apply Eq.symm
  apply TreeMap.countP_toList_eq_card
  intro k
  simp only [S, Finset.mem_filter, List.mem_toFinset, List.mem_map, Prod.exists, exists_and_right,
    exists_eq_right, decide_eq_true_eq]
  apply and_iff_right_of_imp
  rintro ⟨p, hp, -⟩
  exact ⟨p, Std.TreeMap.mem_toList_iff_getElem?_eq_some.mpr hp⟩

/-- Matches that a quorum reaches are acknowledged by a quorum. -/
theorem CommitBacked.quorumAcked (h : CommitBacked acked announced r)
    (hdown : ∀ k m n, m ≤ n → acked k n → acked k m) {n : UInt64}
    (hn : n ∈ r.majorityMatched) : QuorumAcked acked r n := by
  obtain ⟨S, hcard, hS⟩ := exists_card_eq_matching r n
  have hquorum : r.quorum ≤ S.card := hcard ▸ hn
  refine ⟨S.erase r.id, Finset.notMem_erase _ _, ?_, fun k hk => ?_⟩
  · have herase : S.card - 1 ≤ (S.erase r.id).card := Finset.pred_card_le_card_erase
    exact hquorum.trans (Nat.sub_le_iff_le_add.mp herase)
  · obtain ⟨hne, hmem⟩ := Finset.mem_erase.mp hk
    obtain ⟨p, hp, hle⟩ := hS k hmem
    refine ⟨Std.TreeMap.mem_iff_isSome_getElem?.mpr (by rw [hp]; rfl), ?_⟩
    exact hdown k n p.match_ hle (h.matches_ k p hne hp)

namespace CommitBacked

/-- Nothing but the progress of the members and the commit index matters. -/
theorem of_eq (h : CommitBacked acked announced r) (hid : r'.id = r.id) (hprs : r'.prs = r.prs)
    (hcommitted : r'.raftlog.committed = r.raftlog.committed) :
    CommitBacked acked announced r' where
  matches_ k p hk hp := h.matches_ k p (hid ▸ hk) (hprs ▸ hp)
  committed := by
    unfold QuorumAcked quorum
    rw [hid, hprs, hcommitted]
    exact h.committed

theorem of_sendsOnly (h : CommitBacked acked announced r) (hsent : SendsOnly r r') :
    CommitBacked acked announced r' := by
  obtain ⟨_, _, rfl⟩ := hsent
  exact h.of_eq rfl rfl rfl

/-- The commit rule. -/
theorem maybeCommit (h : CommitBacked acked announced r)
    (hdown : ∀ k m n, m ≤ n → acked k n → acked k m) (hprs : r.prs.isEmpty = false)
    (u : Unspecified) : CommitBacked acked announced (r.maybeCommit u).2 := by
  obtain ⟨q, hq, hgreatest⟩ := exists_quorumIndex hprs
  have hlog : (r.maybeCommit u).2 =
      { r with raftlog := (r.raftlog.maybeCommit u.toUnwritten q r.term).2 } := by
    unfold Raft.maybeCommit
    simp only [hq, Option.getD_some]
  rw [hlog, RaftLog.maybeCommit_eq]
  split
  · exact ⟨h.matches_, .inr (h.quorumAcked hdown hgreatest.1)⟩
  · exact h

/-- The progress of a member is raised to an index it has acknowledged; that of the node
itself may be anything. -/
theorem modify (h : CommitBacked acked announced r) {id n : UInt64} (hacked : id ≠ r.id → acked id n) :
    CommitBacked acked announced
      { r with prs := r.prs.modify id fun p => (p.maybeUpdate n).2 } where
  matches_ k p hk hp := by
    have hmodified : (r.prs.modify id fun p => (p.maybeUpdate n).2)[k]? = some p := hp
    rw [Std.TreeMap.getElem?_modify] at hmodified
    split at hmodified
    · next hcmp =>
        obtain rfl := Std.LawfulEqCmp.compare_eq_iff_eq.mp hcmp
        obtain ⟨q, hq, rfl⟩ := Option.map_eq_some_iff.mp hmodified
        rw [Progress.maybeUpdate_match]
        rcases max_choice q.match_ n with heq | heq
        · rw [heq]
          exact h.matches_ id q hk hq
        · rw [heq]
          exact hacked hk
    · exact h.matches_ k p hk hmodified
  committed := by
    apply h.committed.imp_right
    rintro ⟨S, hself, hquorum, hS⟩
    refine ⟨S, hself, ?_, fun k hk => ?_⟩
    · unfold quorum at hquorum ⊢
      rwa [Std.TreeMap.size_modify]
    · exact ⟨Std.TreeMap.mem_modify.mpr (hS k hk).1, (hS k hk).2⟩

theorem raised (h : CommitBacked acked announced r) (hacked : acked msg.from_ msg.index) :
    CommitBacked acked announced (r.raised msg) := by
  unfold Raft.raised
  split
  · exact h.modify fun _ => hacked
  · exact h.of_eq rfl rfl rfl

end CommitBacked

/-! ## The role functions -/

theorem getProgress_eq (r : Raft) (id : UInt64) :
    ∃ learnerPrs, (r.getProgress id).2 = { r with learnerPrs := learnerPrs } := by
  unfold getProgress
  split <;> exact ⟨_, rfl⟩

/-- A message other than an acknowledgement is looked up and left at that. -/
theorem stepLeaderProgress_of_ne_ack (htype : msg.type ≠ .msgAppResp) (u : Unspecified) (r : Raft) :
    ∃ learnerPrs, (r.stepLeaderProgress u msg).2 = { r with learnerPrs := learnerPrs } := by
  obtain ⟨learnerPrs, heq⟩ := getProgress_eq r msg.from_
  refine ⟨learnerPrs, heq ▸ ?_⟩
  unfold stepLeaderProgress
  split
  · next hget => rw [hget]
  · next hget =>
      rw [hget]
      split
      · next hack => exact absurd hack htype
      · rfl

theorem stepLeader_of_rejected (htype : msg.type = .msgAppResp) (hreject : msg.reject = true)
    (u : Unspecified) (r : Raft) :
    ∃ learnerPrs, (r.stepLeader u msg).2 = { r with learnerPrs := learnerPrs } := by
  obtain ⟨learnerPrs, heq⟩ := getProgress_eq r msg.from_
  refine ⟨learnerPrs, heq ▸ ?_⟩
  simp only [stepLeader, stepLeaderProgress, htype, hreject, if_true]
  split <;> next hget => rw [hget]

theorem SameConfig.prs_isEmpty (h : SameConfig r r') : r'.prs.isEmpty = r.prs.isEmpty := by
  rw [Std.TreeMap.isEmpty_eq_size_eq_zero, Std.TreeMap.isEmpty_eq_size_eq_zero, h.size_prs]

theorem updateProgress_sameConfig (r : Raft) (id : UInt64) (f : Progress → Progress) :
    SameConfig r (r.updateProgress id f) := by
  apply updateProgress_rel (R := SameConfig) SameConfig.trans
  · intro r id
    exact (getProgress_sendsOnly r id).noElection.toSameConfig
  · intro r ptr f
    exact (modifyProgress_noElection r ptr f).toSameConfig

/-- What a message vouches for. -/
structure Vouches (acked : UInt64 → UInt64 → Prop) (announced : UInt64 → Prop) (msg : Message) :
    Prop where
  ack : msg.type = .msgAppResp → msg.reject = false → acked msg.from_ msg.index
  app : msg.type = .msgApp → announced msg.commit

namespace CommitBacked

/-- The node updates its own progress, which does not matter. -/
theorem updated_self (h : CommitBacked acked announced r) (n : UInt64) :
    CommitBacked acked announced (r.updateProgress r.id fun p => (p.maybeUpdate n).2) := by
  unfold updateProgress getProgress
  split
  · next hget =>
      split at hget <;> cases hget
  · next hget =>
      split at hget <;> cases hget
      · exact h.modify fun hne => absurd rfl hne
      · exact h.of_eq rfl rfl rfl

theorem appendEntry (h : CommitBacked acked announced r)
    (hdown : ∀ k m n, m ≤ n → acked k n → acked k m) (hprs : r.prs.isEmpty = false)
    (hu : u.AppendKeepsIndexes) (entries : List LogEntry) :
    CommitBacked acked announced (r.appendEntry u entries) := by
  obtain ⟨ents, heq⟩ := appendEntry_eq u r entries
  rw [heq]
  have happended : CommitBacked acked announced
      { r with raftlog := (u.appendRepeated r.raftlog ents).2 } :=
    h.of_eq rfl rfl (hu r.raftlog ents).1
  have hne := (updateProgress_sameConfig { r with raftlog := (u.appendRepeated r.raftlog ents).2 }
    r.id fun p => (p.maybeUpdate (u.appendRepeated r.raftlog ents).1).2).prs_isEmpty.trans hprs
  exact (happended.updated_self (u.appendRepeated r.raftlog ents).1).maybeCommit hdown hne u

theorem stepLeader (h : CommitBacked acked announced r)
    (hdown : ∀ k m n, m ≤ n → acked k n → acked k m) (hprs : r.prs.isEmpty = false)
    (hu : u.AppendKeepsIndexes) (hmsg : Vouches acked announced msg) :
    CommitBacked acked announced (r.stepLeader u msg).2 := by
  have hprogress : msg.type ≠ .msgAppResp → ∀ {r' : Raft}, CommitBacked acked announced r' →
      CommitBacked acked announced (r'.stepLeaderProgress u msg).2 := by
    intro hne r' h'
    obtain ⟨learnerPrs, heq⟩ := stepLeaderProgress_of_ne_ack hne u r'
    rw [heq]
    exact h'.of_eq rfl rfl rfl
  by_cases hack : msg.type = .msgAppResp
  · cases hreject : msg.reject with
    | true =>
        obtain ⟨learnerPrs, heq⟩ := stepLeader_of_rejected hack hreject u r
        rw [heq]
        exact h.of_eq rfl rfl rfl
    | false =>
        have hraised := h.raised (hmsg.ack hack hreject)
        have hne : (r.raised msg).prs.isEmpty = false := by
          unfold Raft.raised
          split
          · rw [← hprs]
            exact Std.TreeMap.isEmpty_modify
          · exact hprs
        have hcommit := hraised.maybeCommit hdown hne u
        rw [stepLeader_ack_eq hack hreject]
        split
        · exact hcommit.of_sendsOnly (bcastAppend_sendsOnly u _)
        · exact hcommit
  · unfold Raft.stepLeader
    split
    · apply hprogress hack
      split
      · exact h
      · exact h.of_eq rfl rfl rfl
    · split
      · exact h
      · split
        · exact h
        · apply hprogress hack
          exact (h.appendEntry hdown hprs hu msg.entries).of_sendsOnly (bcastAppend_sendsOnly u _)
    · exact hprogress hack h

theorem stepFollower (h : CommitBacked acked announced r)
    (hdown : ∀ m n, m ≤ n → announced n → announced m) (hmsg : Vouches acked announced msg)
    (u : Unspecified) : CommitBacked acked announced (r.stepFollower u msg).2 := by
  unfold Raft.stepFollower
  split
  · next htype =>
      obtain ⟨msgs, heq⟩ := handleAppendEntries_eq u
        { r with electionElapsed := 0, lead := msg.from_ } msg
      dsimp only
      rw [heq, RaftLog.maybeAppend_eq]
      split
      · refine ⟨h.matches_, ?_⟩
        rw [RaftLog.commitTo_committed]
        rcases max_choice r.raftlog.committed (min msg.commit (msg.index + size msg.entries))
          with hkept | hraised
        · exact hkept.symm ▸ h.committed
        · exact .inl (hraised.symm ▸ hdown _ _ (min_le_left _ _) (hmsg.app htype))
      · exact h.of_eq rfl rfl rfl
  · exact h

/-- **One message.** -/
theorem step (h : CommitBacked acked announced r)
    (hacked : ∀ k m n, m ≤ n → acked k n → acked k m)
    (hannounced : ∀ m n, m ≤ n → announced n → announced m) (hprs : r.prs.isEmpty = false)
    (hu : u.AppendKeepsIndexes) (hmsg : Vouches acked announced msg) :
    CommitBacked acked announced (r.step u msg).2 := by
  apply step_elim u r msg
  · intro _
    exact h
  · intro _ _ _
    obtain ⟨msgs, heq⟩ := campaign_eq_becomeCandidate u r
    rw [heq]
    exact h.of_eq rfl rfl rfl
  · intro _ _ _
    exact h.of_eq rfl rfl rfl
  · intro _ _
    exact h.stepFollower hannounced hmsg u
  · intro _ _
    by_cases hresp : isVoteResp msg.type = true
    · rw [stepCandidate_of_voteResp hresp]
      split
      · split
        · exact h.of_eq rfl rfl rfl
        · refine of_sendsOnly ?_ (bcastAppend_sendsOnly u _)
          exact h.of_eq rfl rfl rfl
      · exact h.of_eq rfl rfl rfl
    · rw [stepCandidate_of_not_voteResp hresp]
      exact h
  · intro _ _
    exact h.stepLeader hacked hprs hu hmsg

end CommitBacked

/-- The messages of the clock vouch for nothing. -/
theorem vouches_of_isTickMsg (h : isTickMsg msg.type) : Vouches acked announced msg where
  ack htype := by
    rw [htype] at h
    cases h
  app htype := by
    rw [htype] at h
    cases h

theorem CommitBacked.tick (h : CommitBacked acked announced r)
    (hacked : ∀ k m n, m ≤ n → acked k n → acked k m)
    (hannounced : ∀ m n, m ≤ n → announced n → announced m) (hprs : r.prs.isEmpty = false)
    (hu : u.AppendKeepsIndexes) : CommitBacked acked announced (r.tick u) := by
  have hkept : (r.tick u).prs.isEmpty = false ∧ CommitBacked acked announced (r.tick u) := by
    refine tick_preserves_of_counts
      (Q := fun r => r.prs.isEmpty = false ∧ CommitBacked acked announced r) ?_ ?_ ⟨hprs, h⟩
    · rintro r₁ r₂ hcounts ⟨hprs, h⟩
      obtain ⟨_, _, _, rfl, -⟩ := hcounts
      exact ⟨hprs, h.of_eq rfl rfl rfl⟩
    · rintro r₁ m hm ⟨hprs, h⟩
      refine ⟨(step_sameConfig u r₁ m).prs_isEmpty.trans hprs, ?_⟩
      exact h.step hacked hannounced hprs hu (vouches_of_isTickMsg hm)
  exact hkept.2

/-! ## Runs -/

/-- A message of the run acknowledges index `n` for node `k`. -/
def HeardAck (inputs : List Input) (k n : UInt64) : Prop :=
  ∃ u msg, Input.step u msg ∈ inputs ∧ msg.type = .msgAppResp ∧ msg.from_ = k ∧
    msg.reject = false ∧ n ≤ msg.index

/-- A `MsgApp` of the run announces index `n` as committed. -/
def HeardCommit (inputs : List Input) (n : UInt64) : Prop :=
  ∃ u msg, Input.step u msg ∈ inputs ∧ msg.type = .msgApp ∧ n ≤ msg.commit

/-- Node `k` has acknowledged index `n`, in the run or before it. -/
def KnownAck (start : Raft) (inputs : List Input) (k n : UInt64) : Prop :=
  n ≤ (start.prs.getD k {}).match_ ∨ HeardAck inputs k n

/-- **Where a commit comes from.** Over every run of `Step` and `Tick`, with whatever
messages, what a node has committed at the end it had committed at the start, or a `MsgApp`
of the run announced it, or enough other members to make a quorum with the node itself have
acknowledged it. -/
theorem commit_provenance (start : Raft) (inputs : List Input) (hprs : start.prs.isEmpty = false)
    (hkeeps : ∀ i ∈ inputs, i.answers.AppendKeepsIndexes) :
    (start.after inputs).raftlog.committed ≤ start.raftlog.committed ∨
      HeardCommit inputs (start.after inputs).raftlog.committed ∨
      ∃ S : Finset UInt64, start.id ∉ S ∧ start.quorum ≤ S.card + 1 ∧
        ∀ k ∈ S, k ∈ start.prs ∧ KnownAck start inputs k (start.after inputs).raftlog.committed := by
  let announced : UInt64 → Prop := fun n => n ≤ start.raftlog.committed ∨ HeardCommit inputs n
  have hacked : ∀ k m n, m ≤ n → KnownAck start inputs k n → KnownAck start inputs k m := by
    rintro k m n hle (hknown | ⟨u, msg, hmem, htype, hfrom, hreject, hindex⟩)
    · exact .inl (hle.trans hknown)
    · exact .inr ⟨u, msg, hmem, htype, hfrom, hreject, hle.trans hindex⟩
  have hannounced : ∀ m n, m ≤ n → announced n → announced m := by
    rintro m n hle (hknown | ⟨u, msg, hmem, htype, hcommit⟩)
    · exact .inl (hle.trans hknown)
    · exact .inr ⟨u, msg, hmem, htype, hle.trans hcommit⟩
  have hstart : CommitBacked (KnownAck start inputs) announced start := by
    refine ⟨fun k p _ hp => .inl ?_, .inl (.inl le_rfl)⟩
    rw [Std.TreeMap.getD_eq_getD_getElem?, hp]
    exact le_rfl
  have hend : (start.after inputs).prs.isEmpty = false ∧
      CommitBacked (KnownAck start inputs) announced (start.after inputs) := by
    refine Machine.foldl_invariant (C := fun _ i => i ∈ inputs)
      (Q := fun r => r.prs.isEmpty = false ∧ CommitBacked (KnownAck start inputs) announced r) ?_
      (Machine.along_of_forall start fun i hi => hi) ⟨hprs, hstart⟩
    rintro r i hi ⟨hprs, hr⟩
    refine ⟨(react_sameConfig r i).prs_isEmpty.trans hprs, ?_⟩
    cases i with
    | step u msg =>
        apply hr.step hacked hannounced hprs (hkeeps _ hi)
        constructor
        · intro htype hreject
          exact .inr ⟨u, msg, hi, htype, rfl, hreject, le_rfl⟩
        · intro htype
          exact .inr ⟨u, msg, hi, htype, le_rfl⟩
    | tick u => exact hr.tick hacked hannounced hprs (hkeeps _ hi)
  have hconfig := after_sameConfig start inputs
  rcases hend.2.committed with (hold | hheard) | ⟨S, hself, hquorum, hS⟩
  · exact .inl hold
  · exact .inr (.inl hheard)
  · refine .inr (.inr ⟨S, hconfig.id ▸ hself, hconfig.quorum ▸ hquorum, fun k hk => ?_⟩)
    exact ⟨(hconfig.mem_prs k).mp (hS k hk).1, (hS k hk).2⟩

/-- Node 3 acknowledges index 2, which is committed, and nobody else has. -/
theorem commit_provenance_of_three :
    let inputs : List Input := [.step .filledIn { type := .msgAppResp, from_ := 3, index := 2 }]
    (leaderOfThree.after inputs).raftlog.committed = 2 ∧
      ∃ S : Finset UInt64, leaderOfThree.quorum ≤ S.card + 1 ∧ S = {3} ∧
        ∀ k ∈ S, k ∈ leaderOfThree.prs ∧ KnownAck leaderOfThree inputs k 2 := by
  intro inputs
  have hcommitted : (leaderOfThree.after inputs).raftlog.committed = 2 := by decide
  have hprovenance := commit_provenance leaderOfThree inputs (by decide)
    fun i hi => List.mem_singleton.mp hi ▸ RaftLog.filledIn_appendKeepsIndexes
  rw [hcommitted] at hprovenance
  refine ⟨hcommitted, ?_⟩
  rcases hprovenance with hold | ⟨u, msg, hmem, htype, -⟩ | ⟨S, hself, hquorum, hS⟩
  · exact absurd hold (by decide)
  · cases List.mem_singleton.mp hmem
    cases htype
  · have hthree : ∀ k ∈ S, k = 3 := by
      intro k hk
      obtain ⟨hmember, hknown | ⟨u, msg, hmem, -, hfrom, -⟩⟩ := hS k hk
      · -- before the run only the leader itself was known to have index 2
        have hleader : ∀ x ∈ leaderOfThree.prs.toList, 2 ≤ x.2.match_ → x.1 = 1 := by decide
        obtain ⟨p, hp⟩ := TreeMap.mem_iff_exists_mem_toList.mp hmember
        rw [Std.TreeMap.getD_eq_getD_getElem?, Std.TreeMap.mem_toList_iff_getElem?_eq_some.mp hp]
          at hknown
        obtain rfl : k = 1 := hleader (k, p) hp hknown
        exact absurd hk hself
      · cases List.mem_singleton.mp hmem
        exact hfrom.symm
    have hsome : S.Nonempty := by
      have htwo : leaderOfThree.quorum = 2 := by decide
      rw [← Finset.card_pos]
      omega
    exact ⟨S, hquorum, Finset.eq_singleton_iff_nonempty_unique_mem.mpr ⟨hsome, hthree⟩, hS⟩

end Raft

end Anraft
