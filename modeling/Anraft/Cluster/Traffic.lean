import Anraft.Base.Network
import Anraft.Membership.Broadcasts
import Anraft.Election.OneVote
import Anraft.Timers.Effects

/-!
# A cluster and its traffic

Nodes with the same voting members, each under `Step` and `Tick`. What a node has queued
stays in its queue, so a message may reach the node it is addressed to late, more than
once, in any order, or never.

With a nonzero id a node queues requests for votes when it campaigns and answers when it
is sent a `MsgApp`; both broadcasts of a leader pass every member by.
-/

namespace Anraft

namespace Raft

variable {u : Unspecified} {r r' : Raft} {msg : Message} {members : Finset UInt64} {term i : UInt64}

/-! ## One node -/

/-- Node `i` among the voting members, in a term it will not leave. -/
structure IsNode (members : Finset UInt64) (term i : UInt64) (r : Raft) : Prop where
  id : r.id = i
  term : r.term = term
  mem_prs : ∀ k, k ∈ r.prs ↔ k ∈ members

theorem IsNode.of_sameConfig (h : IsNode members term i r) (hsame : SameConfig r r') :
    IsNode members term i r' where
  id := hsame.id.trans h.id
  term := hsame.term.trans h.term
  mem_prs k := (hsame.mem_prs k).trans (h.mem_prs k)

theorem IsNode.size_prs (h : IsNode members term i r) : r.prs.size = members.card := by
  have hcount : r.prs.toList.countP (fun _ => true) = members.card := by
    apply TreeMap.countP_toList_eq_card
    intro k
    rw [← h.mem_prs k, Std.TreeMap.mem_iff_isSome_getElem?, Option.isSome_iff_exists]
    simp
  rw [← hcount, List.countP_true, Std.TreeMap.length_toList]

theorem IsNode.quorum (h : IsNode members term i r) : r.quorum = members.card / 2 + 1 := by
  unfold Raft.quorum
  rw [h.size_prs]

/-- A request of node `i` for the vote of another member. It does not say how far the log of
the node goes. -/
structure IsRequest (members : Finset UInt64) (term i : UInt64) (m : Message) : Prop where
  type : m.type = .msgVote
  from_ : m.from_ = i
  term : m.term = term
  index : m.index = 0
  to_ : m.to_ ∈ members ∧ m.to_ ≠ i

/-- What a reaction to `msg` queues. -/
def IsQueuedFor (members : Finset UInt64) (term i : UInt64) (msg m : Message) : Prop :=
  IsRequest members term i m ∨ (msg.type = .msgApp ∧ m.type = .msgAppResp)

theorem campaign_queues (h : IsNode members term i r)
    (hsent : ∀ m, IsRequest members term i m → P m) :
    Queues P r (r.campaign u .campaignElection) := by
  refine ⟨_, campaign_msgs nofun, fun m hm => hsent m ?_⟩
  unfold campaignRequests at hm
  split at hm
  · exact absurd hm List.not_mem_nil
  obtain ⟨⟨k, p⟩, hmem, rfl⟩ := List.mem_map.mp hm
  obtain ⟨hmem, hne⟩ := List.mem_filter.mp hmem
  refine ⟨rfl, h.id, h.term, rfl, ?_⟩
  refine ⟨(h.mem_prs k).mp (TreeMap.mem_iff_exists_mem_toList.mpr ⟨p, hmem⟩), ?_⟩
  rw [← h.id]
  exact of_decide_eq_true hne

/-- The test of the broadcast is an assignment of the node's own id. -/
theorem bcastAppend_of_id_ne_zero (hid : r.id ≠ 0) (u : Unspecified) : r.bcastAppend u = r :=
  forEachProgress_eq_self fun _ _ => if_pos hid

/-- Nothing is queued as long as the id is not zero. -/
def StaysSilent (r r' : Raft) : Prop :=
  r'.id = r.id ∧ (r.id ≠ 0 → r'.msgs = r.msgs)

theorem staysSilent_keptByReplication (u : Unspecified) : KeptByReplication u StaysSilent where
  refl _ := ⟨rfl, fun _ => rfl⟩
  trans h h' := ⟨h'.1.trans h.1, fun hid => (h'.2 (h.1.symm ▸ hid)).trans (h.2 hid)⟩
  getProgress r id :=
    ⟨(getProgress_sendsOnly r id).noElection.id, fun _ => getProgress_msgs r id⟩
  modifyProgress r ptr f :=
    ⟨(modifyProgress_noElection r ptr f).id, fun _ => modifyProgress_msgs r ptr f⟩
  maybeCommit _ := ⟨rfl, fun _ => rfl⟩
  bcastAppend r :=
    ⟨(bcastAppend_sendsOnly u r).noElection.id, fun hid => by rw [bcastAppend_of_id_ne_zero hid]⟩

theorem stepLeader_staysSilent (u : Unspecified) (r : Raft) (msg : Message) :
    StaysSilent r (r.stepLeader u msg).2 :=
  (staysSilent_keptByReplication u).stepLeader (fun _ => ⟨rfl, fun _ => rfl⟩)
    ((staysSilent_keptByReplication u).appendEntry fun _ _ => ⟨rfl, fun _ => rfl⟩) r msg

theorem stepCandidate_msgs (hid : r.id ≠ 0) (u : Unspecified) (msg : Message) :
    (r.stepCandidate u msg).2.msgs = r.msgs := by
  by_cases hresp : isVoteResp msg.type = true
  · rw [stepCandidate_of_voteResp hresp]
    split
    · split
      · rfl
      · rw [bcastAppend_of_id_ne_zero (r := (r.polled msg).becomeLeader u) hid]
        rfl
    · rfl
  · rw [stepCandidate_of_not_voteResp hresp]

theorem stepFollower_queues (hsent : msg.type = .msgApp → ∀ m : Message, m.type = .msgAppResp → P m)
    (u : Unspecified) (r : Raft) : Queues P r (r.stepFollower u msg).2 := by
  unfold stepFollower
  split
  · next htype =>
      have hmsgs := handleAppendEntries_msgs u { r with electionElapsed := 0, lead := msg.from_ } msg
      rw [List.append_assoc] at hmsgs
      refine ⟨_, hmsgs, fun m hm => hsent htype m ?_⟩
      rcases List.mem_append.mp hm with hm | hm
      · split at hm
        · rw [List.mem_singleton.mp hm]
          rfl
        · exact absurd hm List.not_mem_nil
      · rw [List.mem_singleton.mp hm]
        split <;> rfl
  · exact .refl r

/-- **What one message makes a node queue.** -/
theorem step_queues (h : IsNode members term i r) (hi : i ≠ 0) (u : Unspecified) (msg : Message) :
    Queues (IsQueuedFor members term i msg) r (r.step u msg).2 := by
  have hid : r.id ≠ 0 := h.id.symm ▸ hi
  apply step_elim u r msg
  · intro _
    exact .refl r
  · intro _ _ _
    exact campaign_queues h fun _ => .inl
  · intro _ _ _
    exact .of_eq rfl
  · intro _ _
    exact stepFollower_queues (fun htype _ hm => .inr ⟨htype, hm⟩) u r
  · intro _ _
    exact .of_eq (stepCandidate_msgs hid u msg)
  · intro _ _
    exact .of_eq ((stepLeader_staysSilent u r msg).2 hid)

/-- The clock makes a node queue requests and nothing else. -/
theorem tick_queues (h : IsNode members term i r) (hi : i ≠ 0) (u : Unspecified) :
    Queues (IsRequest members term i) r (r.tick u) := by
  have hkept : IsNode members term i (r.tick u) ∧ Queues (IsRequest members term i) r (r.tick u) := by
    refine tick_preserves_of_counts (Q := fun r' => IsNode members term i r' ∧
      Queues (IsRequest members term i) r r') ?_ ?_ ⟨h, .refl r⟩
    · rintro r₁ r₂ hcounts ⟨hnode, hqueues⟩
      refine ⟨hnode.of_sameConfig hcounts.noElection.toSameConfig, ?_⟩
      obtain ⟨_, _, _, rfl, -⟩ := hcounts
      exact hqueues.trans (.of_eq rfl)
    · rintro r₁ m hm ⟨hnode, hqueues⟩
      refine ⟨hnode.of_sameConfig (step_sameConfig u r₁ m), hqueues.trans ?_⟩
      obtain ⟨sent, heq, hsent⟩ := step_queues hnode hi u m
      refine ⟨sent, heq, fun m' hm' => (hsent m' hm').resolve_right ?_⟩
      rintro ⟨htype, -⟩
      rw [htype] at hm
      cases hm
  exact hkept.2

end Raft

/-! ## The cluster -/

/-- The nodes by their ids. -/
abbrev Cluster : Type := UInt64 → Raft

namespace Cluster

open Raft

/-- A node and what it reacts to. -/
abbrev Action : Type := UInt64 × Input

/-- The cluster under the reactions of its nodes. -/
abbrev machine : Machine Cluster Action := Network.machine UInt64 react

/-- The cluster after one action. -/
abbrev act (c : Cluster) (a : Action) : Cluster := Network.act react c a

@[simp] theorem act_self (c : Cluster) (i : UInt64) (input : Input) :
    c.act (i, input) i = (c i).react input := Network.act_self

@[simp] theorem act_of_ne {i k : UInt64} (h : k ≠ i) (c : Cluster) (input : Input) :
    c.act (i, input) k = c k := Network.act_of_ne h

/-- The cluster after a run. -/
def after (c : Cluster) (run : List Action) : Cluster := run.foldl act c

/-- A node that has joined and done nothing yet. -/
structure Joined (members : Finset UInt64) (term i : UInt64) (r : Raft) : Prop
    extends IsNode members term i r where
  vote : r.vote = 0
  votes : r.votes = ∅
  state : r.state = .stateFollower
  stepFunc : r.stepFunc = .stepFollower
  msgs : r.msgs = []
  history : r.history = []

/-- A cluster that has just been put together. Zero is nobody's id. -/
structure Assembled (members : Finset UInt64) (term : UInt64) (c : Cluster) : Prop where
  zero_notMem : 0 ∉ members
  joined : ∀ i ∈ members, Joined members term i (c i)

/-- Members that have just been started in the same term. -/
def ofMembers (ids : List UInt64) (term : UInt64) : Cluster :=
  fun i => { started i ids with term := term }

theorem assembled_ofMembers {ids : List UInt64} (hzero : 0 ∉ ids) (term : UInt64) :
    Assembled ids.toFinset term (ofMembers ids term) where
  zero_notMem h := hzero (List.mem_toFinset.mp h)
  joined i _ := by
    refine ⟨⟨rfl, rfl, fun k => ?_⟩, rfl, rfl, rfl, rfl, rfl, rfl⟩
    show k ∈ Std.TreeMap.ofList _ ↔ _
    rw [Std.TreeMap.mem_ofList, List.map_map, List.contains_iff_mem, List.mem_toFinset]
    exact iff_of_eq (congrArg (k ∈ ·) (List.map_id ids))

/-- `msg` waits in the queue of a member for node `i`. -/
def InFlight (members : Finset UInt64) (c : Cluster) (i : UInt64) (msg : Message) : Prop :=
  ∃ j ∈ members, msg ∈ (c j).msgs ∧ msg.to_ = i

instance (members : Finset UInt64) (c : Cluster) (i : UInt64) (msg : Message) :
    Decidable (InFlight members c i msg) :=
  inferInstanceAs (Decidable (∃ j ∈ members, _))

/-- Node `v` has cast a vote for node `i`. -/
def Granted (c : Cluster) (v i : UInt64) : Prop := ∃ m ∈ grants (c v).history, m.from_ = i

instance (c : Cluster) (v i : UInt64) : Decidable (c.Granted v i) :=
  inferInstanceAs (Decidable (∃ m ∈ grants (c v).history, m.from_ = i))

/-- Node `i` has been leader. -/
def HasLed (c : Cluster) (i : UInt64) : Prop := ∃ old, .becomeLeader old ∈ (c i).history

/-- An answer that reports a vote is from a member that has cast it. -/
def IsHonest (members : Finset UInt64) (c : Cluster) (i : UInt64) (msg : Message) : Prop :=
  msg.reject = false → msg.from_ ∈ members ∧ c.Granted msg.from_ i

instance (members : Finset UInt64) (c : Cluster) (i : UInt64) (msg : Message) :
    Decidable (IsHonest members c i msg) :=
  inferInstanceAs (Decidable (_ → _))

end Cluster

end Anraft
