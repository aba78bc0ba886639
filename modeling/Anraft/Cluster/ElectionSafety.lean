import Anraft.Base.Simulation
import Anraft.Cluster.Votes

/-!
# One leader

A cluster carries out one ballot: each reaction of a node is steps of it. So two nodes that
become leaders share a voter, and a voter has one vote.
-/

namespace Anraft

namespace Cluster

open Raft

variable {members : Finset UInt64} {term i : UInt64} {msg : Message}
  {b : Ballot UInt64} {own : Bool} {c : Cluster} {a : Action}

/-! ## The traffic that is admitted -/

/-- Members react; a request for a vote comes out of the queue of a member; an answer that
reports a vote is honest, and `Poll` does not count from above zero. Everything else may be
any message from anyone. -/
def VotesHonestly (members : Finset UInt64) (c : Cluster) : Action → Prop
  | (i, .tick _) => i ∈ members
  | (i, .step u msg) =>
    i ∈ members ∧ (msg.type = .msgVote → InFlight members c i msg) ∧
      (isVoteResp msg.type = true → u.grant ≤ 0 ∧ IsHonest members c i msg)

instance (members : Finset UInt64) (c : Cluster) : (a : Action) → Decidable (VotesHonestly members c a)
  | (i, .tick _) => inferInstanceAs (Decidable (i ∈ members))
  | (_, .step ..) => inferInstanceAs (Decidable (_ ∧ _ ∧ _))

theorem VotesHonestly.mem (h : VotesHonestly members c a) : a.1 ∈ members := by
  obtain ⟨i, input⟩ := a
  cases input with
  | step u msg => exact h.1
  | tick u => exact h

/-! ## The cluster carries out the ballot -/

structure CarriesOut (own : Bool) (members : Finset UInt64) (term : UInt64) (c : Cluster)
    (b : Ballot UInt64) : Prop where
  asks : ∀ i ∈ members, Asks members term i (c i)
  records : ∀ i ∈ members, Records own members b i (c i)

theorem Assembled.carriesOut (h : Assembled members term c) :
    CarriesOut own members term c .blank where
  asks i hi := ⟨(h.joined i hi).toIsNode, by simp [(h.joined i hi).msgs]⟩
  records i hi := (h.joined i hi).records

/-- Requests in flight are admissible. -/
theorem CarriesOut.request (h : CarriesOut own members term c b) (htype : msg.type = .msgVote)
    (hflight : InFlight members c i msg) :
    msg.term = term ∧ msg.index = 0 ∧ msg.from_ ∈ members ∧ msg.from_ ≠ i := by
  obtain ⟨j, hj, hqueued, hto⟩ := hflight
  have hrequest := (h.asks j hj).requests msg hqueued htype
  refine ⟨hrequest.term, hrequest.index, hrequest.from_ ▸ hj, ?_⟩
  rw [hrequest.from_, ← hto]
  exact hrequest.to_.2.symm

/-- Honest answers are admissible. -/
theorem CarriesOut.answer (h : CarriesOut own members term c b) (hhonest : IsHonest members c i msg)
    (hreject : msg.reject = false) :
    b.support msg.from_ = some i ∨ (own = true ∧ msg.from_ = i) := by
  obtain ⟨hfrom, m, hm, rfl⟩ := hhonest hreject
  exact ((h.records _ hfrom).cast m hm).imp_right fun hown => ⟨hown.1, hown.2.symm⟩

/-- **One reaction.** -/
theorem follows_react {input : Input} (hzero : 0 ∉ members) (h : CarriesOut own members term c b)
    (hC : VotesHonestly members c (i, input)) : Follows own members b i ((c i).react input) := by
  have hi : i ∈ members := hC.mem
  have hnode := (h.asks i hi).node
  have hrecords := h.records i hi
  cases input with
  | tick u => exact (hrecords.tick hnode.id u).follows
  | step u msg =>
      obtain ⟨-, hrequest, hanswer⟩ := hC
      apply hrecords.follows_step hnode hzero hi
      · refine ⟨fun htype => ?_, fun hresp hreject => h.answer (hanswer hresp).2 hreject⟩
        obtain ⟨hterm, hindex, hfrom⟩ := h.request htype (hrequest htype)
        exact ⟨hterm, hindex, .inl hfrom⟩
      · exact fun hresp => (hanswer hresp).1

/-- **Refinement.** Every action of the cluster is steps of the ballot. -/
theorem simulates_ballot (hzero : 0 ∉ members) :
    Machine.Simulates act (VotesHonestly members)
      (Ballot.Step members (needed own members)) (CarriesOut own members term) := by
  rintro c ⟨i, input⟩ b hC h
  have hi : i ∈ members := hC.mem
  have hi0 : i ≠ 0 := fun hzero' => hzero (hzero' ▸ hi)
  obtain ⟨b', hreaches, hrecords, hothers⟩ := follows_react hzero h hC
  refine ⟨b', hreaches, ?_, ?_⟩
  · apply Network.forall_act (Q := fun k r => k ∈ members → Asks members term k r) h.asks
    exact fun _ => react_asks (h.asks i hi) hi0 input
  · apply Network.forall_act_of_ne (Q := fun k r => k ∈ members → Records own members b' k r)
    · exact fun _ => hrecords
    · exact fun k hk hmem => hothers k hk (c k) (h.records k hmem)

/-- After a run the cluster has carried out a sound ballot. -/
theorem after_carriesOut (h : Assembled members term c) {run : List Action}
    (hrun : machine.Along (VotesHonestly members) c run) :
    ∃ b, Ballot.Sound members (members.card / 2 + 2) b ∧
      CarriesOut false members term (c.after run) b := by
  have hsimulates : Machine.Simulates act (VotesHonestly members)
      (Ballot.Step members (needed false members)) (CarriesOut false members term) :=
    simulates_ballot h.zero_notMem
  obtain ⟨b, hreaches, hb⟩ := hsimulates.run hrun h.carriesOut
  exact ⟨b, Ballot.sound_blank.reaches hreaches, hb⟩

/-- The members that have been leader. -/
def leaders (members : Finset UInt64) (c : Cluster) : Set UInt64 := {i ∈ members | c.HasLed i}

/-- Who leads has become leader in the run. -/
theorem CarriesOut.mem_leaders (h : CarriesOut own members term c b) (hi : i ∈ members)
    (hled : c.HasLed i ∨ (c i).state = .stateLeader) : i ∈ leaders members c :=
  ⟨hi, hled.elim id (h.records i hi).leads⟩

theorem CarriesOut.elected (h : CarriesOut own members term c b) (hled : i ∈ leaders members c) :
    i ∈ b.elected := by
  obtain ⟨hi, old, hold⟩ := hled
  exact (h.records i hi).led old hold

/-- In a sound ballot there is one leader at most. -/
theorem CarriesOut.subsingleton_leaders (h : CarriesOut own members term c b)
    (hsound : Ballot.Sound members (needed own members) b) :
    (leaders members c).Subsingleton := by
  intro i hi j hj
  exact hsound.elected_unique (card_lt_two_mul_needed own members) (h.elected hi) (h.elected hj)

/-- **Election safety.** In a whole run of a cluster, at most one node ever becomes leader,
and whoever leads is that node: whatever else is sent, lost, repeated or made up, as long as
requests for votes are the members' own and reported votes have been cast. -/
theorem election_safety (h : Assembled members term c) {run : List Action}
    (hrun : machine.Along (VotesHonestly members) c run) :
    (leaders members (c.after run)).Subsingleton ∧
      ∀ i ∈ members, (c.after run i).state = .stateLeader → i ∈ leaders members (c.after run) := by
  obtain ⟨b, hsound, hb⟩ := after_carriesOut h hrun
  exact ⟨hb.subsingleton_leaders hsound, fun i hi hstate => hb.mem_leaders hi (.inr hstate)⟩

/-- The clock of node 1 runs until it campaigns, node `v` is asked for its vote, and its
answer is delivered. -/
def canvass (v : UInt64) : List Action :=
  List.replicate 10 (1, .tick .filledIn) ++
    [(v, .step .filledIn { type := .msgVote, to_ := v, from_ := 1, term := 1 }),
      (1, .step .filledIn { type := .msgVoteResp, to_ := 1, from_ := v, term := 1 })]

/-- Node 1 canvasses one member after another, since each answer but the last one makes it
a follower again. -/
def firstElection : List Action := [2, 3, 4, 5].flatMap canvass

theorem election_safety_five :
    ((ofMembers [1, 2, 3, 4, 5] 1).after firstElection 1).state = .stateLeader ∧
      (leaders [1, 2, 3, 4, 5].toFinset
        ((ofMembers [1, 2, 3, 4, 5] 1).after firstElection)).Subsingleton :=
  ⟨by decide +kernel, (election_safety (assembled_ofMembers (by decide) 1) (by decide +kernel)).1⟩

/-- One vote more than a quorum cannot come from the others in a cluster of four. -/
theorem five_le_card (hsound : Ballot.Sound members (members.card / 2 + 2) b) (hi : i ∈ members)
    (helected : i ∈ b.elected) : 5 ≤ members.card := by
  have hcard := hsound.quorum_le helected
  rw [Finset.card_erase_of_mem hi] at hcard
  omega

/-- **How many must vote.** A node that has been leader was voted for by more than a quorum of
the other members, so that a cluster of fewer than five never has one. -/
theorem leader_supported (h : Assembled members term c) {run : List Action}
    (hrun : machine.Along (VotesHonestly members) c run) :
    ∀ i ∈ members, (c.after run).HasLed i →
      (∃ voters ⊆ members.erase i, members.card / 2 + 2 ≤ voters.card ∧
        ∀ v ∈ voters, (c.after run).Granted v i ∧
          ∀ m ∈ grants (c.after run v).history, m.from_ = i) ∧
      5 ≤ members.card := by
  obtain ⟨b, hsound, hb⟩ := after_carriesOut h hrun
  intro i hi hled
  have helected := hb.elected ⟨hi, hled⟩
  have hsubset := hsound.counted_subset i
  refine ⟨⟨b.counted i, hsubset, hsound.elected i helected, fun v hv => ?_⟩,
    five_le_card hsound hi helected⟩
  have hsupport := hsound.counted v i hv
  have hrecords := hb.records v (Finset.mem_of_mem_erase (hsubset hv))
  refine ⟨hrecords.granted i hsupport, fun m hm => ?_⟩
  have hcast := (hrecords.cast m hm).resolve_right fun hown => Bool.false_ne_true hown.1
  exact Option.some.inj (hcast.symm.trans hsupport)

theorem leader_supported_five :
    ∃ voters ⊆ [1, 2, 3, 4, 5].toFinset.erase 1, 4 ≤ voters.card ∧
      ∀ v ∈ voters, ((ofMembers [1, 2, 3, 4, 5] 1).after firstElection).Granted v 1 := by
  have hstart : Assembled [1, 2, 3, 4, 5].toFinset 1 (ofMembers [1, 2, 3, 4, 5] 1) :=
    assembled_ofMembers (by decide) 1
  have hrun : machine.Along (VotesHonestly [1, 2, 3, 4, 5].toFinset) (ofMembers [1, 2, 3, 4, 5] 1)
      firstElection := by decide +kernel
  obtain ⟨voters, hsubset, hcard, hgranted⟩ :=
    (leader_supported hstart hrun 1 (by decide) ⟨.stateFollower, by decide +kernel⟩).1
  exact ⟨voters, hsubset, hcard, fun v hv => (hgranted v hv).1⟩

end Cluster

end Anraft
