import Anraft.Cluster.ElectionSafety
import Anraft.Node.Startup

/-!
# A cluster of queues

The nodes of a cluster step what their queues hand over to `Run`. A batch steps its first
message again for every item, and for a proposal in the name of the node itself, so a node
may count an answer twice, once as its own. Since one vote more than a quorum is asked for,
two leaders would still share a voter.
-/

namespace Anraft

open Raft Cluster

/-- The nodes by their ids. -/
abbrev Nodes : Type := UInt64 → Node

namespace Nodes

variable {members : Finset UInt64} {term i : UInt64} {u : Unspecified} {r : Raft} {s t : Node}
  {b b' : Ballot UInt64} {msg : Message} {c : Nodes}

/-- The rafts of the nodes. -/
def rafts (c : Nodes) : Cluster := fun i => (c i).raft

/-- What happens at a node. -/
abbrev Action : Type := UInt64 × Node.Work

abbrev machine : Machine Nodes Action := Network.machine UInt64 Node.work

abbrev act (c : Nodes) (a : Action) : Nodes := Network.act Node.work c a

@[simp] theorem act_self (c : Nodes) (i : UInt64) (w : Node.Work) :
    c.act (i, w) i = (c i).work w := Network.act_self

@[simp] theorem act_of_ne {i k : UInt64} (h : k ≠ i) (c : Nodes) (w : Node.Work) :
    c.act (i, w) k = c k := Network.act_of_ne h

def after (c : Nodes) (run : List Action) : Nodes := run.foldl act c

/-- Members alone do anything. A message that is put in the memory of a node is a request only
if it is on its way there, and reports a vote only if it has been cast. What the items of a
batch point to is not looked at, and `Poll` does not count from above zero. -/
def PutsHonestly (members : Finset UInt64) (c : Nodes) : Action → Prop
  | (i, .put _ msg) =>
    i ∈ members ∧ (msg.type = .msgVote → InFlight members c.rafts i msg) ∧
      (isVoteResp msg.type = true → IsHonest members c.rafts i msg)
  | (i, .batch _ items) => i ∈ members ∧ ∀ x ∈ items, x.1.grant ≤ 0

instance (members : Finset UInt64) (c : Nodes) : (a : Action) → Decidable (PutsHonestly members c a)
  | (_, .put ..) => inferInstanceAs (Decidable (_ ∧ _ ∧ _))
  | (_, .batch ..) => inferInstanceAs (Decidable (_ ∧ _))

/-- The rafts of a cluster that starts, without a request or an answer in memory. -/
structure Assembled (members : Finset UInt64) (term : UInt64) (c : Nodes) : Prop where
  rafts : Cluster.Assembled members term c.rafts
  bodies : ∀ i ∈ members, ∀ body,
    ((c i).bodies body).type ≠ .msgVote ∧ isVoteResp ((c i).bodies body).type = false

/-! ## One node -/

/-- A node takes part in the ballot, and so may every message in its memory. -/
structure TakesPart (members : Finset UInt64) (term : UInt64) (b : Ballot UInt64) (i : UInt64)
    (s : Node) : Prop where
  asks : Asks members term i s.raft
  records : Records true members b i s.raft
  bodies : ∀ body, IsAdmissible true members term b i (s.bodies body)

/-- The ballot after node `i` has done something, and what it means to the others. -/
def Proceeds (members : Finset UInt64) (term : UInt64) (b : Ballot UInt64) (i : UInt64) (s : Node) :
    Prop :=
  ∃ b', Ballot.Reaches members (needed true members) b b' ∧ TakesPart members term b' i s ∧
    ∀ k ≠ i, ∀ t, TakesPart members term b k t → TakesPart members term b' k t

theorem TakesPart.proceeds (h : TakesPart members term b i s) : Proceeds members term b i s :=
  ⟨b, .refl, h, fun _ _ _ ht => ht⟩

/-- One thing after another. -/
theorem Proceeds.trans (h : Proceeds members term b i s)
    (hnext : ∀ b', TakesPart members term b' i s → Proceeds members term b' i t) :
    Proceeds members term b i t := by
  obtain ⟨b₁, hreaches, hs, hothers⟩ := h
  obtain ⟨b₂, hreaches', ht, hothers'⟩ := hnext b₁ hs
  exact ⟨b₂, hreaches.trans hreaches', ht, fun k hk t h => hothers' k hk t (hothers k hk t h)⟩

/-- A raft that takes its part in the ballot further, while the memory stays. -/
theorem TakesPart.of_follows (h : TakesPart members term b i s) (hasks : Asks members term i r)
    (hfollows : Follows true members b i r) : Proceeds members term b i { s with raft := r } := by
  obtain ⟨b', hreaches, hrecords, hothers⟩ := hfollows
  refine ⟨b', hreaches, ⟨hasks, hrecords, fun body => (h.bodies body).of_reaches hreaches⟩, ?_⟩
  intro k hk t ht
  exact ⟨ht.asks, hothers k hk _ ht.records, fun body => (ht.bodies body).of_reaches hreaches⟩

/-- A message is put in memory. -/
theorem TakesPart.put (h : TakesPart members term b i s) (body : Address)
    (hmsg : IsAdmissible true members term b i msg) :
    TakesPart members term b i { s with bodies := Function.update s.bodies body msg } where
  asks := h.asks
  records := h.records
  bodies body' := by
    show IsAdmissible true members term b i (Function.update s.bodies body msg body')
    rcases eq_or_ne body' body with rfl | hne
    · rw [Function.update_self]
      exact hmsg
    · rw [Function.update_of_ne hne]
      exact h.bodies body'

/-- Numbering the entries of a message makes no vote of it. -/
theorem isAdmissible_writtenBack (r : Raft) (h : IsAdmissible true members term b i msg) :
    IsAdmissible true members term b i (r.writtenBack msg) := by
  unfold Raft.writtenBack
  split
  · exact ⟨h.request, h.answer⟩
  · exact h

variable {x : Node.Item} {body : Address}

theorem TakesPart.step (h : TakesPart members term b i s) (hzero : 0 ∉ members) (hi : i ∈ members)
    (hgrant : u.grant ≤ 0) : Proceeds members term b i (s.step u body) := by
  have hi0 : i ≠ 0 := fun heq => hzero (heq ▸ hi)
  have hfollows := h.records.follows_step h.asks.node hzero hi (h.bodies body) fun _ => hgrant
  have hraft := h.of_follows (react_asks h.asks hi0 (.step u (s.bodies body))) hfollows
  refine hraft.trans fun b' hb' => ?_
  have hwritten := hb'.put body (isAdmissible_writtenBack s.raft (hb'.bodies body))
  exact TakesPart.proceeds ⟨hwritten.asks, hwritten.records, hwritten.bodies⟩

/-- **One item**, whatever message it points to. -/
theorem TakesPart.runItem (h : TakesPart members term b i s) (hzero : 0 ∉ members)
    (hi : i ∈ members) (hgrant : x.1.grant ≤ 0) :
    Proceeds members term b i (s.runItem x.1 body x.2) := by
  have hid : s.raft.id = i := h.asks.node.id
  cases htype : x.2.type with
  | msgTypeProp =>
      rw [Node.runItem, htype]
      have hnamed := (h.bodies body).in_own_name
      rw [← hid] at hnamed
      rw [← hid] at h hi ⊢
      exact (h.put body hnamed).step hzero hi hgrant
  | msgTypeRecv =>
      rw [Node.runItem_msgTypeRecv htype]
      have hsent := getProgress_sendsOnly s.raft (s.bodies body).from_
      have hasks : Asks members term i (s.raft.getProgress (s.bodies body).from_).2 :=
        h.asks.of_queues (h.asks.node.of_sameConfig hsent.noElection.toSameConfig)
          (.of_eq (getProgress_msgs s.raft (s.bodies body).from_)) (P := fun _ => False)
          fun _ hfalse => hfalse.elim
      have hlooked : TakesPart members term b i
          { s with raft := (s.raft.getProgress (s.bodies body).from_).2 } :=
        ⟨hasks, h.records.of_noElection hsent.noElection, h.bodies⟩
      exact hlooked.step hzero hi hgrant
  | msgTypeTick =>
      rw [Node.runItem, htype]
      have hi0 : i ≠ 0 := fun heq => hzero (heq ▸ hi)
      exact h.of_follows (react_asks h.asks hi0 (.tick x.1)) (h.records.tick hid x.1).follows
  | msgTypeReady =>
      rw [Node.runItem, htype]
      exact h.proceeds
  | msgTypeConf =>
      rw [Node.runItem, htype]
      exact h.proceeds
  | msgTypeAdvance =>
      rw [Node.runItem, htype]
      exact h.proceeds
  | msgTypeStatus =>
      rw [Node.runItem, htype]
      exact h.proceeds
  | msgTypeStop =>
      rw [Node.runItem, htype]
      exact h.proceeds

/-- **A batch.** Its items work on the message of the first one. -/
theorem TakesPart.run {items : List Node.Item} (h : TakesPart members term b i s)
    (hzero : 0 ∉ members) (hi : i ∈ members) (stopped : Bool)
    (hgrant : ∀ x ∈ items, x.1.grant ≤ 0) : Proceeds members term b i (s.run stopped items) := by
  unfold Node.run
  split
  · exact h.proceeds
  · cases items with
    | nil => exact h.proceeds
    | cons first rest =>
        dsimp only
        generalize first :: rest = items at hgrant ⊢
        induction items generalizing s b with
        | nil => exact h.proceeds
        | cons x items ih =>
            rw [List.foldl_cons]
            have hx : Proceeds members term b i (s.runItem x.1 first.2.body x.2) :=
              h.runItem hzero hi (hgrant x List.mem_cons_self)
            exact hx.trans fun b' hb' => ih hb' fun y hy => hgrant y (List.mem_cons_of_mem x hy)

/-! ## All nodes -/

/-- The members take part in the ballot. -/
def CarryOut (members : Finset UInt64) (term : UInt64) (c : Nodes) (b : Ballot UInt64) : Prop :=
  ∀ i ∈ members, TakesPart members term b i (c i)

theorem CarryOut.rafts (h : CarryOut members term c b) :
    CarriesOut true members term c.rafts b where
  asks i hi := (h i hi).asks
  records i hi := (h i hi).records

theorem Assembled.carryOut (h : Assembled members term c) : CarryOut members term c .blank := by
  have hrafts : CarriesOut true members term c.rafts .blank := h.rafts.carriesOut
  intro i hi
  refine ⟨hrafts.asks i hi, hrafts.records i hi, fun body => ?_⟩
  obtain ⟨hrequest, hanswer⟩ := h.bodies i hi body
  refine ⟨fun htype => absurd htype hrequest, fun hresp => ?_⟩
  rw [hanswer] at hresp
  cases hresp

theorem CarryOut.work {w : Node.Work} (hzero : 0 ∉ members) (h : CarryOut members term c b)
    (hC : PutsHonestly members c (i, w)) : Proceeds members term b i ((c i).work w) := by
  cases w with
  | put body msg =>
      obtain ⟨hi, hrequest, hanswer⟩ := hC
      refine ((h i hi).put body ⟨fun htype => ?_, fun hresp hreject => ?_⟩).proceeds
      · obtain ⟨hterm, hindex, hfrom⟩ := h.rafts.request htype (hrequest htype)
        exact ⟨hterm, hindex, .inl hfrom⟩
      · exact h.rafts.answer (hanswer hresp) hreject
  | batch stopped items =>
      obtain ⟨hi, hgrant⟩ := hC
      exact (h i hi).run hzero hi stopped hgrant

/-- **Refinement.** What happens at a node is steps of the ballot. -/
theorem simulates_ballot (hzero : 0 ∉ members) :
    Machine.Simulates act (PutsHonestly members) (Ballot.Step members (needed true members))
      (CarryOut members term) := by
  intro c a b hC h
  obtain ⟨b', hreaches, hself, hothers⟩ := h.work hzero hC
  refine ⟨b', hreaches, ?_⟩
  apply Network.forall_act_of_ne (Q := fun k t => k ∈ members → TakesPart members term b' k t)
  · exact fun _ => hself
  · exact fun k hk hmem => hothers k hk (c k) (h k hmem)

/-- After a run the nodes have carried out a sound ballot. -/
theorem after_carryOut (h : Assembled members term c) {run : List Action}
    (hrun : machine.Along (PutsHonestly members) c run) :
    ∃ b, Ballot.Sound members (members.card / 2 + 1) b ∧ CarryOut members term (c.after run) b := by
  obtain ⟨b, hreaches, hb⟩ := (simulates_ballot h.rafts.zero_notMem).run hrun h.carryOut
  exact ⟨b, Ballot.sound_blank.reaches hreaches, hb⟩

/-- **One leader among the queues.** In whatever batches the queues are worked through, at most
one node ever becomes leader, and a majority has voted for it that it is not one of, as long as
requests put in memory are the members' own and reported votes have been cast. A node that counts
its own message still asks for one vote more than a majority. -/
theorem queues_elect_one (h : Assembled members term c) {run : List Action}
    (hrun : machine.Along (PutsHonestly members) c run) :
    (leaders members (c.after run).rafts).Subsingleton ∧
      (∀ i ∈ members, ((c.after run).rafts i).state = .stateLeader →
        i ∈ leaders members (c.after run).rafts) ∧
      ∀ i ∈ leaders members (c.after run).rafts,
        ∃ voters ⊆ members.erase i, members.card / 2 + 1 ≤ voters.card ∧
          ∀ v ∈ voters, (c.after run).rafts.Granted v i ∧
            ∀ m ∈ grants ((c.after run).rafts v).history, m.from_ = i ∨ m.from_ = v := by
  obtain ⟨b, hsound, hb⟩ := after_carryOut h hrun
  have hrafts := hb.rafts
  refine ⟨hrafts.subsingleton_leaders hsound, ?_, fun i hled => ?_⟩
  · exact fun i hi hstate => hrafts.mem_leaders hi (.inr hstate)
  have hsubset := hsound.counted_subset i
  refine ⟨b.counted i, hsubset, hsound.elected i (hrafts.elected hled), fun v hv => ?_⟩
  have hsupport := hsound.counted v i hv
  have hvoter := hrafts.records v (Finset.mem_of_mem_erase (hsubset hv))
  refine ⟨hvoter.granted i hsupport, fun m hm => ?_⟩
  rcases hvoter.cast m hm with hcast | ⟨-, hown⟩
  · exact .inl (Option.some.inj (hcast.symm.trans hsupport))
  · exact .inr hown

/-- Members that have just been started in the same term, with default messages in memory. -/
def ofMembers (ids : List UInt64) (term : UInt64) : Nodes :=
  fun i => { raft := Cluster.ofMembers ids term i, bodies := fun _ => {} }

theorem assembled_ofMembers {ids : List UInt64} (hzero : 0 ∉ ids) (term : UInt64) :
    Assembled ids.toFinset term (ofMembers ids term) where
  rafts := Cluster.assembled_ofMembers hzero term
  bodies _ _ _ := ⟨nofun, rfl⟩

/-- Items that point to the message at 1, and ticks that run out the timer before each of them
but the first. -/
def batchOf (types : List NodeRecvMsgType) : Node.Work :=
  .batch false <| (types.intersperse .msgTypeTick).flatMap fun type =>
    List.replicate (if type = .msgTypeTick then 10 else 1) (.filledIn, { type := type, body := 1 })

/-- Node 1 campaigns and is voted for by the two others. It steps the answer of node 2 as a
received message and again as a proposal of its own, and then the answer of node 3. -/
def electionOfThree : List Action :=
  [(1, batchOf [.msgTypeTick]),
    (2, .put 1 { type := .msgVote, to_ := 2, from_ := 1, term := 1 }), (2, batchOf [.msgTypeRecv]),
    (3, .put 1 { type := .msgVote, to_ := 3, from_ := 1, term := 1 }), (3, batchOf [.msgTypeRecv]),
    (1, .put 1 { type := .msgVoteResp, to_ := 1, from_ := 2, term := 1 }),
    (1, batchOf [.msgTypeRecv, .msgTypeProp]), (1, batchOf [.msgTypeTick]),
    (1, .put 1 { type := .msgVoteResp, to_ := 1, from_ := 3, term := 1 }),
    (1, batchOf [.msgTypeRecv])]

theorem queues_elect_one_of_three :
    ((ofMembers [1, 2, 3] 1).after electionOfThree).rafts.HasLed 1 ∧
      (leaders [1, 2, 3].toFinset
        ((ofMembers [1, 2, 3] 1).after electionOfThree).rafts).Subsingleton :=
  ⟨⟨.stateFollower, by decide +kernel⟩,
    (queues_elect_one (assembled_ofMembers (by decide) 1) (by decide +kernel)).1⟩

end Nodes

end Anraft
