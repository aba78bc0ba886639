import Anraft.Base.Simulation
import Anraft.Cluster.Traffic
import Anraft.Log.CommitProgress
import Anraft.Node.Batching

/-!
# A node from its start on

`Start` writes a change of the configuration for each peer, commits the log as far as it
goes and adds the peers with `AddNode`, which has an empty body. The queue then works through
batches. Each of them is a run of lookups, steps and ticks of the raft, whatever the bodies
of its items are, so the node stays within what these can do.
-/

namespace Anraft

inductive ConfChangeType where
  | confChangeAddNode
  | confChangeRemoveNode
  | confChangeUpdateNode
  | confChangeAddLearnerNode
deriving DecidableEq, Repr

structure ConfChange where
  id : UInt64 := 0
  type : ConfChangeType := .confChangeAddNode
  nodeId : UInt64 := 0
  context : Bytes := []
deriving DecidableEq, Repr

structure Peer where
  id : UInt64
  context : Bytes := []
deriving DecidableEq, Repr

/-- `AddNode(id)`, whose body is empty. -/
def Raft.addNode (r : Raft) (_id : UInt64) : Raft := r

namespace Node

/-- What `Start` calls and the repository leaves open. -/
structure Startup where
  /-- `Raft::NewRaft(config_)`, which has no body. -/
  newRaft : Raft
  /-- `SerializeToString` of a change. -/
  serialize : ConfChange → Bytes
  /-- `RaftLog::Append(const LogEntry&)`, which has no body. -/
  append : RaftLog → LogEntry → RaftLog

/-- The entry that adds a peer. -/
def bootstrapEntry (v : Startup) (log : RaftLog) (x : Peer) : LogEntry where
  data := v.serialize { type := .confChangeAddNode, nodeId := x.id, context := x.context }
  type := .entryConfChange
  term := 1
  index := (log.lastIndex + 1).toInt64

/-- `Start` up to the execution queue, and likewise `StartNode`. -/
def start (v : Startup) (u : Raft.Unspecified) (peers : List Peer) : Raft :=
  let raft := v.newRaft.becomeFollower u 1 0
  let raft := { raft with
    raftlog := peers.foldl (fun log x => v.append log (bootstrapEntry v log x)) raft.raftlog }
  let raft := { raft with raftlog := raft.raftlog.setCommited raft.raftlog.lastIndex }
  peers.foldl (fun raft x => raft.addNode x.id) raft

/-- What happens to a node: a message is put where an item may point to, or the queue hands
over a batch. -/
inductive Work where
  | put (body : Address) (msg : Message)
  | batch (stopped : Bool) (items : List Item)

def work (s : Node) : Work → Node
  | .put body msg => { s with bodies := Function.update s.bodies body msg }
  | .batch stopped items => s.run stopped items

/-- The unwritten `Append` leaves the commit index and the applied index alone. -/
def Work.AppendKeepsIndexes : Work → Prop
  | .put .. => True
  | .batch _ items => ∀ x ∈ items, x.1.AppendKeepsIndexes

/-! ## What the queue makes the raft do -/

/-- One call the loop of `Run` makes. -/
inductive Performs (r : Raft) : Raft → Prop where
  | getProgress (id : UInt64) : Performs r (r.getProgress id).2
  | step {u : Raft.Unspecified} (msg : Message) (hu : u.AppendKeepsIndexes) :
      Performs r (r.step u msg).2
  | tick {u : Raft.Unspecified} (hu : u.AppendKeepsIndexes) : Performs r (r.tick u)

variable {s : Node} {msg : Address} {x : Item}

/-- An item is a lookup and a step, one of them, or nothing. -/
theorem runItem_performs (hu : x.1.AppendKeepsIndexes) :
    Relation.ReflTransGen Performs s.raft (s.runItem x.1 msg x.2).raft := by
  cases htype : x.2.type with
  | msgTypeProp =>
      rw [runItem, htype]
      exact .single (.step _ hu)
  | msgTypeRecv =>
      rw [runItem_msgTypeRecv htype]
      exact .tail (.single (.getProgress _)) (.step _ hu)
  | msgTypeTick =>
      rw [runItem, htype]
      exact .single (.tick hu)
  | msgTypeReady => rw [runItem, htype]
  | msgTypeConf => rw [runItem, htype]
  | msgTypeAdvance => rw [runItem, htype]
  | msgTypeStatus => rw [runItem, htype]
  | msgTypeStop => rw [runItem, htype]

theorem run_performs {items : List Item} (stopped : Bool)
    (hitems : ∀ x ∈ items, x.1.AppendKeepsIndexes) :
    Relation.ReflTransGen Performs s.raft (s.run stopped items).raft := by
  unfold run
  split
  · exact .refl
  · cases items with
    | nil => exact .refl
    | cons first rest =>
        -- the pointer of the first item is the one every item works on
        have hitem : Machine.Simulates (fun s (x : Item) => runItem x.1 first.2.body s x.2)
            (fun _ x => x.1.AppendKeepsIndexes) Performs (fun s r => s.raft = r) := by
          rintro s x _ hx rfl
          exact ⟨_, runItem_performs hx, rfl⟩
        obtain ⟨r, hperforms, hr⟩ :=
          hitem.run (Machine.along_of_forall s hitems) (rfl : s.raft = s.raft)
        rw [hr]
        exact hperforms

/-- **The queue refines the raft.** What happens to a node is a run of calls of its raft. -/
theorem work_simulates :
    Machine.Simulates work (fun _ w => w.AppendKeepsIndexes) Performs (fun s r => s.raft = r) := by
  rintro s w _ hw rfl
  cases w with
  | put body msg => exact ⟨_, .refl, rfl⟩
  | batch stopped items => exact ⟨_, run_performs stopped hw, rfl⟩

end Node

/-! ## The timer of a node that is no member -/

namespace Raft

variable {u : Unspecified} {r r' r'' : Raft} {msg : Message}

/-- What is recorded has no `MsgHup` of the timer in it. -/
def NeverRings (r r' : Raft) : Prop := ∃ es, r'.history = r.history ++ es ∧ .hup ∉ es

namespace NeverRings

theorem of_eq (h : r'.history = r.history) : NeverRings r r' :=
  ⟨[], by rw [h, List.append_nil], List.not_mem_nil⟩

theorem trans (h : NeverRings r r') (h' : NeverRings r' r'') : NeverRings r r'' := by
  obtain ⟨es, heq, hes⟩ := h
  obtain ⟨es', heq', hes'⟩ := h'
  refine ⟨es ++ es', by rw [heq', heq, List.append_assoc], fun hmem => ?_⟩
  exact (List.mem_append.mp hmem).elim hes hes'

theorem of_recordsUntimed (h : RecordsUntimed r r') : NeverRings r r' := by
  obtain ⟨es, heq, hes⟩ := h
  exact ⟨es, heq, fun hmem => absurd (hes _ hmem) (by decide)⟩

theorem of_recordsRestart (h : RecordsRestart r r') : NeverRings r r' := by
  obtain ⟨es, e, heq, hes, he⟩ := h
  refine ⟨es ++ [e], by rw [heq, List.append_assoc], fun hmem => ?_⟩
  rcases List.mem_append.mp hmem with hmem | hmem
  · exact absurd (hes _ hmem) (by decide)
  · obtain rfl := List.mem_singleton.mp hmem
    cases he

end NeverRings

theorem step_neverRings (u : Unspecified) (r : Raft) (msg : Message) :
    NeverRings r (r.step u msg).2 := by
  by_cases hrole : r.RestartsRole u msg
  · exact .of_recordsRestart (step_rearms hrole).2
  · cases step_timers hrole with
    | idle _ h => exact .of_recordsUntimed h
    | zeroed _ h => exact .of_recordsRestart h
    | elected _ h => exact .of_recordsUntimed h

/-- The timer of a node that is not a voting member runs out unnoticed. -/
theorem tick_neverRings (hmember : r.id ∉ r.prs) (u : Unspecified) : NeverRings r (r.tick u) := by
  cases hfunc : r.tickFunc with
  | tickElection =>
      rw [tick_of_waiting hfunc (fun hfires => hmember hfires.1)]
      exact ⟨[.tick], rfl, by decide⟩
  | tickHeatbeat =>
      rcases tick_leader_cases hfunc u with ⟨elapsed, checked, -, hkept, heq⟩ | hlost
      · have hchecked : NeverRings r checked := ⟨[.tick], hkept.history, by decide⟩
        rw [heq]
        exact hchecked.trans (.of_recordsUntimed (heartbeaten_timers u checked).2)
      · refine ⟨[.tick, .becomeFollower r.term 0], ?_, by simp⟩
        rw [hlost.history]
        exact List.append_assoc r.history [.tick] [.becomeFollower r.term 0]

end Raft

/-! ## What a started node keeps -/

namespace Node

variable {v : Startup} {u : Raft.Unspecified} {made r r' : Raft} {lowest : UInt64}

/-- What a node with the identity and the voting members of `made` sends: requests for votes
in the one term it has, and answers to appends. -/
def IsOwnMessage (made : Raft) (m : Message) : Prop :=
  (m.type = .msgVote ∧ m.from_ = made.id ∧ m.term = made.term ∧ m.to_ ∈ made.prs ∧
    m.to_ ≠ made.id) ∨ m.type = .msgAppResp

/-- `r` has the identity, the term and the voting members of `made` and the commit index
`lowest` or a higher one, has sent nothing but messages of its own, and no `MsgHup` has come
from a timer of a node that is no member. -/
structure Serves (made : Raft) (lowest : UInt64) (r : Raft) : Prop where
  config : Raft.SameConfig made r
  committed : lowest ≤ r.raftlog.committed
  queued : Raft.Queues (IsOwnMessage made) made r
  silent : made.id ∉ made.prs → Raft.NeverRings made r

/-- The voting members as a set. -/
def voters (r : Raft) : Finset UInt64 := (r.prs.toList.map Prod.fst).toFinset

theorem mem_voters {i : UInt64} : i ∈ voters r ↔ i ∈ r.prs := by
  rw [voters, List.mem_toFinset, List.mem_map, TreeMap.mem_iff_exists_mem_toList]
  constructor
  · rintro ⟨⟨k, p⟩, hmem, rfl⟩
    exact ⟨p, hmem⟩
  · rintro ⟨p, hmem⟩
    exact ⟨(i, p), hmem, rfl⟩

theorem Serves.isNode (h : Serves made lowest r) :
    Raft.IsNode (voters made) made.term made.id r where
  id := h.config.id
  term := h.config.term
  mem_prs i := (h.config.mem_prs i).trans mem_voters.symm

theorem isOwnMessage_of_isRequest {m : Message}
    (h : Raft.IsRequest (voters made) made.term made.id m) : IsOwnMessage made m :=
  .inl ⟨h.type, h.from_, h.term, mem_voters.mp h.to_.1, h.to_.2⟩

/-- **One call.** -/
theorem Serves.performs (h : Serves made lowest r) (hid : made.id ≠ 0) (hr : Performs r r') :
    Serves made lowest r' := by
  have hmember : made.id ∉ made.prs → r.id ∉ r.prs := by
    rw [h.config.id, h.config.mem_prs]
    exact fun hnot => hnot
  cases hr with
  | getProgress id =>
      have hsent := Raft.getProgress_sendsOnly r id
      refine ⟨h.config.trans hsent.noElection.toSameConfig, ?_, ?_, fun hnot => ?_⟩
      · rw [hsent.raftlog]
        exact h.committed
      · exact h.queued.trans (.of_eq (Raft.getProgress_msgs r id))
      · exact (h.silent hnot).trans (.of_eq hsent.history)
  | step msg hu =>
      refine ⟨h.config.trans (Raft.step_sameConfig _ r msg),
        h.committed.trans (Raft.step_commitAdvances hu r msg).committed, ?_,
        fun hnot => (h.silent hnot).trans (Raft.step_neverRings _ r msg)⟩
      obtain ⟨sent, heq, hsent⟩ := Raft.step_queues h.isNode hid _ msg
      refine h.queued.trans ⟨sent, heq, fun m hm => ?_⟩
      rcases hsent m hm with hrequest | ⟨-, hanswer⟩
      · exact isOwnMessage_of_isRequest hrequest
      · exact .inr hanswer
  | tick hu =>
      refine ⟨h.config.trans (Raft.react_sameConfig r (.tick _)),
        h.committed.trans (Raft.tick_commitAdvances hu r).committed, ?_,
        fun hnot => (h.silent hnot).trans (Raft.tick_neverRings (hmember hnot) _)⟩
      obtain ⟨sent, heq, hsent⟩ := Raft.tick_queues h.isNode hid _
      exact h.queued.trans ⟨sent, heq, fun m hm => isOwnMessage_of_isRequest (hsent m hm)⟩

theorem foldl_addNode (peers : List Peer) (r : Raft) :
    peers.foldl (fun raft x => raft.addNode x.id) r = r := by
  induction peers with
  | nil => rfl
  | cons x peers ih => exact ih

/-- `Start` commits the log as far as it goes, and does no more than that to the raft. -/
theorem start_serves (v : Startup) (u : Raft.Unspecified) (peers : List Peer) :
    Serves v.newRaft (start v u peers).raftlog.lastIndex (start v u peers) := by
  unfold start
  dsimp only
  rw [foldl_addNode]
  exact ⟨.of_eq rfl rfl rfl rfl, le_rfl, .of_eq rfl, fun _ => ⟨[.becomeFollower 1 0], rfl, by decide⟩⟩

/-- **What a started node keeps.** Whatever batches a node works through after `Start`, it has
the identity, the term and the voting members of the raft it was made from and none of the
peers, its commit index stays at or above the end of the log it was started with, it sends
nothing but requests for votes in that term to members and answers to appends, and its timer
raises no campaign unless it was made a member of itself. -/
theorem started_node_serves (v : Startup) (u : Raft.Unspecified) (peers : List Peer)
    (bodies : Address → Message) (works : List Work) (hid : v.newRaft.id ≠ 0)
    (hworks : ∀ w ∈ works, w.AppendKeepsIndexes) :
    Serves v.newRaft (start v u peers).raftlog.lastIndex
      (works.foldl work { raft := start v u peers, bodies := bodies }).raft := by
  obtain ⟨r, hperforms, hr⟩ := work_simulates.run
    (s := { raft := start v u peers, bodies := bodies }) (Machine.along_of_forall _ hworks) rfl
  rw [hr]
  clear hr
  induction hperforms with
  | refl => exact start_serves v u peers
  | tail _ hcall ih => exact ih.performs hid hcall

/-- A node that is made without members, and writes its entries as a batch of one. -/
def withoutMembers : Startup where
  newRaft := Raft.started 1 []
  serialize c := [16, 0, 24, c.nodeId.toUInt8, 34, 0]
  append log e := ((log.append [e]).getD (log.lastIndex, log)).2

/-- Two peers, then a tick and a request for a vote. -/
theorem started_node_serves_two_peers :
    Serves (Raft.started 1 []) 2
      ([.put 7 { type := .msgVote, from_ := 2, term := 5 },
        .batch false [(.filledIn, { type := .msgTypeTick, body := 0 })],
        .batch false [(.filledIn, { type := .msgTypeRecv, body := 7 })]].foldl work
          { raft := start withoutMembers .filledIn [{ id := 1 }, { id := 2 }],
            bodies := fun _ => {} }).raft := by
  have hlast : (start withoutMembers .filledIn [{ id := 1 }, { id := 2 }]).raftlog.lastIndex = 2 := by
    decide
  rw [← hlast]
  refine started_node_serves withoutMembers .filledIn [{ id := 1 }, { id := 2 }] (fun _ => {}) _
    (by decide) fun w hw => ?_
  simp only [List.mem_cons, List.not_mem_nil, or_false] at hw
  have hone : ∀ item, Work.AppendKeepsIndexes (.batch false [(.filledIn, item)]) := by
    intro item x hx
    rw [List.mem_singleton.mp hx]
    exact RaftLog.filledIn_appendKeepsIndexes
  rcases hw with rfl | rfl | rfl
  · trivial
  · exact hone _
  · exact hone _

end Node

end Anraft
