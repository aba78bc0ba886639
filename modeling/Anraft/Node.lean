import Anraft.Raft

/-!
# The node's queue

`Node::Run` is called by the execution queue with a batch of queued items. A
body is a pointer to a message, and stepping a message writes to it: a proposal
gets its sender, and the entries of an accepted one their terms and indexes. The
messages therefore lie in a memory that the calls share.
-/

namespace Anraft

inductive NodeRecvMsgType where
  | msgTypeTick
  | msgTypeProp
  | msgTypeRecv
  | msgTypeConf
  | msgTypeAdvance
  | msgTypeReady
  | msgTypeStatus
  | msgTypeStop
deriving DecidableEq, Repr

/-- The value of a `Message*`. -/
abbrev Address : Type := ℕ

structure NodeRecvMsg where
  type : NodeRecvMsgType
  body : Address
deriving DecidableEq, Repr

namespace Raft

/-- The entries of a proposal as `AppendEntry` writes them back. -/
def numbered (r : Raft) (entries : List LogEntry) : List LogEntry :=
  entries.mapIdx fun i e =>
    { e with
      term := r.term.toInt64
      index := (r.raftlog.lastIndex + 1 + UInt64.ofNat i).toInt64 }

/-- The message as `Step` leaves it: a leader numbers the entries of a proposal it
does not drop. -/
def writtenBack (r : Raft) (msg : Message) : Message :=
  if msg.type = .msgProp ∧ r.stepFunc = .stepLeader ∧ r.id ∈ r.prs ∧ r.leadTransferee = 0 then
    { msg with entries := r.numbered msg.entries }
  else msg

end Raft

/-- The raft `GetRaft()` returns and the messages the queued items point to. The
ghost field `stepped` lists the bodies handed to `Step`. -/
structure Node where
  raft : Raft
  bodies : Address → Message
  stepped : List Address := []

namespace Node

/-- `GetRaft().Step(msg)`. -/
def step (u : Raft.Unspecified) (s : Node) (msg : Address) : Node where
  raft := (s.raft.step u (s.bodies msg)).2
  bodies := Function.update s.bodies msg (s.raft.writtenBack (s.bodies msg))
  stepped := s.stepped ++ [msg]

/-- The loop body of `Run` for the item `iter`. The message it works on is the
pointer `msg`, not the body of the item. -/
def runItem (u : Raft.Unspecified) (msg : Address) (s : Node) (iter : NodeRecvMsg) : Node :=
  match iter.type with
  | .msgTypeProp =>
    let s := { s with
      bodies := Function.update s.bodies msg { s.bodies msg with from_ := s.raft.id } }
    s.step u msg
  | .msgTypeReady => s
  | .msgTypeRecv =>
    let (pr, raft) := s.raft.getProgress (s.bodies msg).from_
    let s := { s with raft := raft }
    if pr.isSome || Raft.isResponseMsg (s.bodies msg).type then s.step u msg else s
  | .msgTypeTick => { s with raft := s.raft.tick u }
  -- the other types have no case
  | .msgTypeConf | .msgTypeAdvance | .msgTypeStatus | .msgTypeStop => s

/-- `Run`: `msg` is read from the first item, before the loop. Each item comes with
the answers of the unspecified parts while it is processed. -/
def run (stopped : Bool) (s : Node) (iter : List (Raft.Unspecified × NodeRecvMsg)) : Node :=
  if stopped then s
  else
    match iter with
    | [] => s
    | first :: _ => iter.foldl (fun s x => s.runItem x.1 first.2.body x.2) s

end Node

end Anraft
