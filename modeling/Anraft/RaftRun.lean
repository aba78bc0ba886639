import Anraft.Base.Machine
import Anraft.LogView
import Anraft.RaftFrames

/-!
# Runs of a node

A node reacts to the messages delivered to `Step` and to the calls of `Tick`.
Each reaction comes with its own answers of the unspecified parts, so a run
ranges over everything they may do.
-/

namespace Anraft

namespace Raft

inductive Input where
  | step (u : Unspecified) (msg : Message)
  | tick (u : Unspecified)

/-- The answers of the unspecified parts during the reaction. -/
def Input.answers : Input → Unspecified
  | .step u _ => u
  | .tick u => u

def react (r : Raft) : Input → Raft
  | .step u msg => (r.step u msg).2
  | .tick u => r.tick u

/-- The node under `Step` and `Tick`. -/
abbrev machine : Machine Raft Input := .ofFun react

/-- The node under `Step` alone. -/
abbrev stepMachine : Machine Raft (Unspecified × Message) := .ofFun fun r x => (r.step x.1 x.2).2

/-- Plain answers: the missing bodies filled in, every number zero. -/
def Unspecified.filledIn : Unspecified where
  toUnwritten := .filledIn
  pollSelf := false
  checkQuorumActive := true
  lastPendingRequestCtx := []
  grant := 0
  commit := 0
  campaignTerm := 0
  campaignType := .msgPreVote
  outsideMatches := 0
  outsideEntries := .errUnavailable
  returned := .errNone
  randGenerator := 0

/-- A follower that has just been set up, with the ids of the voting members. -/
def started (id : UInt64) (members : List UInt64) : Raft where
  id := id
  term := 0
  vote := 0
  state := .stateFollower
  preVote := false
  checkQuorum := false
  isLearner := false
  maxMsgSize := 1024
  prs := .ofList (members.map fun i => (i, ({ next := 1 } : Progress)))
  learnerPrs := {}
  votes := {}
  msgs := []
  lead := 0
  leadTransferee := 0
  tickFunc := .tickElection
  stepFunc := .stepFollower
  electionElapsed := 0
  heartbeatElapsed := 0
  heartbeatTimeout := 1
  electionTimeout := 10
  randomizedElectionTimeout := 10
  raftlog := (RaftLog.blank.newLog (some MemoryStorage.newMemoryStorage.toStorage)).2
  history := []

/-- The node with these entries as its log, behind an empty storage. -/
def holding (r : Raft) (entries : List LogEntry) : Raft :=
  { r with raftlog := { RaftLog.blank with unstable := { entries := entries, offset := 1 } } }

/-- The node with nothing recorded yet, where a run starts. -/
def unrecorded (r : Raft) : Raft := { r with history := [] }

/-- The state after a run. -/
def after (r : Raft) (inputs : List Input) : Raft := inputs.foldl react r

/-- The state after messages were delivered to `Step`. -/
def stepAll (r : Raft) (inputs : List (Unspecified × Message)) : Raft :=
  inputs.foldl (fun r x => (r.step x.1 x.2).2) r

example : (started 1 [1, 2, 3]).quorum = 2 := by decide

end Raft

end Anraft
