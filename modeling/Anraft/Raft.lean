import Anraft.RaftLog
import Anraft.Progress

/-!
# The raft state machine

`Raft::Step` and `Raft::Tick` with everything they call. The function pointers
`step_func_` and `tick_func_` are enumerations of the functions they are set
to; signed counters are integers.

`history` is a ghost field. It records, in order, the calls and decisions the
results speak about; no function of the program reads it.
-/

namespace Anraft

open IteratorRange

inductive StateType where
  | stateFollower
  | stateCandidate
  | stateLeader
  | statePreCandidate
deriving DecidableEq, Repr

inductive CampaignType where
  | campaignPreElection
  | campaignElection
  | campaignTransfer
deriving DecidableEq, Repr

inductive StepFunc where
  | stepFollower
  | stepCandidate
  | stepLeader
deriving DecidableEq, Repr

inductive TickFunc where
  | tickElection
  | tickHeatbeat
deriving DecidableEq, Repr

/-- What the ghost history records. -/
inductive Event where
  /-- `BecomeFollower(term, lead)`. -/
  | becomeFollower (term lead : UInt64)
  /-- `BecomeCandidate` in role `old`, leaving `term_` at `term`. -/
  | becomeCandidate (old : StateType) (term : UInt64)
  /-- `BecomeLeader` in role `old`. -/
  | becomeLeader (old : StateType)
  /-- The branch of `Step` that sets `vote_` to the sender of the message. -/
  | grantVote (msg : Message)
  /-- `Poll(id, type, vote)`. -/
  | poll (id : UInt64) (type : MessageType) (vote : Bool)
  /-- The call of `RaftLog::MaybeAppend` in `HandleAppendEntries`. -/
  | maybeAppend (index term committed : UInt64) (ents : List LogEntry)
  /-- A call of `Tick`. -/
  | tick
  /-- The `MsgHup` of `TickElection`. -/
  | hup
  /-- The `MsgBeat` of `TickHeatbeat`. -/
  | beat
deriving DecidableEq, Repr

structure Raft where
  id : UInt64
  term : UInt64
  vote : UInt64
  state : StateType
  preVote : Bool
  checkQuorum : Bool
  isLearner : Bool
  maxMsgSize : UInt64
  prs : Std.TreeMap UInt64 Progress
  learnerPrs : Std.TreeMap UInt64 Progress
  votes : Std.TreeMap UInt64 Bool
  msgs : List Message
  lead : UInt64
  leadTransferee : UInt64
  tickFunc : TickFunc
  stepFunc : StepFunc
  electionElapsed : ℤ
  heartbeatElapsed : ℤ
  heartbeatTimeout : ℤ
  electionTimeout : ℤ
  randomizedElectionTimeout : ℤ
  raftlog : RaftLog
  history : List Event

/-- What `raft.cpp` leaves open: the functions without a body, the variables
read before they are set, reads outside a vector, functions that end without a
`return`, and the random generator. One value of this type fixes the answers
during one call of `Step` or `Tick`. -/
structure Raft.Unspecified extends RaftLog.Unwritten where
  /-- `Poll()`, the function without arguments. -/
  pollSelf : Bool
  /-- `CheckQuorumActive()`. -/
  checkQuorumActive : Bool
  /-- `ReadOnly::LastPendingRequestCtx()`. -/
  lastPendingRequestCtx : Bytes
  /-- `int grant;` in `Poll(id, type, vote)`. -/
  grant : ℤ
  /-- `uint64_t commit;` in `SendHeartbeat`. -/
  commit : UInt64
  /-- `uint64_t term;` and `MessageType msg_type;` in `Campaign`. -/
  campaignTerm : UInt64
  campaignType : MessageType
  /-- `vp[Quorum() - 1]` when `prs_` is empty. -/
  outsideMatches : UInt64
  /-- The error of `Entries` when it reads outside the unstable vector. -/
  outsideEntries : RaftError
  /-- The value of a function that ends without a `return`. -/
  returned : RaftError
  /-- `butil::RandGenerator(election_timeout_)`. -/
  randGenerator : ℤ

namespace Raft

/-- The pointer returned by `GetProgress`: which map it points into. -/
inductive ProgressPtr where
  | prs (id : UInt64)
  | learnerPrs (id : UInt64)
deriving DecidableEq, Repr

def record (r : Raft) (e : Event) : Raft := { r with history := r.history ++ [e] }

def resetRandomizedElectionTimeout (u : Unspecified) (r : Raft) : Raft :=
  { r with randomizedElectionTimeout := r.electionTimeout + u.randGenerator }

/-- The argument `term` is not used, and neither `term_`, `vote_`, `votes_` nor a
counter is reset. -/
def reset (u : Unspecified) (r : Raft) (_term : UInt64) : Raft :=
  r.resetRandomizedElectionTimeout u

def becomeFollower (u : Unspecified) (r : Raft) (term lead : UInt64) : Raft :=
  let r := { r with stepFunc := .stepFollower }
  let r := r.reset u term
  let r := { r with tickFunc := .tickElection, lead := lead, state := .stateFollower }
  r.record (.becomeFollower term lead)

def becomeCandidate (u : Unspecified) (r : Raft) : Raft :=
  let old := r.state
  let r := { r with stepFunc := .stepCandidate }
  let r := r.reset u (r.term + 1)
  let r := { r with tickFunc := .tickElection, vote := r.id, state := .stateFollower }
  r.record (.becomeCandidate old r.term)

def becomeLeader (u : Unspecified) (r : Raft) : Raft :=
  let old := r.state
  let r := { r with stepFunc := .stepLeader }
  let r := r.reset u r.term
  let r := { r with tickFunc := .tickHeatbeat, lead := r.id, state := .stateLeader }
  r.record (.becomeLeader old)

def quorum (r : Raft) : ℕ := r.prs.size / 2 + 1

def send (r : Raft) (msg : Message) : Raft :=
  { r with msgs := r.msgs ++ [{ msg with from_ := r.id }] }

/-- A missing id is inserted into `learner_prs_` by the lookup, so the pointer
is never null. -/
def getProgress (r : Raft) (id : UInt64) : Option ProgressPtr × Raft :=
  if id ∈ r.prs then (some (.prs id), r)
  else (some (.learnerPrs id), { r with learnerPrs := r.learnerPrs.insertIfNew id {} })

def progressAt (r : Raft) : ProgressPtr → Progress
  | .prs id => r.prs.getD id {}
  | .learnerPrs id => r.learnerPrs.getD id {}

def modifyProgress (r : Raft) (ptr : ProgressPtr) (f : Progress → Progress) : Raft :=
  match ptr with
  | .prs id => { r with prs := r.prs.modify id f }
  | .learnerPrs id => { r with learnerPrs := r.learnerPrs.modify id f }

/-- Calls `f` for every element of `prs_`, then for every element `learner_prs_`
holds by then. -/
def forEachProgress (r : Raft) (f : Raft → UInt64 → Progress → Raft) : Raft :=
  let r := r.prs.toList.foldl (fun r x => f r x.1 x.2) r
  r.learnerPrs.toList.foldl (fun r x => f r x.1 x.2) r

def sendHeartbeat (u : Unspecified) (r : Raft) (dst : UInt64) (ctx : Bytes) : Raft :=
  r.send { to_ := dst, type := .msgHeartbeat, commit := u.commit, context := ctx }

def sendAppend (u : Unspecified) (r : Raft) (dst : UInt64) : Raft :=
  match r.getProgress dst with
  | (none, r) => r
  | (some ptr, r) =>
    let pr := r.progressAt ptr
    if pr.isPaused then r
    else
      let termResult := r.raftlog.term u.toUnwritten (pr.next - 1)
      let entriesResult :=
        match r.raftlog.entries pr.next r.maxMsgSize [] with
        | some (err, _) => err
        | none => u.outsideEntries
      let msg : Message := { to_ := dst }
      -- the entries that were looked up are not copied into the message
      r.send <|
        if termResult.1 ≠ .errNone ∨ entriesResult ≠ .errNone then msg
        else
          { msg with
            type := .msgApp
            index := pr.next - 1
            term := termResult.2
            commit := r.raftlog.committed }

/-- The test of the source is an assignment: it replaces the member's id by the
node's own and returns when that is not zero. -/
def bcastAppend (u : Unspecified) (r : Raft) : Raft :=
  r.forEachProgress fun r _id _p =>
    let id := r.id
    if id ≠ 0 then r else r.sendAppend u id

/-- The same assignment as in `BcastAppend`. Every call of `SendHeartbeat` has an unset `commit`
of its own; here one value stands for all visits of a broadcast. -/
def bcastHeartbeatWithCtx (u : Unspecified) (r : Raft) (ctx : Bytes) : Raft :=
  r.forEachProgress fun r _id _p =>
    let id := r.id
    if id ≠ 0 then r else r.sendHeartbeat u id ctx

def bcastHeartbeat (u : Unspecified) (r : Raft) : Raft :=
  r.bcastHeartbeatWithCtx u u.lastPendingRequestCtx

/-- The matches of `prs_` in descending order. -/
def sortedMatches (r : Raft) : List UInt64 :=
  (r.prs.toList.map fun x => x.2.match_).insertionSort (· ≥ ·)

def maybeCommit (u : Unspecified) (r : Raft) : Bool × Raft :=
  let vp := r.sortedMatches
  let index := vp[r.quorum - 1]?.getD u.outsideMatches
  let (changed, log) := r.raftlog.maybeCommit u.toUnwritten index r.term
  (changed, { r with raftlog := log })

def appendEntry (u : Unspecified) (r : Raft) (entries : List LogEntry) : Raft :=
  let li := r.raftlog.lastIndex
  let entries := entries.mapIdx fun i e =>
    { e with term := r.term.toInt64, index := (li + 1 + UInt64.ofNat i).toInt64 }
  let (li, log) := u.appendRepeated r.raftlog entries
  let r := { r with raftlog := log }
  let r :=
    match r.getProgress r.id with
    | (none, r) => r
    | (some ptr, r) => r.modifyProgress ptr fun p => (p.maybeUpdate li).2
  (r.maybeCommit u).2

/-- `Poll(id, type, vote)`: only the first answer of an id is kept. -/
def poll (u : Unspecified) (r : Raft) (id : UInt64) (type : MessageType) (vote : Bool) :
    ℤ × Raft :=
  let r := { r with votes := r.votes.insertIfNew id vote }
  let grant := r.votes.toList.foldl (fun grant x => if x.2 then grant + 1 else grant) u.grant
  (grant, r.record (.poll id type vote))

def campaign (u : Unspecified) (r : Raft) (t : CampaignType) : Raft :=
  let (r, term, msgType) :=
    match t with
    | .campaignPreElection => (r, u.campaignTerm, u.campaignType)
    | _ =>
      let r := r.becomeCandidate u
      (r, r.term, .msgVote)
  if r.quorum ≠ 0 ∧ u.pollSelf then r
  else
    r.prs.toList.foldl (fun r x =>
      if x.1 = r.id then r
      else r.send { term := term, to_ := x.1, type := msgType }) r

def handleAppendEntries (u : Unspecified) (r : Raft) (msg : Message) : Raft :=
  -- a stale message is answered and then handled like any other
  let r :=
    if msg.index < r.raftlog.committed then
      r.send { to_ := msg.from_, type := .msgAppResp, index := r.raftlog.committed }
    else r
  let (maRet, log) :=
    r.raftlog.maybeAppend u.toUnwritten msg.index msg.term msg.commit msg.entries
  let r := { r with raftlog := log }
  let r := r.record (.maybeAppend msg.index msg.term msg.commit msg.entries)
  if maRet.2 then r.send { to_ := msg.from_, type := .msgAppResp, index := maRet.1 }
  else
    r.send {
      to_ := msg.from_
      type := .msgAppResp
      index := msg.index
      reject := true
      rejectHint := r.raftlog.lastIndex }

def stepFollower (u : Unspecified) (r : Raft) (msg : Message) : RaftError × Raft :=
  match msg.type with
  | .msgApp =>
    let r := { r with electionElapsed := 0, lead := msg.from_ }
    (u.returned, r.handleAppendEntries u msg)
  | _ => (u.returned, r)

/-- `my_vote_resp_type` is computed by the source and read by nothing. -/
def stepCandidate (u : Unspecified) (r : Raft) (msg : Message) : RaftError × Raft :=
  match msg.type with
  | .msgPreVoteResp | .msgVoteResp =>
    let (grant, r) := r.poll u msg.from_ msg.type !msg.reject
    if grant > r.quorum then
      if r.state = .statePreCandidate then (u.returned, r)
      else (u.returned, (r.becomeLeader u).bcastAppend u)
    else (u.returned, r.becomeFollower u r.term 0)
  | _ => (u.returned, r)

/-- The part of `StepLeader` for the messages that require a progress. -/
def stepLeaderProgress (u : Unspecified) (r : Raft) (msg : Message) : RaftError × Raft :=
  match r.getProgress msg.from_ with
  | (none, r) => (.errParam, r)
  | (some ptr, r) =>
    match msg.type with
    | .msgAppResp =>
      if msg.reject then (u.returned, r)
      else
        let r := r.modifyProgress ptr fun p => (p.maybeUpdate msg.index).2
        let (changed, r) := r.maybeCommit u
        (u.returned, if changed then r.bcastAppend u else r)
    | _ => (u.returned, r)

def stepLeader (u : Unspecified) (r : Raft) (msg : Message) : RaftError × Raft :=
  match msg.type with
  | .msgCheckQuorum =>
    let r := if u.checkQuorumActive then r else r.becomeFollower u r.term 0
    r.stepLeaderProgress u msg
  | .msgProp =>
    if r.id ∉ r.prs then (.errProposalDropped, r)
    else if r.leadTransferee ≠ 0 then (.errProposalDropped, r)
    else ((r.appendEntry u msg.entries).bcastAppend u).stepLeaderProgress u msg
  | _ => r.stepLeaderProgress u msg

def voteRespMsgType (vote : MessageType) : MessageType :=
  if vote = .msgVote then .msgVoteResp else .msgPreVoteResp

/-- The condition under which `Step` casts its vote for the sender of `msg`. The
term of the message stands in the place of the candidate's last log term. -/
def canVote (u : Unspecified) (r : Raft) (msg : Message) : Bool :=
  (r.vote == 0 || r.vote == msg.from_ || msg.term > r.term) &&
    r.raftlog.isUpToDate u.toUnwritten msg.index msg.term

def step (u : Unspecified) (r : Raft) (msg : Message) : RaftError × Raft :=
  -- the three branches for the term of the message (local, newer, older or
  -- equal) have no statements
  match msg.type with
  | .msgHup =>
    if r.state ≠ .stateLeader then
      if r.preVote then (.errNone, r)
      else (.errNone, r.campaign u .campaignElection)
    else (.errNone, r)
  | .msgVote | .msgPreVote =>
    if r.isLearner then (.errNone, r)
    else if r.canVote u msg then
      -- `resp_msg` is filled in and goes out of scope unsent
      if msg.type = .msgVote then
        let r := { r with vote := msg.from_, electionElapsed := 0 }
        (.errNone, r.record (.grantVote msg))
      else (.errNone, r)
    else (.errNone, r)
  | _ =>
    match r.stepFunc with
    | .stepFollower => r.stepFollower u msg
    | .stepCandidate => r.stepCandidate u msg
    | .stepLeader => r.stepLeader u msg

def isResponseMsg (msgt : MessageType) : Bool :=
  msgt == .msgAppResp || msgt == .msgVoteResp || msgt == .msgHeartbeatResp ||
    msgt == .msgUnreachable || msgt == .msgPreVoteResp

def promotable (r : Raft) : Bool := decide (r.id ∈ r.prs)

def pastElectionTimeout (r : Raft) : Bool :=
  decide (r.electionElapsed ≥ r.randomizedElectionTimeout)

def tickElection (u : Unspecified) (r : Raft) : Raft :=
  let r := { r with electionElapsed := r.electionElapsed + 1 }
  if r.promotable ∧ r.pastElectionTimeout then
    let r := { r with electionElapsed := 0 }
    let r := r.record .hup
    (r.step u { type := .msgHup, from_ := r.id }).2
  else r

def tickHeatbeat (u : Unspecified) (r : Raft) : Raft :=
  let r := { r with
    electionElapsed := r.electionElapsed + 1
    heartbeatElapsed := r.heartbeatElapsed + 1 }
  let r : Raft :=
    if r.electionElapsed > r.electionTimeout then
      let r := { r with electionElapsed := 0 }
      if r.checkQuorum then (r.step u { type := .msgCheckQuorum, from_ := r.id }).2 else r
    else r
  if r.state ≠ .stateLeader then r
  else if r.heartbeatElapsed > r.heartbeatTimeout then
    -- the counter is advanced once more where it would start again
    let r := { r with heartbeatElapsed := r.heartbeatElapsed + 1 }
    let r := r.record .beat
    (r.step u { type := .msgBeat, from_ := r.id }).2
  else r

def tick (u : Unspecified) (r : Raft) : Raft :=
  let r := r.record .tick
  match r.tickFunc with
  | .tickElection => r.tickElection u
  | .tickHeatbeat => r.tickHeatbeat u

end Raft

end Anraft
