import Anraft.Proto

/-!
# The replica that calls its peers

`AnraftImpl` asks for votes and replicates its log through remote calls. Its
counters are `int64_t` and stand here as integers: an overflow of a signed counter
has no result in the source.
-/

namespace Anraft

inductive Role where
  | kFollower
  | kCandidate
  | kLeader
deriving DecidableEq, Repr

structure VoteRequest where
  term : ℤ
  candidateId : Bytes
  lastLogIndex : ℤ
  lastLogTerm : ℤ
deriving DecidableEq, Repr

structure VoteResponse where
  term : ℤ := 0
  voteGranted : Bool := false
deriving DecidableEq, Repr

structure AppendEntriesRequest where
  term : ℤ
  leaderId : Bytes
  prevLogIndex : ℤ := 0
  prevLogTerm : ℤ := 0
  entries : List LogEntry := []
  leaderCommit : ℤ
deriving DecidableEq, Repr

structure AppendEntriesResponse where
  term : ℤ := 0
  success : Bool := false
deriving DecidableEq, Repr

structure AnraftOptions where
  nodes : List Bytes
  localAddr : Bytes
deriving DecidableEq, Repr

structure FollowerContext where
  nextIndex : ℤ
  matchIndex : ℤ
deriving DecidableEq, Repr

/-- The name of a completion handed in by a client. -/
abbrev Callback : Type := ℕ

/-- `invoked` is a ghost field: the callbacks that have run, with their indexes. -/
structure AnraftImpl where
  options : AnraftOptions
  currentTerm : ℤ := 0
  votedFor : Bytes := []
  commitIndex : ℤ := 0
  lastApplied : ℤ := 0
  followerContexts : List FollowerContext := []
  lastLogTerm : ℤ := 0
  lastLogIndex : ℤ := 0
  votes : Finset Bytes := ∅
  applyCallbacks : Std.TreeMap ℤ Callback := ∅
  role : Role := .kFollower
  leader : Bytes := []
  invoked : List (ℤ × Callback) := []

/-- What comes from elsewhere during one call: the log, whose `ReadEntry` has an
empty body, protobuf, the peers, and reads outside a vector. -/
structure AnraftImpl.Unspecified where
  /-- `RaftLog::ReadEntry(index, &entry)`. -/
  readEntry : ℤ → Option Bytes
  /-- `LogEntry::ParseFromString`. -/
  parseFromString : Bytes → Option LogEntry
  /-- `AppendEntriesRequest::ByteSize`. -/
  byteSize : AppendEntriesRequest → ℕ
  /-- `SendRequest(&RaftNode_Stub::AppendEntries, ..)`, which ends without a `return`,
  and the response it leaves. -/
  sendRequest : AppendEntriesRequest → Bool × AppendEntriesResponse
  /-- `options_.nodes[i]` outside the vector. -/
  outsideNode : ℕ → Bytes
  /-- `vec_match_index[i]` outside the vector. -/
  outsideMatch : ℤ

namespace AnraftImpl

/-! ## Elections -/

/-- The request is sent to every peer; whether that succeeds does not matter to the
state. -/
def election (s : AnraftImpl) : Option VoteRequest × AnraftImpl :=
  if s.role = .kLeader then (none, s)
  else
    let s := { s with currentTerm := s.currentTerm + 1 }
    let s := { s with role := .kCandidate }
    let s := { s with votedFor := s.options.localAddr }
    (some
      { term := s.currentTerm
        candidateId := s.options.localAddr
        lastLogTerm := s.lastLogTerm
        lastLogIndex := s.lastLogIndex }, s)

/-- `ResetElection` has only commented-out code. -/
def checkTerm (s : AnraftImpl) (term : ℤ) : Bool × AnraftImpl :=
  if s.currentTerm < term then
    (false, { s with currentTerm := term, votedFor := [], role := .kFollower })
  else (true, s)

/-- The end of `ElectionCallback`. -/
def countVote (s : AnraftImpl) (voteNode : Bytes) : AnraftImpl :=
  let s := { s with votes := insert voteNode s.votes }
  if s.options.nodes.length / 2 + 1 ≤ s.votes.card then
    { s with role := .kLeader, leader := s.options.localAddr }
  else s

def electionCallback (s : AnraftImpl) (response : VoteResponse) (failed : Bool) (error : ℤ)
    (voteNode : Bytes) : AnraftImpl :=
  if failed = false ∨ error ≠ 0 then s
  else
    let term := response.term
    let granted := response.voteGranted
    -- a response of a newer term goes on to be counted
    let s :=
      if s.currentTerm < term then
        { s with currentTerm := term, votedFor := [], role := .kFollower }
      else s
    if term ≠ s.currentTerm ∨ granted = false ∨ s.role = .kLeader then s
    else s.countVote voteNode

/-! ## The request to a follower -/

/-- The request under construction, with `max_index` and `max_term`. -/
structure Batch where
  req : AppendEntriesRequest
  maxIndex : ℤ := 0
  maxTerm : ℤ := -1
deriving DecidableEq, Repr

/-- The entry the log holds at index `i`. -/
def Unspecified.entryAt (u : Unspecified) (i : ℤ) : Option LogEntry :=
  (u.readEntry i).bind u.parseFromString

/-- The `for` loop at index `i`, with `n` rounds to go. -/
def addEntries (u : Unspecified) : ℕ → ℤ → Batch → Option Batch
  | 0, _, batch => some batch
  | n + 1, i, batch =>
    match u.entryAt i with
    | none => none
    | some entry =>
      let batch : Batch :=
        { req := { batch.req with entries := batch.req.entries ++ [entry] }
          maxIndex := entry.index.toInt
          maxTerm := entry.term.toInt }
      if u.byteSize batch.req ≥ 1024 * 1024 then some batch
      else addEntries u n (i + 1) batch

def appendRequest (u : Unspecified) (s : AnraftImpl) (context : FollowerContext) : Option Batch :=
  let req : AppendEntriesRequest :=
    { term := s.currentTerm, leaderId := s.leader, leaderCommit := s.commitIndex }
  if context.matchIndex < s.lastLogIndex then
    match u.entryAt (context.nextIndex - 1) with
    | none => none
    | some prevEntry =>
      addEntries u (s.lastLogIndex + 1 - context.nextIndex).toNat context.nextIndex
        { req := { req with
            prevLogIndex := prevEntry.index.toInt
            prevLogTerm := prevEntry.term.toInt } }
  else some { req := req }

/-- The first half of `ReplicateLogToFollower`: the batch that was sent, and what the
follower `id` answered. -/
def exchange (u : Unspecified) (s : AnraftImpl) (id : ℕ) :
    Option (Batch × AppendEntriesResponse) :=
  match s.followerContexts[id]? with
  | none => none
  | some context =>
    match s.appendRequest u context with
    | none => none
    | some batch =>
      let (sent, resp) := u.sendRequest batch.req
      if sent then some (batch, resp) else none

/-! ## The answer of a follower -/

def lowerNextIndex (s : AnraftImpl) (id : ℕ) : AnraftImpl :=
  { s with
    followerContexts := s.followerContexts.modify id fun context =>
      if context.matchIndex < context.nextIndex ∧ 1 < context.nextIndex then
        { context with nextIndex := context.nextIndex - 1 }
      else context }

/-- The local node counts as `1LL << 60`. -/
def vecMatchIndex (u : Unspecified) (s : AnraftImpl) : List ℤ :=
  s.followerContexts.mapIdx fun i context =>
    if s.options.nodes.getD i (u.outsideNode i) = s.options.localAddr then 2 ^ 60
    else context.matchIndex

/-- `size / 2 - 1` in `size_t`: it wraps for fewer than two nodes. -/
def matchPosition (size : ℕ) : ℕ := if size / 2 = 0 then 2 ^ 64 - 1 else size / 2 - 1

def applyNext (s : AnraftImpl) : AnraftImpl :=
  let s := { s with lastApplied := s.lastApplied + 1 }
  match s.applyCallbacks[s.lastApplied]? with
  | some callback =>
    let s := { s with applyCallbacks := s.applyCallbacks.erase s.lastApplied }
    { s with invoked := s.invoked ++ [(s.lastApplied, callback)] }
  | none => s

/-- The `while` loop, for at most `n` rounds. -/
def applyLoop (commitIndex : ℤ) : ℕ → AnraftImpl → AnraftImpl
  | 0, s => s
  | n + 1, s => if s.lastApplied < commitIndex then applyLoop commitIndex n s.applyNext else s

/-- `int64_t commit_index = vec_match_index[options_.nodes.size() / 2 - 1];` -/
def matchedIndex (u : Unspecified) (s : AnraftImpl) : ℤ :=
  let vecMatchIndex := (s.vecMatchIndex u).insertionSort (· ≤ ·)
  vecMatchIndex.getD (matchPosition s.options.nodes.length) u.outsideMatch

/-- The end of `ReplicateLogToFollower`. The loop counts `last_applied_` up to the
commit index, which bounds its rounds. -/
def commitMatches (u : Unspecified) (s : AnraftImpl) : AnraftImpl :=
  let commitIndex := s.matchedIndex u
  if s.commitIndex < commitIndex then
    let s := { s with commitIndex := commitIndex }
    s.applyLoop commitIndex (commitIndex - s.lastApplied).toNat
  else s

def replicateLogToFollower (u : Unspecified) (s : AnraftImpl) (id : ℕ) : AnraftImpl :=
  match s.exchange u id with
  | none => s
  | some (batch, resp) =>
    let (ok, s) := s.checkTerm resp.term
    if ok = false then s
    else if resp.success = false then s.lowerNextIndex id
    else if batch.maxIndex < 0 ∨ batch.maxTerm ≠ s.currentTerm then s
    else s.commitMatches u

/-- A log with these entries, each stored as a byte that names it, and a follower that
answers `resp`. -/
def Unspecified.ofLog (log : List LogEntry) (resp : AppendEntriesResponse) : Unspecified where
  readEntry i := if 1 ≤ i ∧ i ≤ log.length then some [UInt8.ofNat i.toNat] else none
  parseFromString bytes := bytes.head?.bind fun i => log[i.toNat - 1]?
  byteSize req := 16 * req.entries.length
  sendRequest _ := (true, resp)
  outsideNode _ := []
  outsideMatch := 0

/-! ## What a call can do -/

variable {u : Unspecified} {s : AnraftImpl} {id : ℕ} {batch : Batch}
  {resp : AppendEntriesResponse}

theorem checkTerm_eq_of_le {term : ℤ} (h : term ≤ s.currentTerm) : s.checkTerm term = (true, s) := by
  unfold checkTerm
  rw [if_neg h.not_gt]

theorem checkTerm_eq_of_lt {term : ℤ} (h : s.currentTerm < term) :
    s.checkTerm term =
      (false, { s with currentTerm := term, votedFor := [], role := .kFollower }) := by
  unfold checkTerm
  rw [if_pos h]

theorem replicate_of_exchange_none (h : s.exchange u id = none) :
    s.replicateLogToFollower u id = s := by
  unfold replicateLogToFollower
  rw [h]

/-- A follower in a newer term. -/
theorem replicate_of_newer_term (h : s.exchange u id = some (batch, resp))
    (hterm : s.currentTerm < resp.term) :
    s.replicateLogToFollower u id =
      { s with currentTerm := resp.term, votedFor := [], role := .kFollower } := by
  unfold replicateLogToFollower
  rw [h]
  dsimp only
  rw [checkTerm_eq_of_lt hterm, if_pos rfl]

theorem replicate_of_rejected (h : s.exchange u id = some (batch, resp))
    (hterm : resp.term ≤ s.currentTerm) (hrejected : resp.success = false) :
    s.replicateLogToFollower u id = s.lowerNextIndex id := by
  unfold replicateLogToFollower
  rw [h]
  dsimp only
  rw [checkTerm_eq_of_le hterm, if_neg Bool.false_ne_true.symm, if_pos hrejected]

theorem replicate_of_accepted (h : s.exchange u id = some (batch, resp))
    (hterm : resp.term ≤ s.currentTerm) (haccepted : resp.success = true) :
    s.replicateLogToFollower u id =
      if batch.maxIndex < 0 ∨ batch.maxTerm ≠ s.currentTerm then s else s.commitMatches u := by
  unfold replicateLogToFollower
  rw [h]
  dsimp only
  rw [checkTerm_eq_of_le hterm, if_neg Bool.false_ne_true.symm, haccepted, if_neg Bool.false_ne_true.symm]

/-- The call passes its guards: the follower accepts a batch whose last entry has the
current term. -/
def PassesGuards (u : Unspecified) (s : AnraftImpl) (id : ℕ) : Prop :=
  ∃ batch resp, s.exchange u id = some (batch, resp) ∧ resp.term ≤ s.currentTerm ∧
    resp.success = true ∧ ¬ (batch.maxIndex < 0 ∨ batch.maxTerm ≠ s.currentTerm)

theorem replicate_of_passesGuards (h : s.PassesGuards u id) :
    s.replicateLogToFollower u id = s.commitMatches u := by
  obtain ⟨batch, resp, hexchange, hterm, hsuccess, hguards⟩ := h
  rw [replicate_of_accepted hexchange hterm hsuccess, if_neg hguards]

/-- **Case rule.** The call does nothing, gives way to a newer term, lowers the next index
of the follower, or commits what has been matched. -/
theorem replicate_elim {P : AnraftImpl → Prop} (u : Unspecified) (s : AnraftImpl) (id : ℕ)
    (hsame : P s)
    (hnewer : ∀ term, s.currentTerm < term →
      P { s with currentTerm := term, votedFor := [], role := .kFollower })
    (hrejected : P (s.lowerNextIndex id))
    (hcommits : s.PassesGuards u id → P (s.commitMatches u)) :
    P (s.replicateLogToFollower u id) := by
  rcases hexchange : s.exchange u id with _ | ⟨batch, resp⟩
  · rw [replicate_of_exchange_none hexchange]
    exact hsame
  rcases lt_or_ge s.currentTerm resp.term with hterm | hterm
  · rw [replicate_of_newer_term hexchange hterm]
    exact hnewer _ hterm
  cases hsuccess : resp.success with
  | false =>
      rw [replicate_of_rejected hexchange hterm hsuccess]
      exact hrejected
  | true =>
      rw [replicate_of_accepted hexchange hterm hsuccess]
      split
      · exact hsame
      · next hguards => exact hcommits ⟨batch, resp, hexchange, hterm, hsuccess, hguards⟩

/-- The loop writes the apply state alone. -/
theorem applyLoop_eq (commitIndex : ℤ) (n : ℕ) (s : AnraftImpl) :
    ∃ lastApplied applyCallbacks invoked,
      s.applyLoop commitIndex n =
        { s with
          lastApplied := lastApplied
          applyCallbacks := applyCallbacks
          invoked := invoked } := by
  induction n generalizing s with
  | zero => exact ⟨_, _, _, rfl⟩
  | succ n ih =>
      unfold applyLoop
      split
      · obtain ⟨lastApplied, applyCallbacks, invoked, heq⟩ := ih s.applyNext
        rw [heq]
        unfold applyNext
        dsimp only
        split <;> exact ⟨_, _, _, rfl⟩
      · exact ⟨_, _, _, rfl⟩

/-- What has been matched is committed if that is an advance. -/
theorem commitMatches_eq (u : Unspecified) (s : AnraftImpl) :
    ∃ lastApplied applyCallbacks invoked,
      s.commitMatches u =
        { s with
          commitIndex := max s.commitIndex (s.matchedIndex u)
          lastApplied := lastApplied
          applyCallbacks := applyCallbacks
          invoked := invoked } := by
  unfold commitMatches
  dsimp only
  split
  · next hraised =>
      rw [max_eq_right hraised.le]
      exact applyLoop_eq _ _ { s with commitIndex := s.matchedIndex u }
  · next hraised =>
      rw [max_eq_left (not_lt.mp hraised)]
      exact ⟨_, _, _, rfl⟩

end AnraftImpl

end Anraft
