import Anraft.Base.Simulation
import Anraft.Impl.ElectionOutcomes

/-!
# Replicas that call each other

Elections, the calls they make, the answers, and the threads that replicate the log, in
any order. `Vote` leaves its response as it was made, so no answer of another replica
carries a vote, and no thread gets past its wait for the leadership.
-/

namespace Anraft

/-! ## The client -/

/-- The nodes a client has a stub for, in the order of its map. -/
structure AnraftNodeClient where
  stubs : Std.TreeSet Bytes

/-- A call of `Vote` that is under way. The calls of one election fill one response. -/
structure VoteCall where
  caller : Bytes
  callee : Bytes
  request : VoteRequest
  response : ℕ
deriving DecidableEq, Repr

namespace AnraftNodeClient

/-- A node that is named twice has one stub. -/
def ofNodes (nodes : List Bytes) : AnraftNodeClient where
  stubs := .ofList nodes

/-- `SendRequest(&RaftNode_Stub::Vote, request, response, callback)`, which returns before any
call has. -/
def sendRequest (client : AnraftNodeClient) (caller : Bytes) (request : VoteRequest)
    (response : ℕ) : List VoteCall :=
  client.stubs.toList.map fun callee => { caller, callee, request, response }

end AnraftNodeClient

namespace AnraftImpl

variable {s : AnraftImpl}

/-- `Vote` runs `done` and does nothing else. -/
def vote (s : AnraftImpl) (_request : VoteRequest) : VoteResponse × AnraftImpl := ({}, s)

/-! ## The threads -/

/-- Where a thread stands in `ReplicateLog`. -/
inductive ReplicateLog where
  /-- At the assertion the loop begins with. -/
  | loop
  /-- In the wait for the leadership. -/
  | waiting
  /-- Before the call of `ReplicateLogToFollower`. -/
  | replicating
  | timedWait
  | returned
  /-- The assertion has failed. -/
  | aborted
deriving DecidableEq, Repr

/-- One step of the thread of follower `id`. Without that follower there is no thread. -/
def replicateLog (u : Unspecified) (isStop : Bool) (s : AnraftImpl) (id : ℕ) (t : ReplicateLog) :
    ReplicateLog × AnraftImpl :=
  match s.followerContexts[id]? with
  | none => (t, s)
  | some follower =>
    match t with
    | .loop =>
      if ¬ follower.matchIndex ≤ follower.nextIndex then (.aborted, s)
      else if isStop then (.returned, s)
      else (.waiting, s)
    | .waiting =>
      -- `is_stop_` is not looked at here
      if s.role ≠ .kLeader then (.waiting, s) else (.replicating, s)
    | .replicating => (.timedWait, s.replicateLogToFollower u id)
    | .timedWait => (.loop, s)
    | .returned => (.returned, s)
    | .aborted => (.aborted, s)

end AnraftImpl

open AnraftImpl

/-! ## The system -/

/-- The replicas by their addresses, with the threads of each, the calls under way and the
responses that have been allocated for them. -/
structure Replicas where
  impl : Bytes → AnraftImpl
  client : Bytes → AnraftNodeClient
  isStop : Bytes → Bool
  threads : Bytes → ℕ → ReplicateLog
  responses : List VoteResponse := []
  calls : List VoteCall := []

namespace Replicas

inductive Action where
  /-- A replica starts an election. -/
  | election (i : Bytes)
  /-- A replica serves the `k`-th call. -/
  | vote (k : ℕ)
  /-- Another program answers the `k`-th call. -/
  | answer (k : ℕ) (response : VoteResponse)
  /-- The `k`-th call is over, answered or not. -/
  | callBack (k : ℕ) (cntl : Controller)
  /-- A thread does its next step. -/
  | replicateLog (i : Bytes) (id : ℕ) (u : AnraftImpl.Unspecified)

def election (c : Replicas) (i : Bytes) : Replicas :=
  let (request, s) := (c.impl i).election
  let c := { c with impl := Function.update c.impl i s }
  match request with
  | none => c
  | some request =>
    { c with
      responses := c.responses ++ [{}]
      calls := c.calls ++ (c.client i).sendRequest i request c.responses.length }

def vote (c : Replicas) (call : VoteCall) : Replicas :=
  let (response, s) := (c.impl call.callee).vote call.request
  { c with
    impl := Function.update c.impl call.callee s
    responses := c.responses.set call.response response }

def callBack (c : Replicas) (k : ℕ) (call : VoteCall) (cntl : Controller) : Replicas :=
  { c with
    impl := Function.update c.impl call.caller
      ((c.impl call.caller).rpcCallBack cntl (c.responses.getD call.response {}))
    calls := c.calls.eraseIdx k }

def replicateLog (c : Replicas) (i : Bytes) (id : ℕ) (u : AnraftImpl.Unspecified) : Replicas :=
  let (t, s) := (c.impl i).replicateLog u (c.isStop i) id (c.threads i id)
  { c with
    impl := Function.update c.impl i s
    threads := Function.update c.threads i (Function.update (c.threads i) id t) }

def act (c : Replicas) : Action → Replicas
  | .election i => c.election i
  | .vote k => (c.calls[k]?).elim c c.vote
  | .answer k response =>
    (c.calls[k]?).elim c fun call => { c with responses := c.responses.set call.response response }
  | .callBack k cntl => (c.calls[k]?).elim c fun call => c.callBack k call cntl
  | .replicateLog i id u => c.replicateLog i id u

def after (c : Replicas) (run : List Action) : Replicas := run.foldl act c

/-- Every call is served by a replica, or by nobody. -/
def Action.IsOwn : Action → Prop
  | .answer .. => False
  | _ => True

instance : DecidablePred Action.IsOwn
  | .answer .. => inferInstanceAs (Decidable False)
  | .election _ | .vote _ | .callBack .. | .replicateLog .. => inferInstanceAs (Decidable True)

def Action.isElection (i : Bytes) : Action → Bool
  | .election j => j = i
  | _ => false

/-- How many elections replica `i` starts in a run. -/
def elections (i : Bytes) (run : List Action) : ℕ := run.countP (Action.isElection i)

/-! ## Nobody leads -/

/-- A thread that has not been let through. -/
def ReplicateLog.IsHeld (t : ReplicateLog) : Prop := t = .loop ∨ t = .waiting ∨ t = .returned

/-- Replicas before their first election. -/
structure Idle (c : Replicas) : Prop where
  role : ∀ i, (c.impl i).role ≠ .kLeader
  contexts : ∀ i, ∀ context ∈ (c.impl i).followerContexts, context.matchIndex ≤ context.nextIndex
  threads : ∀ i id, c.threads i id = .loop
  responses : c.responses = []

/-- One replica after it has stood for election `n` times. -/
structure Stood (n : ℕ) (start s : AnraftImpl) : Prop where
  role : s.role ≠ .kLeader
  kept : ∃ term votedFor role,
    s = { start with currentTerm := term, votedFor := votedFor, role := role }
  term : 0 ≤ start.currentTerm → s.currentTerm = start.currentTerm + n

namespace Stood

variable {n : ℕ} {start s : AnraftImpl}

theorem followerContexts (h : Stood n start s) : s.followerContexts = start.followerContexts := by
  obtain ⟨_, _, _, rfl⟩ := h.kept
  rfl

theorem election (h : Stood n start s) : Stood (n + 1) start s.election.2 := by
  rw [election_eq h.role]
  refine ⟨nofun, ?_, fun hterm => ?_⟩
  · obtain ⟨_, _, _, rfl⟩ := h.kept
    exact ⟨_, _, _, rfl⟩
  · rw [Nat.cast_succ, ← add_assoc, ← h.term hterm]

/-- A response that nobody has touched gets a candidate nowhere, however the call ended. -/
theorem electionCallback (h : Stood n start s) (failed : Bool) (error : ℤ) (voteNode : Bytes) :
    Stood n start (s.electionCallback {} failed error voteNode) := by
  unfold AnraftImpl.electionCallback
  split
  · exact h
  dsimp only
  rw [if_pos (.inr (.inl rfl))]
  split
  · next hnegative =>
      refine ⟨nofun, ?_, fun hterm => ?_⟩
      · obtain ⟨_, _, _, rfl⟩ := h.kept
        exact ⟨_, _, _, rfl⟩
      · rw [h.term hterm] at hnegative
        exact absurd hnegative (add_nonneg hterm (Nat.cast_nonneg n)).not_gt
  · exact h

end Stood

/-- What a run of own actions keeps. -/
structure Leaderless (start : Replicas) (run : List Action) (c : Replicas) : Prop where
  stood : ∀ i, Stood (elections i run) (start.impl i) (c.impl i)
  threads : ∀ i id, ReplicateLog.IsHeld (c.threads i id)
  responses : ∀ response ∈ c.responses, response = {}

theorem elections_snoc (i : Bytes) (run : List Action) (a : Action) :
    elections i (run ++ [a]) = elections i run + if a.isElection i then 1 else 0 := by
  rw [elections, List.countP_append, List.countP_singleton]
  rfl

/-- A thread that is held finds the assertion true and the leadership with another. -/
theorem replicateLog_of_isHeld {s : AnraftImpl} (hrole : s.role ≠ .kLeader)
    (hcontexts : ∀ context ∈ s.followerContexts, context.matchIndex ≤ context.nextIndex)
    {t : ReplicateLog} (ht : ReplicateLog.IsHeld t) (u : AnraftImpl.Unspecified) (isStop : Bool)
    (id : ℕ) :
    ReplicateLog.IsHeld (s.replicateLog u isStop id t).1 ∧ (s.replicateLog u isStop id t).2 = s := by
  unfold AnraftImpl.replicateLog
  split
  · exact ⟨ht, rfl⟩
  next follower hfollower =>
  have hassert := hcontexts follower (List.mem_of_getElem? hfollower)
  rcases ht with rfl | rfl | rfl
  · dsimp only
    rw [if_neg (not_not.mpr hassert)]
    split
    · exact ⟨.inr (.inr rfl), rfl⟩
    · exact ⟨.inr (.inl rfl), rfl⟩
  · dsimp only
    rw [if_pos hrole]
    exact ⟨.inr (.inl rfl), rfl⟩
  · exact ⟨.inr (.inr rfl), rfl⟩

/-- **One action.** -/
theorem Leaderless.act {start c : Replicas} {run : List Action} {a : Action}
    (h : Leaderless start run c) (hstart : start.Idle) (ha : a.IsOwn) :
    Leaderless start (run ++ [a]) (c.act a) := by
  -- all but an election leave the count alone
  have hsame : ∀ i, a.isElection i = false → elections i (run ++ [a]) = elections i run := by
    intro i hi
    rw [elections_snoc, hi]
    rfl
  cases a with
  | election i =>
      have hstood : ∀ j, Stood (elections j (run ++ [.election i])) (start.impl j)
          (Function.update c.impl i (c.impl i).election.2 j) := by
        intro j
        by_cases hj : j = i
        · subst hj
          have hcount : elections j (run ++ [.election j]) = elections j run + 1 := by
            simp [elections_snoc, Action.isElection]
          rw [Function.update_self, hcount]
          exact (h.stood j).election
        · rw [Function.update_of_ne hj, hsame j (decide_eq_false (Ne.symm hj))]
          exact h.stood j
      unfold Replicas.act Replicas.election
      dsimp only
      split
      · exact ⟨hstood, h.threads, h.responses⟩
      · refine ⟨hstood, h.threads, fun response hresponse => ?_⟩
        rcases List.mem_append.mp hresponse with hold | hnew
        · exact h.responses response hold
        · exact List.mem_singleton.mp hnew
  | vote k =>
      have hstood : ∀ j, Stood (elections j (run ++ [.vote k])) (start.impl j) (c.impl j) :=
        fun j => hsame j rfl ▸ h.stood j
      show Leaderless start _ ((c.calls[k]?).elim c c.vote)
      rcases c.calls[k]? with _ | call
      · exact ⟨hstood, h.threads, h.responses⟩
      · refine ⟨fun j => ?_, h.threads, fun response hresponse => ?_⟩
        · show Stood _ _ (Function.update c.impl call.callee (c.impl call.callee) j)
          rw [Function.update_eq_self]
          exact hstood j
        · rcases List.mem_or_eq_of_mem_set hresponse with hold | hnew
          · exact h.responses response hold
          · exact hnew
  | answer k response => exact ha.elim
  | callBack k cntl =>
      have hstood : ∀ j, Stood (elections j (run ++ [.callBack k cntl])) (start.impl j) (c.impl j) :=
        fun j => hsame j rfl ▸ h.stood j
      show Leaderless start _ ((c.calls[k]?).elim c fun call => c.callBack k call cntl)
      rcases c.calls[k]? with _ | call
      · exact ⟨hstood, h.threads, h.responses⟩
      · refine ⟨fun j => ?_, h.threads, h.responses⟩
        have hdefault : c.responses.getD call.response {} = {} := by
          rw [List.getD_eq_getElem?_getD]
          rcases hresponse : c.responses[call.response]? with _ | response
          · rfl
          · exact h.responses response (List.mem_of_getElem? hresponse)
        show Stood _ _ (Function.update c.impl call.caller _ j)
        by_cases hj : j = call.caller
        · subst hj
          rw [Function.update_self, hdefault]
          exact (hstood _).electionCallback _ _ _
        · rw [Function.update_of_ne hj]
          exact hstood j
  | replicateLog i id u =>
      have hstood := h.stood i
      obtain ⟨hheld, hkept⟩ := replicateLog_of_isHeld hstood.role
        (hstood.followerContexts ▸ hstart.contexts i) (h.threads i id) u (c.isStop i) id
      refine ⟨fun j => ?_, fun j k => ?_, h.responses⟩
      · show Stood _ _ (Function.update c.impl i ((c.impl i).replicateLog u (c.isStop i) id _).2 j)
        rw [hkept, Function.update_eq_self, hsame j rfl]
        exact h.stood j
      · show ReplicateLog.IsHeld
          (Function.update c.threads i (Function.update (c.threads i) id _) j k)
        by_cases hj : j = i
        · subst hj
          rw [Function.update_self]
          by_cases hk : k = id
          · subst hk
            rw [Function.update_self]
            exact hheld
          · rw [Function.update_of_ne hk]
            exact h.threads j k
        · rw [Function.update_of_ne hj]
          exact h.threads j k

/-- **No replica ever leads.** However the elections, the calls, their ends and the threads of
all replicas interleave, and whatever is reported of each call: as long as replicas answer
replicas, none becomes leader. What it holds stays as it was but for its term, its vote and
its role, the term counts its own elections, and its threads never send an entry. -/
theorem no_replica_leads {start : Replicas} (hstart : start.Idle) {run : List Action}
    (hrun : ∀ a ∈ run, a.IsOwn) (i : Bytes) :
    ((start.after run).impl i).role ≠ .kLeader ∧
      (∃ term votedFor role, (start.after run).impl i =
        { start.impl i with currentTerm := term, votedFor := votedFor, role := role }) ∧
      (0 ≤ (start.impl i).currentTerm → ((start.after run).impl i).currentTerm =
        (start.impl i).currentTerm + elections i run) ∧
      ∀ id, ReplicateLog.IsHeld ((start.after run).threads i id) := by
  have hend : Leaderless start run (start.after run) := by
    refine Machine.traced_invariant (f := act) (C := fun _ a => a.IsOwn)
      (I := fun run => Leaderless start run (start.after run)) ?_ ?_
      (Machine.along_of_forall start hrun)
    · refine ⟨fun i => ⟨hstart.role i, ⟨_, _, _, rfl⟩, fun _ => ?_⟩, fun i id => ?_, ?_⟩
      · exact (add_zero _).symm
      · exact .inl (hstart.threads i id)
      · show ∀ response ∈ start.responses, response = {}
        rw [hstart.responses]
        exact nofun
    · intro run a ha h
      show Leaderless start (run ++ [a]) ((run ++ [a]).foldl act start)
      rw [List.foldl_append]
      exact h.act hstart ha
  obtain ⟨hrole, hkept, hterm⟩ := hend.stood i
  exact ⟨hrole, hkept, hterm, hend.threads i⟩

/-- Three replicas that know each other. -/
def three : Replicas where
  impl i := { options := { nodes := [[1], [2], [3]], localAddr := i } }
  client _ := .ofNodes [[1], [2], [3]]
  isStop _ := false
  threads _ _ := .loop

theorem three_idle : three.Idle where
  role _ := nofun
  contexts _ := nofun
  threads _ _ := rfl
  responses := rfl

/-- Replica 1 stands twice, and all its calls of the first election come back in the one way
the callback lets through. -/
def twoElections : List Action :=
  [.election [1], .vote 1, .vote 2, .callBack 2 ⟨true, 0, [3]⟩, .callBack 1 ⟨true, 0, [2]⟩,
    .callBack 0 ⟨true, 0, [1]⟩, .election [1], .replicateLog [1] 0 (.ofLog [] {})]

theorem no_replica_leads_three :
    ((three.after twoElections).impl [1]).role ≠ .kLeader ∧
      ((three.after twoElections).impl [1]).currentTerm = 2 ∧
      (three.after twoElections).calls.length = 3 := by
  have hrun : ∀ a ∈ twoElections, a.IsOwn := by decide
  obtain ⟨hrole, -, hterm, -⟩ := no_replica_leads three_idle hrun [1]
  exact ⟨hrole, hterm le_rfl, by decide +kernel⟩

/-! ## The assertion of the threads -/

/-- What a follower's context may become: the next index falls, but not below the match or
below one. -/
structure Lowered (context context' : FollowerContext) : Prop where
  matchIndex : context'.matchIndex = context.matchIndex
  le : context'.nextIndex ≤ context.nextIndex
  ge : min context.nextIndex (max context.matchIndex 1) ≤ context'.nextIndex

namespace Lowered

theorem refl (context : FollowerContext) : Lowered context context :=
  ⟨rfl, le_rfl, min_le_left _ _⟩

theorem trans {a b c : FollowerContext} (hab : Lowered a b) (hbc : Lowered b c) : Lowered a c where
  matchIndex := hbc.matchIndex.trans hab.matchIndex
  le := hbc.le.trans hab.le
  ge := by
    apply le_trans (le_min hab.ge ?_) hbc.ge
    rw [hab.matchIndex]
    exact min_le_right _ _

end Lowered

/-- Every context of the replica. -/
def LoweredAll (s s' : AnraftImpl) : Prop :=
  ∀ id : ℕ, Option.Rel Lowered s.followerContexts[id]? s'.followerContexts[id]?

namespace LoweredAll

variable {s t t' : AnraftImpl}

theorem refl (s : AnraftImpl) : LoweredAll s s := by
  intro id
  rcases s.followerContexts[id]? with _ | context
  · exact .none
  · exact .some (Lowered.refl context)

theorem of_eq (h : LoweredAll s t) (heq : t'.followerContexts = t.followerContexts) :
    LoweredAll s t' := by
  unfold LoweredAll
  rw [heq]
  exact h

/-- A rejected request. -/
theorem lowerNextIndex (h : LoweredAll s t) (id : ℕ) : LoweredAll s (t.lowerNextIndex id) := by
  intro k
  have hk := h k
  unfold AnraftImpl.lowerNextIndex
  dsimp only
  rw [List.getElem?_modify]
  generalize s.followerContexts[k]? = a, t.followerContexts[k]? = b at hk
  cases hk with
  | none => exact .none
  | some hlowered =>
      refine .some (hlowered.trans ?_)
      split
      · dsimp only
        split
        · next hroom =>
            refine ⟨rfl, sub_le_self _ zero_le_one, (min_le_right _ _).trans (max_le ?_ ?_)⟩
            · exact Int.le_sub_one_of_lt hroom.1
            · exact Int.le_sub_one_of_lt hroom.2
        · exact .refl _
      · exact .refl _

theorem replicateLogToFollower (h : LoweredAll s t) (u : AnraftImpl.Unspecified) (id : ℕ) :
    LoweredAll s (t.replicateLogToFollower u id) := by
  apply replicate_elim (P := LoweredAll s) u t id
  · exact h
  · intro _ _
    exact h.of_eq rfl
  · exact h.lowerNextIndex id
  · intro _
    obtain ⟨_, _, _, heq⟩ := commitMatches_eq u t
    rw [heq]
    exact h.of_eq rfl

theorem electionCallback (h : LoweredAll s t) (response : VoteResponse) (failed : Bool) (error : ℤ)
    (voteNode : Bytes) : LoweredAll s (t.electionCallback response failed error voteNode) := by
  unfold AnraftImpl.electionCallback
  split
  · exact h
  extract_lets term granted t'
  have hyield : LoweredAll s t' := by
    unfold t'
    split
    · exact h.of_eq rfl
    · exact h
  split
  · exact hyield
  · apply hyield.of_eq
    unfold countVote
    dsimp only
    split <;> rfl

theorem election (h : LoweredAll s t) : LoweredAll s t.election.2 := by
  unfold AnraftImpl.election
  split
  · exact h
  · exact h.of_eq rfl

/-- A thread that finds the match above the next index finds it at the start, too. -/
theorem replicateLog (h : LoweredAll s t)
    (hstart : ∀ context ∈ s.followerContexts, context.matchIndex ≤ context.nextIndex)
    (u : AnraftImpl.Unspecified) (isStop : Bool) (id : ℕ) {thread : ReplicateLog}
    (hthread : thread ≠ .aborted) :
    (t.replicateLog u isStop id thread).1 ≠ .aborted ∧
      LoweredAll s (t.replicateLog u isStop id thread).2 := by
  unfold AnraftImpl.replicateLog
  split
  · exact ⟨hthread, h⟩
  next follower hfollower =>
  cases thread with
  | loop =>
      have hid := h id
      rw [hfollower] at hid
      have hassert : follower.matchIndex ≤ follower.nextIndex := by
        cases hcontext : s.followerContexts[id]? with
        | none =>
            rw [hcontext] at hid
            cases hid
        | some context =>
            rw [hcontext] at hid
            cases hid with
            | some hlowered =>
                rw [hlowered.matchIndex]
                apply le_trans (le_min ?_ (le_max_left _ _)) hlowered.ge
                exact hstart context (List.mem_of_getElem? hcontext)
      dsimp only
      rw [if_neg (not_not.mpr hassert)]
      split <;> exact ⟨nofun, h⟩
  | waiting =>
      dsimp only
      split <;> exact ⟨nofun, h⟩
  | replicating => exact ⟨nofun, h.replicateLogToFollower u id⟩
  | timedWait => exact ⟨nofun, h⟩
  | returned => exact ⟨nofun, h⟩
  | aborted => exact absurd rfl hthread

end LoweredAll

/-- What every run keeps. -/
structure Asserted (start c : Replicas) : Prop where
  contexts : ∀ i, LoweredAll (start.impl i) (c.impl i)
  threads : ∀ i id, c.threads i id ≠ .aborted

theorem Asserted.act {start c : Replicas} (h : Asserted start c)
    (hstart : ∀ i, ∀ context ∈ (start.impl i).followerContexts,
      context.matchIndex ≤ context.nextIndex) (a : Action) : Asserted start (c.act a) := by
  have hupdate : ∀ (i : Bytes) (s : AnraftImpl), LoweredAll (start.impl i) s → ∀ j,
      LoweredAll (start.impl j) (Function.update c.impl i s j) := by
    intro i s hs j
    by_cases hj : j = i
    · subst hj
      rwa [Function.update_self]
    · rw [Function.update_of_ne hj]
      exact h.contexts j
  cases a with
  | election i =>
      have hcontexts := hupdate i (c.impl i).election.2 (h.contexts i).election
      show Asserted start (c.election i)
      unfold Replicas.election
      dsimp only
      split <;> exact ⟨hcontexts, h.threads⟩
  | vote k =>
      show Asserted start ((c.calls[k]?).elim c c.vote)
      rcases c.calls[k]? with _ | call
      · exact h
      · exact ⟨hupdate call.callee _ (h.contexts call.callee), h.threads⟩
  | answer k response =>
      show Asserted start ((c.calls[k]?).elim c fun call =>
        { c with responses := c.responses.set call.response response })
      rcases c.calls[k]? with _ | call
      · exact h
      · exact ⟨h.contexts, h.threads⟩
  | callBack k cntl =>
      show Asserted start ((c.calls[k]?).elim c fun call => c.callBack k call cntl)
      rcases c.calls[k]? with _ | call
      · exact h
      · exact ⟨hupdate call.caller _ ((h.contexts call.caller).electionCallback _ _ _ _), h.threads⟩
  | replicateLog i id u =>
      obtain ⟨hthread, hcontexts⟩ :=
        (h.contexts i).replicateLog (hstart i) u (c.isStop i) id (h.threads i id)
      refine ⟨hupdate i _ hcontexts, fun j k => ?_⟩
      show Function.update c.threads i (Function.update (c.threads i) id _) j k ≠ .aborted
      by_cases hj : j = i
      · subst hj
        rw [Function.update_self]
        by_cases hk : k = id
        · subst hk
          rwa [Function.update_self]
        · rw [Function.update_of_ne hk]
          exact h.threads j k
      · rw [Function.update_of_ne hj]
        exact h.threads j k

/-- **The assertion of `ReplicateLog` never fails.** In every interleaving, with whatever
answers of whatever programs, no thread aborts; the match of each follower stays, and its next
index only falls, never below that match and never below one. -/
theorem assertion_never_fails {start : Replicas}
    (hcontexts : ∀ i, ∀ context ∈ (start.impl i).followerContexts,
      context.matchIndex ≤ context.nextIndex)
    (hthreads : ∀ i id, start.threads i id ≠ .aborted) (run : List Action) :
    ∀ i id, (start.after run).threads i id ≠ .aborted ∧
      Option.Rel Lowered (start.impl i).followerContexts[id]?
        ((start.after run).impl i).followerContexts[id]? := by
  have hend : Asserted start (start.after run) := by
    apply Machine.foldl_invariant (C := fun _ _ => True) (fun c a _ hc => hc.act hcontexts a)
      (Machine.along_of_forall start fun _ _ => trivial)
    exact ⟨fun i => .refl _, hthreads⟩
  exact fun i id => ⟨hend.threads i id, hend.contexts i id⟩

/-- A leader whose follower rejects every request. -/
def rejected : Replicas where
  impl i :=
    { options := { nodes := [[1], [2]], localAddr := i }
      role := .kLeader
      followerContexts := [⟨3, 0⟩] }
  client _ := .ofNodes [[1], [2]]
  isStop _ := false
  threads _ _ := .loop

/-- Four rounds of the thread of that follower. -/
def fourRounds : List Action :=
  List.replicate 16 (.replicateLog [1] 0 (.ofLog [] {}))

theorem assertion_never_fails_rejected :
    (rejected.after fourRounds).threads [1] 0 ≠ .aborted ∧
      ((rejected.after fourRounds).impl [1]).followerContexts[0]? = some ⟨1, 0⟩ := by
  have hcontexts : ∀ i, ∀ context ∈ (rejected.impl i).followerContexts,
      context.matchIndex ≤ context.nextIndex := by
    intro i context hcontext
    rw [List.mem_singleton.mp hcontext]
    decide
  have hthreads : ∀ i id, rejected.threads i id ≠ .aborted := fun _ _ h => by cases h
  exact ⟨(assertion_never_fails hcontexts hthreads fourRounds [1] 0).1, by decide +kernel⟩

end Replicas

end Anraft
