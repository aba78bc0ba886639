import Anraft.Impl.Elections

/-!
# Outcomes of a vote request

The guard of `ElectionCallback` is `!failed || error`: it lets through what has
failed without an error code, and returns on every success. So a successful answer
is handled as it should be only where nothing is to be done about it.
-/

namespace Anraft

namespace AnraftImpl

variable {s : AnraftImpl}

/-- What one request for a vote comes back with. -/
structure Outcome where
  response : VoteResponse
  failed : Bool
  error : ℤ
  voteNode : Bytes
deriving DecidableEq, Repr

def Outcome.Succeeded (o : Outcome) : Prop := o.failed = false ∧ o.error = 0

instance (o : Outcome) : Decidable o.Succeeded := inferInstanceAs (Decidable (_ ∧ _))

/-- The request has succeeded and its vote is granted in `term`. -/
def Outcome.Votes (o : Outcome) (term : ℤ) : Prop :=
  o.Succeeded ∧ o.response.voteGranted = true ∧ o.response.term = term

instance (o : Outcome) (term : ℤ) : Decidable (o.Votes term) :=
  inferInstanceAs (Decidable (_ ∧ _ ∧ _))

def called (s : AnraftImpl) (o : Outcome) : AnraftImpl :=
  s.electionCallback o.response o.failed o.error o.voteNode

abbrev outcomeMachine : Machine AnraftImpl Outcome := .ofFun called

def majority (s : AnraftImpl) : ℕ := s.options.nodes.length / 2 + 1

/-- The distinct nodes that have granted `term`. -/
def votersOf (term : ℤ) (outcomes : List Outcome) : Finset Bytes :=
  ((outcomes.filter (·.Votes term)).map (·.voteNode)).toFinset

/-! ## What is promised -/

/-- What the callback makes of one outcome. -/
structure HandlesOutcome (s : AnraftImpl) (o : Outcome) : Prop where
  failed : o.failed = true → o.error ≠ 0 → s.called o = s
  newer : o.Succeeded → s.currentTerm < o.response.term →
    (s.called o).role = .kFollower ∧ (s.called o).currentTerm = o.response.term ∧
      (s.called o).votedFor = [] ∧ (s.called o).votes = s.votes
  granted : o.Votes s.currentTerm → s.role = .kCandidate →
    (s.called o).votes = insert o.voteNode s.votes ∧
      ((s.called o).role = .kLeader ↔ s.majority ≤ (insert o.voteNode s.votes).card)

/-- Every outcome of the run is handled, and a candidate is the leader once a majority of
distinct nodes has granted its term. -/
structure HandlesOutcomes (s : AnraftImpl) (outcomes : List Outcome) : Prop where
  calls : outcomeMachine.Along HandlesOutcome s outcomes
  elects : ∀ early answers late, outcomes = early ++ answers ++ late →
    (∀ o ∈ answers, o.Succeeded) → (early.foldl called s).role = .kCandidate →
    (∀ o ∈ answers, o.response.term ≤ (early.foldl called s).currentTerm) →
    (early.foldl called s).majority ≤
      (votersOf (early.foldl called s).currentTerm answers).card →
    ((early ++ answers).foldl called s).role = .kLeader

/-- The request has not succeeded, or its answer changes nothing: its term is not newer,
and if it is a vote for the candidate, the vote has been counted before and there is no
majority. -/
def ChangesNothing (s : AnraftImpl) (o : Outcome) : Prop :=
  o.Succeeded → o.response.term ≤ s.currentTerm ∧
    (o.Votes s.currentTerm → s.role = .kCandidate →
      o.voteNode ∈ s.votes ∧ s.votes.card < s.majority)

instance (s : AnraftImpl) (o : Outcome) : Decidable (s.ChangesNothing o) :=
  inferInstanceAs (Decidable (_ → _ ∧ (_ → _ → _ ∧ _)))

/-! ## One call -/

/-- The guard returns on an error code, and on success. -/
theorem called_of_guard {o : Outcome} (h : o.failed = false ∨ o.error ≠ 0) : s.called o = s := by
  unfold called electionCallback
  rw [if_pos h]

theorem called_of_succeeded {o : Outcome} (h : o.Succeeded) : s.called o = s :=
  called_of_guard (.inl h.1)

/-- **One outcome.** -/
theorem handlesOutcome_iff (s : AnraftImpl) (o : Outcome) :
    HandlesOutcome s o ↔ s.ChangesNothing o := by
  constructor
  · intro h hsucceeded
    have hsame : s.called o = s := called_of_succeeded hsucceeded
    refine ⟨not_lt.mp fun hnewer => ?_, fun hvotes hcandidate => ?_⟩
    · have hterm := (h.newer hsucceeded hnewer).2.1
      rw [hsame] at hterm
      exact hnewer.ne hterm
    · obtain ⟨hinsert, hleader⟩ := h.granted hvotes hcandidate
      rw [hsame] at hinsert hleader
      have hcounted : o.voteNode ∈ s.votes := Finset.insert_eq_self.mp hinsert.symm
      refine ⟨hcounted, not_le.mp fun hmajority => ?_⟩
      rw [← hinsert] at hleader
      rw [hleader.mpr hmajority] at hcandidate
      cases hcandidate
  · intro h
    refine ⟨fun _ herror => called_of_guard (.inr herror), ?_, ?_⟩
    · intro hsucceeded hnewer
      exact absurd hnewer (h hsucceeded).1.not_gt
    · intro hvotes hcandidate
      obtain ⟨hcounted, hfew⟩ := (h hvotes.1).2 hvotes hcandidate
      rw [called_of_succeeded hvotes.1, Finset.insert_eq_self.mpr hcounted]
      refine ⟨rfl, iff_of_false ?_ hfew.not_ge⟩
      rw [hcandidate]
      exact nofun

/-! ## Runs -/

/-- Every successful answer of a run finds the state the run began in. -/
theorem changesNothing_of_mem {answers : List Outcome} (hsucceeded : ∀ o ∈ answers, o.Succeeded)
    (h : outcomeMachine.Along ChangesNothing s answers) : ∀ o ∈ answers, s.ChangesNothing o := by
  induction answers with
  | nil => simp
  | cons o answers ih =>
      obtain ⟨ho, hanswers⟩ := List.forall_mem_cons.mp hsucceeded
      rw [Machine.along_ofFun_cons, called_of_succeeded ho] at h
      exact List.forall_mem_cons.mpr ⟨h.1, ih hanswers h.2⟩

theorem mem_votersOf {term : ℤ} {outcomes : List Outcome} {v : Bytes} :
    v ∈ votersOf term outcomes ↔ ∃ o ∈ outcomes, o.Votes term ∧ o.voteNode = v := by
  unfold votersOf
  simp only [List.mem_toFinset, List.mem_map, List.mem_filter, decide_eq_true_eq, and_assoc]

/-- Answers that change nothing bring no majority to a candidate. -/
theorem votersOf_card_lt {answers : List Outcome} (hsucceeded : ∀ o ∈ answers, o.Succeeded)
    (hcandidate : s.role = .kCandidate) (h : outcomeMachine.Along ChangesNothing s answers) :
    (votersOf s.currentTerm answers).card < s.majority := by
  have hcounted : ∀ v ∈ votersOf s.currentTerm answers,
      v ∈ s.votes ∧ s.votes.card < s.majority := by
    intro v hv
    obtain ⟨o, ho, hvotes, rfl⟩ := mem_votersOf.mp hv
    exact (changesNothing_of_mem hsucceeded h o ho hvotes.1).2 hvotes hcandidate
  rcases (votersOf s.currentTerm answers).eq_empty_or_nonempty with hempty | ⟨v, hv⟩
  · rw [hempty, Finset.card_empty]
    exact Nat.succ_pos _
  · have hsubset : votersOf s.currentTerm answers ⊆ s.votes := fun w hw => (hcounted w hw).1
    exact (Finset.card_le_card hsubset).trans_lt (hcounted v hv).2

/-- **The exact condition.** The outcomes of a run are handled as promised exactly when
each answer that arrives calls for no change. -/
theorem handlesOutcomes_iff (s : AnraftImpl) (outcomes : List Outcome) :
    HandlesOutcomes s outcomes ↔ outcomeMachine.Along ChangesNothing s outcomes := by
  constructor
  · intro h
    exact h.calls.mono fun t o ho => (handlesOutcome_iff t o).mp ho
  · intro h
    refine ⟨h.mono fun t o ho => (handlesOutcome_iff t o).mpr ho, ?_⟩
    rintro early answers late rfl hsucceeded hcandidate - hmajority
    rw [List.append_assoc, Machine.along_ofFun_append, Machine.along_ofFun_append] at h
    exact absurd hmajority (votersOf_card_lt hsucceeded hcandidate h.2.1).not_ge

/-- A candidate of three hears of two grants and counts neither. -/
theorem not_handlesOutcomes_granted :
    ¬ ∀ (s : AnraftImpl) (outcomes : List Outcome), HandlesOutcomes s outcomes := by
  intro h
  have hleader := (h firstOfThree.election.2 _).elects []
    [⟨{ term := 1, voteGranted := true }, false, 0, [2]⟩,
      ⟨{ term := 1, voteGranted := true }, false, 0, [3]⟩] [] rfl
    (by decide) (by decide) (by decide) (by decide)
  exact absurd hleader (by decide)

/-! ## The client -/

/-- What `RpcCallBack` reads of a `brpc::Controller`. -/
structure Controller where
  failed : Bool
  errorCode : ℤ
  remoteSide : Bytes
deriving DecidableEq, Repr

/-- The guard of `RpcCallBack` writes to the log and goes on. -/
def rpcCallBack (s : AnraftImpl) (cntl : Controller) (resp : VoteResponse) : AnraftImpl :=
  s.electionCallback resp cntl.failed cntl.errorCode cntl.remoteSide

/-- **No outcome has an effect** if a call has failed exactly when it has an error code. -/
theorem rpcCallBack_eq {cntl : Controller} (h : cntl.failed = true ↔ cntl.errorCode ≠ 0)
    (s : AnraftImpl) (resp : VoteResponse) : s.rpcCallBack cntl resp = s := by
  apply called_of_guard (o := ⟨resp, cntl.failed, cntl.errorCode, cntl.remoteSide⟩)
  cases hfailed : cntl.failed with
  | false => exact .inl rfl
  | true => exact .inr (h.mp hfailed)

end AnraftImpl

end Anraft
