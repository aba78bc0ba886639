import Anraft.Base.Simulation
import Anraft.RaftRun

/-!
# One vote per term

`Step` overrides `vote_` for every request of a term above `term_` and never
raises `term_`. So it takes only two candidates in one newer term for two votes in it. In
the terms up to `term_` the vote holds for as long as nothing moves `vote_`: a request of a
newer term does, and so does a campaign, which is held in no new term.
-/

namespace Anraft

namespace Raft

/-- The requests granted, in order. -/
def grants (history : List Event) : List Message :=
  history.filterMap fun
    | .grantVote msg => some msg
    | _ => none

/-- All votes of a term went to one candidate. -/
def OneVotePerTerm (history : List Event) : Prop :=
  ∀ m ∈ grants history, ∀ m' ∈ grants history, m.term = m'.term → m.from_ = m'.from_

theorem grants_append (h h' : List Event) : grants (h ++ h') = grants h ++ grants h' :=
  List.filterMap_append

theorem NoElection.grants {r r' : Raft} (h : NoElection r r') :
    grants r'.history = grants r.history := by
  obtain ⟨es, heq, hes⟩ := h.history
  have hnil : Raft.grants es = [] := by
    apply List.filterMap_eq_nil_iff.mpr
    intro e he
    have helection := hes e he
    cases e <;> first | rfl | cases helection
  rw [heq, grants_append, hnil, List.append_nil]

/-- A step that is no `MsgVote` grants nothing. -/
theorem grants_step_of_ne (u : Unspecified) (r : Raft) {msg : Message} (hne : msg.type ≠ .msgVote) :
    grants (r.step u msg).2.history = grants r.history := by
  cases step_cases u r msg with
  | campaign _ hsent =>
      rw [hsent.history]
      exact (grants_append _ _).trans (List.append_nil _)
  | grant htype => exact absurd htype hne
  | voteResp htype _ heq =>
      rw [heq, stepCandidate_history htype, grants_append, grants_append]
      split
      · split <;> simp [grants]
      · simp [grants]
  | quiet h => exact h.grants

/-! ## What a step grants -/

/-- A step and the state it is made in. -/
abbrev Moment : Type := Raft × Unspecified × Message

namespace Moment

abbrev node (a : Moment) : Raft := a.1

abbrev answers (a : Moment) : Unspecified := a.2.1

abbrev msg (a : Moment) : Message := a.2.2

/-- A voting node is asked for its vote, and `IsUpToDate` has nothing against it. -/
def IsAccepted (a : Moment) : Prop :=
  a.msg.type = .msgVote ∧ a.node.isLearner = false ∧
    a.node.raftlog.isUpToDate a.answers.toUnwritten a.msg.index a.msg.term = true

instance (a : Moment) : Decidable a.IsAccepted := inferInstanceAs (Decidable (_ ∧ _))

/-- `vote_` names somebody other than the sender. -/
def VotesElsewhere (a : Moment) : Prop := a.node.vote ≠ 0 ∧ a.node.vote ≠ a.msg.from_

instance (a : Moment) : Decidable a.VotesElsewhere := inferInstanceAs (Decidable (_ ∧ _))

/-- The request granted in the step. -/
def granted (a : Moment) : Option Message :=
  if a.msg.type = .msgVote ∧ a.node.isLearner = false ∧ a.node.canVote a.answers a.msg = true then
    some a.msg
  else none

theorem granted_eq_some_iff {a : Moment} {m : Message} :
    a.granted = some m ↔
      (a.msg.type = .msgVote ∧ a.node.isLearner = false ∧ a.node.canVote a.answers a.msg = true) ∧
        a.msg = m := by
  unfold granted
  rw [Option.ite_none_right_eq_some, Option.some_inj]

/-- Against a request of a newer term `vote_` counts for nothing. -/
theorem granted_eq_some_iff_not_votesElsewhere {a : Moment} {m : Message} :
    a.granted = some m ↔
      (a.IsAccepted ∧ (a.node.term < a.msg.term ∨ ¬ a.VotesElsewhere)) ∧ a.msg = m := by
  have htest : a.node.canVote a.answers a.msg = true ↔
      a.node.raftlog.isUpToDate a.answers.toUnwritten a.msg.index a.msg.term = true ∧
        (a.node.term < a.msg.term ∨ ¬ a.VotesElsewhere) := by
    simp only [canVote, VotesElsewhere, Bool.and_eq_true, Bool.or_eq_true, beq_iff_eq,
      decide_eq_true_eq, not_and_or, not_not]
    rw [and_comm, or_comm (a := a.node.term < a.msg.term)]
  rw [granted_eq_some_iff, htest, IsAccepted]
  simp only [and_assoc]

end Moment

theorem grants_step (r : Raft) (x : Unspecified × Message) :
    grants (r.step x.1 x.2).2.history = grants r.history ++ (Moment.granted (r, x)).toList := by
  unfold Moment.granted
  by_cases htype : x.2.type = .msgVote
  · rw [step_of_msgVote htype]
    by_cases hgrant : r.isLearner = false ∧ r.canVote x.1 x.2 = true
    · rw [if_pos hgrant, if_pos ⟨htype, hgrant⟩]
      exact grants_append _ _
    · rw [if_neg hgrant, if_neg fun h => hgrant h.2]
      exact (List.append_nil _).symm
  · rw [grants_step_of_ne x.1 r htype, if_neg fun h => htype h.1]
    exact (List.append_nil _).symm

/-! ## Rivals -/

/-- Where two candidates ask in one term and `IsUpToDate` has nothing against either, the term
is not above that of the node, and one of the two finds another candidate in `vote_`. -/
def RivalsRefused (a b : Moment) : Prop :=
  a.IsAccepted → b.IsAccepted → a.msg.term = b.msg.term → a.msg.from_ ≠ b.msg.from_ →
    b.msg.term ≤ b.node.term ∧ (a.VotesElsewhere ∨ b.VotesElsewhere)

instance (a b : Moment) : Decidable (RivalsRefused a b) :=
  inferInstanceAs (Decidable (_ → _ → _ → _ → _))

theorem oneVotePerTerm_iff_pairwise (history : List Event) :
    OneVotePerTerm history ↔
      (grants history).Pairwise fun m m' => m.term = m'.term → m.from_ = m'.from_ := by
  constructor
  · exact fun hone => List.pairwise_of_forall_mem_list hone
  · intro hpair m hm m' hm'
    have : Std.Symm fun m m' : Message => m.term = m'.term → m.from_ = m'.from_ :=
      ⟨fun _ _ h heq => (h heq.symm).symm⟩
    exact hpair.forall_of_forall (fun _ _ _ => rfl) hm hm'

/-- **Two steps** of a node that has kept its term. -/
theorem rivalsRefused_iff {a b : Moment} (hterm : a.node.term = b.node.term) :
    RivalsRefused a b ↔
      ∀ m, a.granted = some m → ∀ m', b.granted = some m' →
        m.term = m'.term → m.from_ = m'.from_ := by
  simp only [Moment.granted_eq_some_iff_not_votesElsewhere]
  constructor
  · rintro h _ ⟨⟨ha, hatest⟩, rfl⟩ _ ⟨⟨hb, hbtest⟩, rfl⟩ heq
    by_contra hne
    obtain ⟨hle, helsewhere⟩ := h ha hb heq hne
    have hafree := hatest.resolve_left (not_lt.mpr (heq ▸ hterm ▸ hle))
    have hbfree := hbtest.resolve_left (not_lt.mpr hle)
    exact helsewhere.elim hafree hbfree
  · intro h ha hb heq hne
    by_contra hrefused
    rw [not_and_or, not_le, not_or] at hrefused
    have hatest : a.node.term < a.msg.term ∨ ¬ a.VotesElsewhere :=
      hrefused.imp (fun hlt => heq ▸ hterm ▸ hlt) And.left
    have hbtest : b.node.term < b.msg.term ∨ ¬ b.VotesElsewhere := hrefused.imp_right And.right
    exact hne (h _ ⟨⟨ha, hatest⟩, rfl⟩ _ ⟨⟨hb, hbtest⟩, rfl⟩ heq)

/-- The steps of a run, each with the state it is made in. -/
def moments (r : Raft) (inputs : List (Unspecified × Message)) : List Moment :=
  Machine.moments (fun r x => (r.step x.1 x.2).2) r inputs

theorem term_of_mem_moments {r : Raft} {inputs : List (Unspecified × Message)} :
    ∀ a ∈ r.moments inputs, a.node.term = r.term :=
  Machine.forall_mem_moments (I := fun s : Raft => s.term = r.term)
    (fun s x hs => (step_sameConfig x.1 s x.2).term.trans hs) inputs rfl

theorem grants_stepAll (r : Raft) (inputs : List (Unspecified × Message)) :
    grants (r.stepAll inputs).history =
      grants r.history ++ (r.moments inputs).filterMap Moment.granted :=
  Machine.foldl_recorded (fun r => grants r.history) grants_step r inputs

/-! ## A vote that is kept -/

/-- The step takes `vote_` from nobody: a request that is granted finds it unset or with the
sender, who is somebody, and a campaign finds it unset or with the node itself. -/
def KeepsVote (r : Raft) (x : Unspecified × Message) : Prop :=
  (x.2.type = .msgVote → r.isLearner = false → r.canVote x.1 x.2 = true →
    x.2.from_ ≠ 0 ∧ (r.vote = 0 ∨ r.vote = x.2.from_)) ∧
  (x.2.type = .msgHup → r.state ≠ .stateLeader → r.preVote = false → r.vote = 0 ∨ r.vote = r.id)

instance (r : Raft) (x : Unspecified × Message) : Decidable (r.KeepsVote x) :=
  inferInstanceAs (Decidable (_ ∧ _))

/-- `vote_` names whoever has been voted for. -/
def RemembersVote (r : Raft) : Prop := ∀ g ∈ grants r.history, g.from_ ≠ 0 ∧ r.vote = g.from_

theorem vote_step_of_granted {r : Raft} {x : Unspecified × Message} {m : Message}
    (h : Moment.granted (r, x) = some m) : (r.step x.1 x.2).2.vote = m.from_ := by
  obtain ⟨⟨htype, hgrant⟩, rfl⟩ := Moment.granted_eq_some_iff.mp h
  rw [step_of_msgVote htype, if_pos hgrant]
  rfl

/-- Where no vote is cast, `vote_` is left alone or a campaign sets it. -/
theorem vote_step_of_not_granted {r : Raft} {x : Unspecified × Message}
    (h : Moment.granted (r, x) = none) :
    (r.step x.1 x.2).2.vote = r.vote ∨
      (x.2.type = .msgHup ∧ r.state ≠ .stateLeader ∧ r.preVote = false ∧
        (r.step x.1 x.2).2.vote = r.id) := by
  apply step_elim (P := fun r' => r'.vote = r.vote ∨
    (x.2.type = .msgHup ∧ r.state ≠ .stateLeader ∧ r.preVote = false ∧ r'.vote = r.id)) x.1 r x.2
  · intro _
    exact .inl rfl
  · intro htype hstate hpreVote
    exact .inr ⟨htype, hstate, hpreVote, (campaign_sendsOnly x.1 r).noElection.vote⟩
  · intro htype hlearner hvote
    have hgranted : Moment.granted (r, x) = some x.2 := if_pos ⟨htype, hlearner, hvote⟩
    cases h.symm.trans hgranted
  · intro _ _
    exact .inl (stepFollower_noElection x.1 r x.2).vote
  · intro _ _
    refine .inl ?_
    by_cases hresp : isVoteResp x.2.type = true
    · rw [stepCandidate_of_voteResp hresp]
      split
      · split
        · rfl
        · exact (bcastAppend_sendsOnly x.1 ((r.polled x.2).becomeLeader x.1)).noElection.vote
      · rfl
    · rw [stepCandidate_of_not_voteResp hresp]
  · intro _ _
    exact .inl (stepLeader_noElection x.1 r x.2).vote

/-- **One step.** -/
theorem RemembersVote.step {r : Raft} {x : Unspecified × Message} (h : r.RemembersVote)
    (hkeeps : r.KeepsVote x) : RemembersVote (r.step x.1 x.2).2 := by
  intro g hg
  rw [grants_step] at hg
  cases hgranted : Moment.granted (r, x) with
  | none =>
      rw [hgranted] at hg
      obtain ⟨hne, hvote⟩ := h g (by simpa using hg)
      refine ⟨hne, ?_⟩
      rcases vote_step_of_not_granted hgranted with hsame | ⟨htype, hstate, hpreVote, hown⟩
      · exact hsame.trans hvote
      · -- a node that has voted campaigns only if it has voted for itself
        have hid := (hkeeps.2 htype hstate hpreVote).resolve_left (hvote ▸ hne)
        exact hown.trans (hid.symm.trans hvote)
  | some m =>
      rw [hgranted] at hg
      obtain ⟨⟨htype, hlearner, hcan⟩, rfl⟩ := Moment.granted_eq_some_iff.mp hgranted
      obtain ⟨hne, hfree⟩ := hkeeps.1 htype hlearner hcan
      have hvote := vote_step_of_granted hgranted
      rcases List.mem_append.mp hg with hold | hnew
      · obtain ⟨hgne, hheld⟩ := h g hold
        have hsame : r.vote = x.2.from_ := hfree.resolve_left (hheld ▸ hgne)
        exact ⟨hgne, hvote.trans (hsame.symm.trans hheld)⟩
      · obtain rfl : g = x.2 := by simpa using hnew
        exact ⟨hne, hvote⟩

theorem RemembersVote.oneVotePerTerm {r : Raft} (h : r.RemembersVote) : OneVotePerTerm r.history :=
  fun m hm m' hm' _ => (h m hm).2.symm.trans (h m' hm').2

/-- **When a node votes once in a term.** Over every run of `Step` from any state, exactly when
the rivals of a term are refused: requests of a newer term than `term_` have none, and of two
others one finds another candidate in `vote_`. That is so wherever no step of the run takes
`vote_` from anybody. -/
theorem one_vote_per_term (r : Raft) (inputs : List (Unspecified × Message)) :
    (OneVotePerTerm (r.unrecorded.stepAll inputs).history ↔
      (r.unrecorded.moments inputs).Pairwise RivalsRefused) ∧
    (stepMachine.Along KeepsVote r.unrecorded inputs →
      OneVotePerTerm (r.unrecorded.stepAll inputs).history) := by
  constructor
  · rw [oneVotePerTerm_iff_pairwise, grants_stepAll]
    show (List.filterMap _ _).Pairwise _ ↔ _
    rw [List.pairwise_filterMap]
    apply List.Pairwise.iff_of_mem
    intro a b ha hb
    rw [rivalsRefused_iff ((term_of_mem_moments a ha).trans (term_of_mem_moments b hb).symm)]
  · intro hkeeps
    have hremembers : RemembersVote (r.unrecorded.stepAll inputs) :=
      Machine.foldl_invariant (fun _ _ hC h => h.step hC) hkeeps nofun
    exact hremembers.oneVotePerTerm

/-- A node in term 5 votes for node 2, refuses node 3 in that term, and votes for node 2 in an
older one. -/
theorem one_vote_per_term_held :
    let r := ({ started 1 [1, 2, 3] with term := 5 } : Raft).unrecorded.stepAll
      [(.filledIn, { type := .msgVote, from_ := 2, term := 5 }),
        (.filledIn, { type := .msgVote, from_ := 3, term := 5 }),
        (.filledIn, { type := .msgVote, from_ := 2, term := 3 })]
    OneVotePerTerm r.history ∧ (grants r.history).map Message.term = [5, 3] :=
  ⟨(one_vote_per_term { started 1 [1, 2, 3] with term := 5 } _).1.mpr (by decide), by decide⟩

/-- Nodes 2 and 3 both ask for the vote of term 1, and both get it. -/
theorem one_vote_per_term_fails :
    ¬ ∀ (r : Raft) (inputs : List (Unspecified × Message)), r.isLearner = false →
      OneVotePerTerm (r.unrecorded.stepAll inputs).history := by
  intro h
  have htwo := h (started 1 [1, 2, 3])
    [(.filledIn, { type := .msgVote, from_ := 2, term := 1 }),
      (.filledIn, { type := .msgVote, from_ := 3, term := 1 })] rfl
    { type := .msgVote, from_ := 2, term := 1 } (by decide)
    { type := .msgVote, from_ := 3, term := 1 } (by decide) rfl
  exact absurd htwo (by decide)

end Raft

end Anraft
