import Anraft.RaftRun

/-!
# Terms

`Step` has three branches for a local, a newer and an older message, all empty,
and `Reset` ignores the term it is given. So `term_` is a constant of the node.
-/

namespace Anraft

namespace Raft

variable {r r' r'' : Raft}

/-! ## The term is a constant -/

/-- A reaction keeps the configuration, the term included, and every campaign it
starts leaves the node in that same term. -/
structure SameTerm (r r' : Raft) : Prop extends SameConfig r r' where
  campaigns : ∃ es, r'.history = r.history ++ es ∧
    ∀ old t, .becomeCandidate old t ∈ es → t = r.term

namespace SameTerm

theorem refl (r : Raft) : SameTerm r r :=
  ⟨.refl r, [], (List.append_nil _).symm, by simp⟩

theorem trans (h : SameTerm r r') (h' : SameTerm r' r'') : SameTerm r r'' where
  toSameConfig := h.toSameConfig.trans h'.toSameConfig
  campaigns := by
    obtain ⟨es, heq, hes⟩ := h.campaigns
    obtain ⟨es', heq', hes'⟩ := h'.campaigns
    refine ⟨es ++ es', by rw [heq', heq, List.append_assoc], fun old t he => ?_⟩
    rcases List.mem_append.mp he with he | he
    · exact hes old t he
    · rw [hes' old t he, h.term]

end SameTerm

theorem NoElection.sameTerm (h : NoElection r r') : SameTerm r r' where
  toSameConfig := h.toSameConfig
  campaigns := by
    obtain ⟨es, heq, hes⟩ := h.history
    refine ⟨es, heq, fun old t he => ?_⟩
    have := hes _ he
    cases this

/-- One event was recorded, and it is no campaign in another term. -/
theorem sameTerm_of_event {e : Event} (h : SameConfig r r')
    (hhistory : r'.history = r.history ++ [e])
    (he : ∀ old t, e = .becomeCandidate old t → t = r.term) : SameTerm r r' where
  toSameConfig := h
  campaigns := ⟨[e], hhistory, fun old t hmem => he old t (List.mem_singleton.mp hmem).symm⟩

theorem step_sameTerm (u : Unspecified) (r : Raft) (msg : Message) :
    SameTerm r (r.step u msg).2 := by
  apply step_rel (R := SameTerm) SameTerm.trans NoElection.sameTerm
  · intro r
    refine sameTerm_of_event (.of_eq rfl rfl rfl rfl) rfl ?_
    rintro old t heq
    cases heq
    rfl
  · intro r
    exact sameTerm_of_event (.of_eq rfl rfl rfl rfl) rfl nofun
  · intro r
    exact sameTerm_of_event (.of_eq rfl rfl rfl rfl) rfl nofun
  · intro r
    exact sameTerm_of_event (.of_eq rfl rfl rfl rfl) rfl nofun

theorem tick_sameTerm (u : Unspecified) (r : Raft) : SameTerm r (r.tick u) :=
  tick_preserves (Q := SameTerm r) (fun h hr => hr.trans h.sameTerm)
    (fun _ hr => hr.trans (step_sameTerm u _ _)) (.refl r)

theorem react_sameTerm (r : Raft) (i : Input) : SameTerm r (r.react i) := by
  cases i with
  | step u msg => exact step_sameTerm u r msg
  | tick u => exact tick_sameTerm u r

theorem after_sameTerm (r : Raft) (inputs : List Input) : SameTerm r (r.after inputs) := by
  induction inputs generalizing r with
  | nil => exact .refl r
  | cons i is ih => exact (react_sameTerm r i).trans (ih (r.react i))

/-! ## What the term discipline asks for -/

/-- The fields an older message may not touch. -/
structure Untouched (r r' : Raft) : Prop where
  term : r'.term = r.term
  vote : r'.vote = r.vote
  lead : r'.lead = r.lead
  state : r'.state = r.state
  votes : ∀ i : UInt64, r'.votes[i]? = r.votes[i]?
  raftlog : r'.raftlog = r.raftlog
  prs : ∀ i : UInt64, r'.prs[i]? = r.prs[i]?
  learnerPrs : ∀ i : UInt64, r'.learnerPrs[i]? = r.learnerPrs[i]?

/-- The discipline for one message in one state: a newer message moves the node to
its term without an old vote, an older one changes nothing, and a campaign would
be held in a newer term. -/
structure TermDiscipline (u : Unspecified) (r : Raft) (msg : Message) : Prop where
  newer : r.term < msg.term → msg.type ≠ .msgPreVote →
    ¬ (msg.type = .msgPreVoteResp ∧ msg.reject = false) →
      (r.step u msg).2.term = msg.term ∧
        ((r.step u msg).2.vote = 0 ∨
          msg.type = .msgVote ∧ (r.step u msg).2.vote = msg.from_)
  older : 0 < msg.term → msg.term < r.term → Untouched r (r.step u msg).2
  campaign : r.term < (r.becomeCandidate u).term

/-- The terms of the campaigns of a history. -/
def campaignTerms (history : List Event) : List UInt64 :=
  history.filterMap fun
    | .becomeCandidate _ term => some term
    | _ => none

/-- Every campaign of a run is held in the term the run started with. -/
theorem campaignTerms_after (r : Raft) (inputs : List Input) :
    ∀ t ∈ campaignTerms (r.unrecorded.after inputs).history, t = r.term := by
  obtain ⟨es, heq, hes⟩ := (after_sameTerm r.unrecorded inputs).campaigns
  rw [heq]
  show ∀ t ∈ campaignTerms ([] ++ es), t = r.term
  rw [List.nil_append]
  intro t ht
  obtain ⟨e, he, hsome⟩ := List.mem_filterMap.mp ht
  split at hsome
  · next old _ =>
      obtain rfl := Option.some.inj hsome
      exact hes old _ he
  · cases hsome

/-- Whether a message is stale makes no difference: apart from `MsgVote` and
`MsgApp`, no message has its term read. -/
theorem step_with_term (u : Unspecified) (r : Raft) {msg : Message} (t : UInt64)
    (hvote : msg.type ≠ .msgVote) (happ : msg.type ≠ .msgApp) :
    (r.step u { msg with term := t }).2 = (r.step u msg).2 := by
  by_cases hhup : msg.type = .msgHup
  · rw [step_of_msgHup hhup]
    exact step_of_msgHup hhup
  by_cases hpre : msg.type = .msgPreVote
  · rw [step_of_msgPreVote hpre]
    exact step_of_msgPreVote hpre
  have hhandled : isHandledByStep msg.type = false := by
    simp [isHandledByStep, hhup, hvote, hpre]
  have hhandled' : isHandledByStep ({ msg with term := t } : Message).type = false := hhandled
  rw [step_of_not_handled hhandled, step_of_not_handled hhandled']
  cases hfunc : r.stepFunc with
  | stepFollower =>
      have hquiet : ∀ m : Message, m.type = msg.type → (r.stepFollower u m).2 = r := by
        intro m hm
        unfold stepFollower
        split
        · next htype => exact absurd (hm.symm.trans htype) happ
        · rfl
      exact (hquiet { msg with term := t } rfl).trans (hquiet msg rfl).symm
  | stepCandidate => simp only [stepCandidate]
  | stepLeader => simp only [stepLeader, stepLeaderProgress]

theorem nodup_iff_length_le_one_of_eq {α : Type*} {l : List α} {a : α} (h : ∀ x ∈ l, x = a) :
    l.Nodup ↔ l.length ≤ 1 := by
  rw [List.eq_replicate_of_mem h, List.nodup_replicate, List.length_replicate]

/-- **The term discipline holds in no state.** `BecomeCandidate` leaves the term
where it is, no newer message moves it, and a message of any other term but
`MsgVote` and `MsgApp` does exactly what the same message of the current term does.
Over a run the term is a constant, so a run has campaigned in distinct terms
exactly when it has campaigned at most once. -/
theorem term_discipline_fails (r : Raft) :
    (∀ u msg, ¬ TermDiscipline u r msg) ∧
      (∀ u, (r.becomeCandidate u).term = r.term) ∧
      (∀ u msg, r.term < msg.term → (r.step u msg).2.term ≠ msg.term) ∧
      (∀ u (msg : Message) t, msg.type ≠ .msgVote → msg.type ≠ .msgApp →
        (r.step u { msg with term := t }).2 = (r.step u msg).2) ∧
      (∀ inputs, (r.after inputs).term = r.term) ∧
      (∀ inputs,
        (campaignTerms (r.unrecorded.after inputs).history).Nodup ↔
          (campaignTerms (r.unrecorded.after inputs).history).length ≤ 1) := by
  have hcandidate : ∀ u, (r.becomeCandidate u).term = r.term := fun _ => rfl
  refine ⟨?_, hcandidate, ?_, ?_, ?_, ?_⟩
  · intro u msg h
    exact absurd (hcandidate u ▸ h.campaign) (lt_irrefl r.term)
  · intro u msg hlt heq
    rw [(step_sameTerm u r msg).term] at heq
    exact absurd (heq ▸ hlt) (lt_irrefl _)
  · intro u msg t hvote happ
    exact step_with_term u r t hvote happ
  · intro inputs
    exact (after_sameTerm r inputs).term
  · intro inputs
    exact nodup_iff_length_le_one_of_eq (campaignTerms_after r inputs)

/-- Each part fails on its own: a `MsgApp` of a newer term leaves the term, one of
an older term installs its sender as leader, and two `MsgHup` start two campaigns
in one term. -/
theorem term_discipline_fails_each_part :
    (¬ ∀ (u : Unspecified) (r : Raft) (msg : Message), TermDiscipline u r msg) ∧
      ((started 1 [1, 2, 3]).step .filledIn
        { type := .msgApp, from_ := 2, term := 5 }).2.term = 0 ∧
      (({ started 1 [1, 2, 3] with term := 5 } : Raft).step .filledIn
        { type := .msgApp, from_ := 2, term := 3 }).2.lead = 2 ∧
      campaignTerms ((started 1 [1, 2, 3]).after
        [.step .filledIn { type := .msgHup }, .step .filledIn { type := .msgHup }]).history =
          [0, 0] := by
  refine ⟨fun h => ?_, by decide, by decide, by decide⟩
  have hnewer := (h .filledIn (started 1 [1, 2, 3])
    { type := .msgApp, from_ := 2, term := 5 }).newer (by decide) (by decide) (by decide)
  exact absurd hnewer.1 (by decide)

end Raft

end Anraft
