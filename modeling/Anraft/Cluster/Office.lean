import Anraft.Cluster.ElectionSafety
import Anraft.Replication.CommitRule

/-!
# A leader in office

The branches of `Step` for the term of a message have no statements, so that no message of a
newer term makes a leader a follower. Only the check of the quorum does.
-/

namespace Anraft

namespace Raft

variable {u : Unspecified} {r r' r'' : Raft} {msg : Message}

/-- A leader, in each of the places the role is stored in. -/
structure InOffice (r : Raft) : Prop where
  state : r.state = .stateLeader
  stepFunc : r.stepFunc = .stepLeader
  tickFunc : r.tickFunc = .tickHeatbeat

/-- The check of the quorum is stepped or comes due, and the quorum is not active. -/
def Input.Unseats (r : Raft) : Input → Prop
  | .step u msg => LosesQuorum u msg
  | .tick u =>
    r.electionTimeout < r.electionElapsed + 1 ∧ r.checkQuorum = true ∧ u.checkQuorumActive = false

instance (r : Raft) : (i : Input) → Decidable (i.Unseats r)
  | .step .. => inferInstanceAs (Decidable (_ ∧ _))
  | .tick _ => inferInstanceAs (Decidable (_ ∧ _ ∧ _))

/-! ## One reaction -/

theorem InOffice.of_sameRole (h : InOffice r) (hsame : SameRole r r') : InOffice r' where
  state := hsame.state.trans h.state
  stepFunc := hsame.stepFunc.trans h.stepFunc
  tickFunc := hsame.tickFunc.trans h.tickFunc

/-- Whatever its term, a message leaves the leader in office. -/
theorem InOffice.step (h : InOffice r) (hkeeps : ¬ LosesQuorum u msg) :
    InOffice (r.step u msg).2 := by
  apply step_elim u r msg
  · intro _
    exact h
  · intro _ hstate _
    exact absurd h.state hstate
  · intro _ _ _
    exact ⟨h.state, h.stepFunc, h.tickFunc⟩
  · intro _ hfunc
    cases hfunc.symm.trans h.stepFunc
  · intro _ hfunc
    cases hfunc.symm.trans h.stepFunc
  · intro _ _
    exact h.of_sameRole (stepLeader_replicates hkeeps r).sameRole

theorem step_inOffice_iff (h : InOffice r) (u : Unspecified) (msg : Message) :
    InOffice (r.step u msg).2 ↔ ¬ LosesQuorum u msg := by
  refine ⟨fun hkept hloses => ?_, h.step⟩
  have hfollower := (step_of_losesQuorum h.stepFunc hloses).sameRole
  cases hfollower.state.symm.trans hkept.state

theorem heartbeaten_sameRole (u : Unspecified) (r : Raft) : SameRole r (r.heartbeaten u) := by
  by_cases hdue : r.BeatDue
  · have hrecorded : SameRole r
        (Raft.record { r with heartbeatElapsed := r.heartbeatElapsed + 1 } .beat) :=
      ⟨rfl, rfl, rfl, rfl, rfl⟩
    exact hrecorded.trans (heartbeaten_of_due hdue u).sameRole
  · rw [heartbeaten_of_not_due hdue]
    exact .refl r

theorem quorumChecked_inOffice_iff (h : InOffice r) (u : Unspecified) :
    InOffice (r.quorumChecked u) ↔ ¬ (Input.tick u).Unseats r := by
  have hcounted : ∀ elapsed, InOffice (r.counted elapsed) :=
    fun _ => ⟨h.state, h.stepFunc, h.tickFunc⟩
  unfold quorumChecked
  dsimp only
  split
  · next hdue =>
      split
      · next hcheck =>
          refine (step_inOffice_iff (hcounted 0) u _).trans (not_congr ?_)
          exact ⟨fun hloses => ⟨hdue, hcheck, hloses.2⟩, fun hloses => ⟨rfl, hloses.2.2⟩⟩
      · next hcheck => exact iff_of_true (hcounted 0) fun hloses => hcheck hloses.2.1
  · next hdue =>
      exact iff_of_true (hcounted (r.electionElapsed + 1)) fun hloses => hdue hloses.1

/-- **One reaction.** -/
theorem react_inOffice_iff (h : InOffice r) (input : Input) :
    InOffice (r.react input) ↔ ¬ input.Unseats r := by
  cases input with
  | step u msg => exact step_inOffice_iff h u msg
  | tick u =>
      have hrecorded : InOffice (r.record .tick) := ⟨h.state, h.stepFunc, h.tickFunc⟩
      have hticked : (r.react (.tick u)) = ((r.record .tick).quorumChecked u).heartbeaten u :=
        tick_of_tickHeatbeat h.tickFunc u
      rw [hticked]
      have hsame := heartbeaten_sameRole u ((r.record .tick).quorumChecked u)
      refine Iff.trans ⟨fun hkept => ?_, fun hkept => hkept.of_sameRole hsame⟩
        (quorumChecked_inOffice_iff hrecorded u)
      exact ⟨hsame.state.symm.trans hkept.state, hsame.stepFunc.symm.trans hkept.stepFunc,
        hsame.tickFunc.symm.trans hkept.tickFunc⟩

/-- **When a leader stays one.** Over every run from a leader, whatever messages of whatever
terms are delivered, the node is a leader in every state exactly if the check of the quorum
never fails. -/
theorem in_office_iff (h : InOffice r) (inputs : List Input) :
    machine.Always InOffice r inputs ↔ machine.Along (fun r i => ¬ i.Unseats r) r inputs := by
  apply Machine.always_ofFun_iff_along (I := fun _ => True) (fun _ _ _ => trivial) ?_ trivial h
  intro s i _ hs
  exact (react_inOffice_iff hs i).symm

/-- A `MsgApp` of term nine leaves the leader of term one in office. -/
theorem in_office_iff_newer :
    machine.Always InOffice leaderOfThree
      [.step .filledIn { type := .msgApp, from_ := 2, term := 9 }, .tick .filledIn] :=
  (in_office_iff ⟨rfl, rfl, rfl⟩ _).mpr (by decide)

/-! ## Into office -/

/-- What is new in the history makes no leader. -/
def ElectsNobody (r r' : Raft) : Prop :=
  ∀ old, .becomeLeader old ∈ r'.history → .becomeLeader old ∈ r.history

theorem ElectsNobody.trans (h : ElectsNobody r r') (h' : ElectsNobody r' r'') :
    ElectsNobody r r'' :=
  fun old hold => h old (h' old hold)

theorem NoElection.electsNobody (h : NoElection r r') : ElectsNobody r r' := by
  intro old hold
  obtain ⟨es, heq, hes⟩ := h.history
  rw [heq] at hold
  refine (List.mem_append.mp hold).resolve_right fun hnew => ?_
  cases hes _ hnew

theorem electsNobody_of_history {e : Event} (heq : r'.history = r.history ++ [e])
    (he : ∀ old, e ≠ .becomeLeader old) : ElectsNobody r r' := by
  intro old hold
  rw [heq] at hold
  refine (List.mem_append.mp hold).resolve_right fun hnew => ?_
  exact he old (List.mem_singleton.mp hnew).symm

/-- A message makes nobody leader, or it is an answer to a candidate that takes office. -/
theorem step_takesOffice (u : Unspecified) (r : Raft) (msg : Message) :
    ElectsNobody r (r.step u msg).2 ∨
      (isVoteResp msg.type = true ∧ InOffice (r.step u msg).2) := by
  cases step_cases u r msg with
  | campaign _ hsent =>
      have hcandidate : ElectsNobody r (r.becomeCandidate u) :=
        electsNobody_of_history (e := .becomeCandidate r.state r.term) rfl nofun
      exact .inl (hcandidate.trans hsent.noElection.electsNobody)
  | grant _ _ _ heq =>
      rw [heq]
      exact .inl (electsNobody_of_history (e := .grantVote msg) rfl nofun)
  | voteResp hresp _ heq =>
      have hpolled : ElectsNobody r (r.polled msg) :=
        electsNobody_of_history (e := .poll msg.from_ msg.type !msg.reject) rfl nofun
      rw [heq, stepCandidate_of_voteResp hresp]
      split
      · split
        · exact .inl hpolled
        · have hleader : InOffice ((r.polled msg).becomeLeader u) := ⟨rfl, rfl, rfl⟩
          exact .inr ⟨hresp, hleader.of_sameRole (bcastAppend_sendsOnly u _).sameRole⟩
      · exact .inl (hpolled.trans (becomeFollower_noElection u _ _ _).electsNobody)
  | quiet h => exact .inl h.electsNobody

/-- The clock makes nobody leader. -/
theorem tick_electsNobody (u : Unspecified) (r : Raft) : ElectsNobody r (r.tick u) := by
  refine tick_preserves (Q := ElectsNobody r) (fun hquiet h => h.trans hquiet.electsNobody) ?_
    fun _ hold => hold
  intro r' msg htick h
  refine h.trans ((step_takesOffice u r' msg).resolve_right ?_)
  rintro ⟨hresp, -⟩
  exact not_isVoteResp_of_isTickMsg htick hresp

theorem react_takesOffice (r : Raft) (input : Input) :
    ElectsNobody r (r.react input) ∨ InOffice (r.react input) := by
  cases input with
  | step u msg => exact (step_takesOffice u r msg).imp_right And.right
  | tick u => exact .inl (tick_electsNobody u r)

end Raft

/-! ## The cluster -/

namespace Cluster

open Raft

variable {members : Finset UInt64} {term : UInt64} {c : Cluster} {run : List Action}

instance (c : Cluster) (i : UInt64) : Decidable (c.HasLed i) :=
  decidable_of_iff
    (∃ old ∈ [StateType.stateFollower, .stateCandidate, .stateLeader, .statePreCandidate],
      .becomeLeader old ∈ (c i).history)
    (exists_congr fun old => and_iff_right (by cases old <;> decide))

/-- No member that has led is unseated. -/
def KeepsOffice (members : Finset UInt64) (c : Cluster) (a : Action) : Prop :=
  a.1 ∈ members → c.HasLed a.1 → ¬ a.2.Unseats (c a.1)

instance (members : Finset UInt64) (c : Cluster) (a : Action) :
    Decidable (KeepsOffice members c a) :=
  inferInstanceAs (Decidable (_ → _ → ¬ _))

/-- The members that have led are in office. -/
def LedInOffice (members : Finset UInt64) (c : Cluster) : Prop :=
  ∀ i ∈ members, c.HasLed i → InOffice (c i)

/-- The history of a node only grows. -/
theorem HasLed.act {i : UInt64} (h : c.HasLed i) (input : Input) : (c.act (i, input)).HasLed i := by
  obtain ⟨old, hold⟩ := h
  refine ⟨old, ?_⟩
  rw [act_self]
  exact (react_history_grows (c i) input).subset hold

/-- **One action.** -/
theorem act_ledInOffice_iff (h : LedInOffice members c) (a : Action) :
    KeepsOffice members c a ↔ LedInOffice members (c.act a) := by
  obtain ⟨i, input⟩ := a
  constructor
  · intro hkeeps k hk hled
    by_cases hne : k = i
    · subst hne
      obtain ⟨old, hold⟩ := hled
      rw [act_self] at hold ⊢
      rcases react_takesOffice (c k) input with hnobody | hoffice
      · have hbefore : c.HasLed k := ⟨old, hnobody old hold⟩
        exact (react_inOffice_iff (h k hk hbefore) input).mpr (hkeeps hk hbefore)
      · exact hoffice
    · unfold HasLed at hled
      rw [act_of_ne hne] at hled ⊢
      exact h k hk hled
  · intro hafter hi hled
    have hoffice := hafter i hi (hled.act input)
    rw [act_self] at hoffice
    exact (react_inOffice_iff (h i hi hled) input).mp hoffice

/-- A cluster that has one leader, or none so far: whoever has led is in office, and nobody else
has led or leads. -/
def LedByOne (members : Finset UInt64) (c : Cluster) : Prop :=
  ∀ i ∈ members, c.HasLed i →
    InOffice (c i) ∧ ∀ j ∈ members, c.HasLed j ∨ (c j).state = .stateLeader → j = i

/-- **One leader for good.** In every run of honest traffic, the first member to become leader is
in office from then on and nobody else ever leads, whatever the terms of the messages and whoever
campaigns, exactly if no check of the quorum of a leader fails. -/
theorem leads_for_good_iff (h : Assembled members term c)
    (hrun : machine.Along (VotesHonestly members) c run) :
    machine.Always (LedByOne members) c run ↔ machine.Along (KeepsOffice members) c run := by
  have hstart : LedInOffice members c := by
    rintro i hi ⟨old, hold⟩
    rw [(h.joined i hi).history] at hold
    cases hold
  have hoffice : machine.Always (LedInOffice members) c run ↔
      machine.Along (KeepsOffice members) c run :=
    Machine.always_ofFun_iff_along (I := fun _ => True) (fun _ _ _ => trivial)
      (fun _ a _ hs => act_ledInOffice_iff hs a) trivial hstart
  rw [← hoffice, Machine.always_ofFun_iff_prefix, Machine.always_ofFun_iff_prefix]
  refine forall₂_congr fun before hbefore => ?_
  constructor
  · exact fun hone i hi hled => (hone i hi hled).1
  · intro hled i hi hi'
    obtain ⟨rest, rfl⟩ := hbefore
    obtain ⟨b, hsound, hb⟩ := after_carriesOut h (Machine.along_ofFun_append.mp hrun).1
    refine ⟨hled i hi hi', fun j hj hj' => ?_⟩
    exact hb.subsingleton_leaders hsound (hb.mem_leaders hj hj') ⟨hi, hi'⟩

/-- Node 1 is elected, is told of a newer term and ticks. -/
theorem leads_for_good_iff_five :
    machine.Always (LedByOne [1, 2, 3, 4, 5].toFinset) (ofMembers [1, 2, 3, 4, 5] 1)
      (firstElection ++
        [(1, .step .filledIn { type := .msgApp, from_ := 2, term := 9 }), (1, .tick .filledIn)]) :=
  (leads_for_good_iff (assembled_ofMembers (by decide) 1) (by decide +kernel)).mpr
    (by decide +kernel)

end Cluster

end Anraft
