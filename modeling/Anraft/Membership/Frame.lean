import Anraft.Membership.Lookups

/-!
# Membership as a frame

Nothing but `AddNode` is meant to change who is a member. A run of the calls
that step, tick, send and look up leaves the members alone as long as every id
that is looked up is one of them; the first stranger becomes a learner.
-/

namespace Anraft

namespace Raft

/-- The calls that may look a progress up. -/
inductive ProgressCall where
  | step (u : Unspecified) (msg : Message)
  | tick (u : Unspecified)
  | bcastAppend (u : Unspecified)
  | sendAppend (u : Unspecified) (dst : UInt64)
  | sendHeartbeat (u : Unspecified) (dst : UInt64) (ctx : Bytes)
  | getProgress (id : UInt64)

def perform (r : Raft) : ProgressCall → Raft
  | .step u msg => (r.step u msg).2
  | .tick u => r.tick u
  | .bcastAppend u => r.bcastAppend u
  | .sendAppend u dst => r.sendAppend u dst
  | .sendHeartbeat u dst ctx => r.sendHeartbeat u dst ctx
  | .getProgress id => (r.getProgress id).2

abbrev progressMachine : Machine Raft ProgressCall := .ofFun perform

/-- The ids the call passes to `GetProgress`. -/
def ProgressCall.lookups (r : Raft) : ProgressCall → List UInt64
  | .step u msg => r.stepLookups u msg
  | .tick _ => r.tickLookups
  | .bcastAppend _ => r.bcastLookups
  | .sendAppend _ dst => [dst]
  | .sendHeartbeat .. => []
  | .getProgress id => [id]

theorem perform_looksUp (r : Raft) (c : ProgressCall) : LooksUp r (c.lookups r) (r.perform c) := by
  cases c with
  | step u msg => exact step_looksUp u r msg
  | tick u => exact tick_looksUp u r
  | bcastAppend u => exact bcastAppend_looksUp u r
  | sendAppend u dst => exact sendAppend_looksUp u r dst
  | sendHeartbeat u dst ctx => exact .of_eq rfl rfl
  | getProgress id => exact getProgress_looksUp r id

/-- A stranger the call looks up is reported absent, and the caller heeds it:
`SendAppend` queues nothing and `StepLeader` answers `ErrParam`. -/
def ReportsStrangers (r : Raft) (c : ProgressCall) : Prop :=
  ∀ id ∈ c.lookups r, ¬ r.IsMember id →
    (r.getProgress id).1 = none ∧
      match c with
      | .sendAppend u dst => (r.sendAppend u dst).msgs = r.msgs
      | .step u msg => r.stepFunc = .stepLeader → (r.step u msg).1 = .errParam
      | _ => True

/-- The call looks up members only. -/
def LooksUpMembers (r : Raft) (c : ProgressCall) : Prop := ∀ id ∈ c.lookups r, r.IsMember id

instance (r : Raft) (c : ProgressCall) : Decidable (r.LooksUpMembers c) :=
  inferInstanceAs (Decidable (∀ id ∈ _, _))

/-- From a state with the members of the start, a call ends in another one exactly
when it looks up members only. -/
theorem looksUpMembers_iff {start r : Raft} (c : ProgressCall) (h : SameMembers start r) :
    r.LooksUpMembers c ↔ SameMembers start (r.perform c) := by
  unfold LooksUpMembers
  rw [← (perform_looksUp r c).sameMembers_iff]
  exact ⟨h.trans, h.symm.trans⟩

/-- A call that looks up members only has no stranger to report. -/
theorem LooksUpMembers.reportsStrangers {r : Raft} {c : ProgressCall} (h : r.LooksUpMembers c) :
    r.ReportsStrangers c :=
  fun id hid hstranger => absurd (h id hid) hstranger

/-- **When membership is a frame.** Over every run, from every state, the keys of
both maps stay those of the start and strangers are reported as such exactly when
no call of the run looks up a stranger. -/
theorem membership_frame_iff (r : Raft) (calls : List ProgressCall) :
    (progressMachine.Always (SameMembers r) r calls ∧
      progressMachine.Along ReportsStrangers r calls) ↔
      progressMachine.Along LooksUpMembers r calls := by
  have hframe : progressMachine.Always (SameMembers r) r calls ↔
      progressMachine.Along LooksUpMembers r calls := by
    apply Machine.always_ofFun_iff_along (I := fun _ => True) (fun _ _ _ => trivial) ?_ trivial
      (SameMembers.refl r)
    intro s c _ hs
    exact looksUpMembers_iff c hs
  constructor
  · intro h
    exact hframe.mp h.1
  · intro h
    exact ⟨hframe.mpr h, h.mono fun _ _ hmembers => hmembers.reportsStrangers⟩

/-- A leader steps a message of node 9, which it does not know: the node is not
reported absent, and becomes a learner. -/
theorem membership_frame_fails :
    ¬ ∀ (r : Raft) (calls : List ProgressCall),
      progressMachine.Always (SameMembers r) r calls ∧
        progressMachine.Along ReportsStrangers r calls := by
  intro h
  have hkeys := (h leaderOfThree [.step .filledIn (ack 9 1).2]).1
  obtain ⟨-, r', hr', hsame⟩ := hkeys
  obtain rfl := Option.some.inj hr'
  have hlearner := (hsame.learnerPrs 9).mp (by decide)
  exact absurd hlearner (by decide)

end Raft

end Anraft
