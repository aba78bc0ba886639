import Anraft.Membership.Broadcasts

/-!
# The commit index a heartbeat carries

A heartbeat must not tell a follower to commit what it is not known to hold. The line
that would take the minimum of the follower's Match and the commit index is a
comment; the variable is sent as it was found. A broadcast of heartbeats sends
nothing, except from a node of id zero to itself.
-/

namespace Anraft

namespace Raft

variable {u : Unspecified} {r r' : Raft} {dst : UInt64} {ctx : Bytes}

/-- A leader that sends heartbeats, and steps any messages in between. -/
inductive HeartbeatCall where
  | step (u : Unspecified) (msg : Message)
  | sendHeartbeat (u : Unspecified) (dst : UInt64) (ctx : Bytes)
  | bcastHeartbeat (u : Unspecified)

def heartbeatCall (r : Raft) : HeartbeatCall → Raft
  | .step u msg => (r.step u msg).2
  | .sendHeartbeat u dst ctx => r.sendHeartbeat u dst ctx
  | .bcastHeartbeat u => r.bcastHeartbeat u

abbrev heartbeatMachine : Machine Raft HeartbeatCall := .ofFun heartbeatCall

/-- The index a member may be told to commit: no more than it is known to hold, and no more
than is committed. -/
def commitBound (r : Raft) (dst : UInt64) : UInt64 :=
  min (r.progressOf dst).match_ r.raftlog.committed

/-- Every heartbeat queued for a member keeps to this bound. -/
def HeartbeatsBounded (r : Raft) (c : HeartbeatCall) : Prop :=
  ∃ sent, (r.heartbeatCall c).msgs = r.msgs ++ sent ∧
    ∀ m ∈ sent, m.type = .msgHeartbeat → r.IsMember m.to_ → m.commit ≤ r.commitBound m.to_

/-- The value left in the variable keeps to the bound. A broadcast uses it only where a
node of id zero is a member. -/
def CommitFits (r : Raft) : HeartbeatCall → Prop
  | .step .. => True
  | .sendHeartbeat u dst _ => r.IsMember dst → u.commit ≤ r.commitBound dst
  | .bcastHeartbeat u => r.id = 0 → r.IsMember 0 → u.commit ≤ r.commitBound 0

/-! ## One call -/

theorem heartbeatsBounded_iff_of_sent {c : HeartbeatCall} {sent : List Message}
    (h : (r.heartbeatCall c).msgs = r.msgs ++ sent) :
    HeartbeatsBounded r c ↔
      ∀ m ∈ sent, m.type = .msgHeartbeat → r.IsMember m.to_ → m.commit ≤ r.commitBound m.to_ := by
  constructor
  · rintro ⟨sent', h', hall⟩
    obtain rfl := List.append_cancel_left (h.symm.trans h')
    exact hall
  · intro hall
    exact ⟨sent, h, hall⟩

/-- `Step` queues no heartbeat. -/
theorem step_heartbeatsBounded (u : Unspecified) (r : Raft) (msg : Message) :
    HeartbeatsBounded r (.step u msg) := by
  obtain ⟨sent, heq, hown⟩ := step_queuesOwn u r msg
  refine ⟨sent, heq, fun m hm htype => ?_⟩
  have hsent : isSentByStep m.type = true := hown m hm
  rw [htype] at hsent
  cases hsent

theorem sendHeartbeat_heartbeatsBounded_iff :
    HeartbeatsBounded r (.sendHeartbeat u dst ctx) ↔
      (r.IsMember dst → u.commit ≤ r.commitBound dst) := by
  rw [heartbeatsBounded_iff_of_sent (c := .sendHeartbeat u dst ctx) rfl, List.forall_mem_singleton]
  exact forall_prop_of_true rfl

/-- Node zero broadcasts to itself. -/
theorem bcastHeartbeat_queues (hid : r.id = 0) :
    Queues (fun m => m.to_ = 0 ∧ m.commit = u.commit) r (r.bcastHeartbeat u) := by
  have hrel := forEachProgress_rel
    (R := fun r r' => r.id = 0 →
      r'.id = 0 ∧ Queues (fun m => m.to_ = 0 ∧ m.commit = u.commit) r r')
    (f := fun r _ _ => r.heartbeatVisit u u.lastPendingRequestCtx)
    (fun r hid => ⟨hid, .refl r⟩) ?_ ?_ r hid
  · exact hrel.2
  · intro r r' r'' h h' hid
    obtain ⟨hid', hq⟩ := h hid
    obtain ⟨hid'', hq'⟩ := h' hid'
    exact ⟨hid'', hq.trans hq'⟩
  · intro r _ _ hid
    have hvisit : r.heartbeatVisit u u.lastPendingRequestCtx =
        r.sendHeartbeat u r.id u.lastPendingRequestCtx := if_neg (not_not.mpr hid)
    rw [hvisit, hid]
    exact ⟨hid, _, rfl, by simp⟩

theorem bcastHeartbeat_heartbeatsBounded_iff :
    HeartbeatsBounded r (.bcastHeartbeat u) ↔
      (r.id = 0 → r.IsMember 0 → u.commit ≤ r.commitBound 0) := by
  by_cases hid : r.id = 0
  swap
  · have hsame : r.bcastHeartbeat u = r :=
      forEachProgress_eq_self (f := fun r _ _ => r.heartbeatVisit u u.lastPendingRequestCtx)
        fun _ _ => if_pos hid
    refine iff_of_true ⟨[], ?_, by simp⟩ fun hzero => absurd hzero hid
    show (r.bcastHeartbeat u).msgs = _
    rw [hsame, List.append_nil]
  obtain ⟨sent, heq, hsent⟩ := bcastHeartbeat_queues (u := u) hid
  rw [heartbeatsBounded_iff_of_sent (c := .bcastHeartbeat u) heq, forall_prop_of_true hid]
  constructor
  · intro h hmember
    obtain ⟨id, p, rest, hrest, -⟩ := exists_first_visit
      (fun r _ _ => heartbeatVisit_queues u r u.lastPendingRequestCtx) ⟨0, hmember⟩
    have hvisit : r.heartbeatVisit u u.lastPendingRequestCtx =
        r.sendHeartbeat u r.id u.lastPendingRequestCtx := if_neg (not_not.mpr hid)
    rw [hvisit, hid] at hrest
    have hfirst : (r.bcastHeartbeat u).msgs = _ := hrest
    rw [heq, sendHeartbeat, send, List.append_assoc] at hfirst
    obtain rfl := List.append_cancel_left hfirst
    exact h _ (List.mem_append_left _ (List.mem_singleton_self _)) rfl hmember
  · intro h m hm _ hmember
    obtain ⟨hto, hcommit⟩ := hsent m hm
    rw [hto] at hmember ⊢
    rw [hcommit]
    exact h hmember

/-- **One call.** -/
theorem heartbeatsBounded_iff (r : Raft) (c : HeartbeatCall) :
    HeartbeatsBounded r c ↔ CommitFits r c := by
  cases c with
  | step u msg => exact iff_of_true (step_heartbeatsBounded u r msg) trivial
  | sendHeartbeat u dst ctx => exact sendHeartbeat_heartbeatsBounded_iff
  | bcastHeartbeat u => exact bcastHeartbeat_heartbeatsBounded_iff

/-! ## Runs -/

/-- **When heartbeats keep to the bound.** In every run exactly if the variable happens to.
A member that is sent a heartbeat is safe from every value of the variable only if it
has matched, and the leader committed, the largest index there is. -/
theorem heartbeats_bounded_iff (r : Raft) (calls : List HeartbeatCall) :
    (heartbeatMachine.Along HeartbeatsBounded r calls ↔
        heartbeatMachine.Along CommitFits r calls) ∧
      ∀ dst ctx, r.IsMember dst →
        ((∀ u, HeartbeatsBounded r (.sendHeartbeat u dst ctx)) ↔
          r.commitBound dst = UInt64.ofNat (2 ^ 64 - 1)) := by
  constructor
  · exact Machine.along_congr (I := fun _ => True) (P := fun _ => True)
      (fun _ _ _ _ _ _ => trivial) (fun r c _ _ => heartbeatsBounded_iff r c) trivial
      fun _ _ => trivial
  · intro dst ctx hmember
    simp only [sendHeartbeat_heartbeatsBounded_iff, forall_prop_of_true hmember]
    have htop : ∀ c : UInt64, c ≤ UInt64.ofNat (2 ^ 64 - 1) := fun c =>
      UInt64.le_iff_toNat_le.mpr (Nat.le_pred_of_lt c.toNat_lt)
    constructor
    · intro h
      exact le_antisymm (htop _)
        (h { Unspecified.filledIn with commit := UInt64.ofNat (2 ^ 64 - 1) })
    · intro heq u
      rw [heq]
      exact htop u.commit

/-- The leader of three nodes has committed nothing; the variable holds seven. -/
theorem heartbeats_bounded_fails :
    ¬ ∀ (r : Raft) (calls : List HeartbeatCall), r.state = .stateLeader →
      heartbeatMachine.Along HeartbeatsBounded r calls := by
  intro h
  have hbounded := (h leaderOfThree
    [.sendHeartbeat { Unspecified.filledIn with commit := 7 } 2 []] rfl).1
  rw [sendHeartbeat_heartbeatsBounded_iff] at hbounded
  exact absurd (hbounded (.inl (by decide))) (by decide)

end Raft

end Anraft
