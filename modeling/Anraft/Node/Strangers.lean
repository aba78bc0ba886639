import Anraft.Node.Batching

/-!
# Responses of strangers

`Run` means to drop responses from unknown senders. The lookup that decides who
is unknown never reports it, and would keep the responses rather than drop them,
so every received message is stepped.
-/

namespace Anraft

namespace Node

/-- `Run` with one received message. -/
def receive (u : Raft.Unspecified) (r : Raft) (msg : Message) : Node :=
  run false { raft := r, bodies := fun _ => msg } [(u, { type := .msgTypeRecv, body := 0 })]

theorem receive_eq (u : Raft.Unspecified) (r : Raft) (msg : Message) :
    receive u r msg =
      step u { raft := (r.getProgress msg.from_).2, bodies := fun _ => msg } 0 := by
  show runItem u 0 { raft := r, bodies := fun _ => msg } { type := .msgTypeRecv, body := 0 } = _
  exact runItem_msgTypeRecv rfl 0

/-- What the filter is for. A response of a stranger leaves the raft as it was;
every other message is stepped, and the raft ends as `Step` leaves it. -/
structure FiltersStrangers (u : Raft.Unspecified) (r : Raft) (msg : Message) : Prop where
  dropped : ¬ r.IsMember msg.from_ → Raft.isResponseMsg msg.type = true →
    (receive u r msg).raft = r
  passed : r.IsMember msg.from_ ∨ Raft.isResponseMsg msg.type = false →
    (receive u r msg).stepped = [0] ∧
      (receive u r msg).raft = ((r.getProgress msg.from_).2.step u msg).2

/-- The sender of a received message is a member afterwards. -/
theorem receive_isMember (u : Raft.Unspecified) (r : Raft) (msg : Message) :
    (receive u r msg).raft.IsMember msg.from_ := by
  rw [receive_eq]
  have hstep := Raft.step_looksUp u (r.getProgress msg.from_).2 msg
  have hget := Raft.getProgress_looksUp r msg.from_
  by_cases hprs : msg.from_ ∈ r.prs
  · exact .inl ((hstep.prs _).mpr ((hget.prs _).mpr hprs))
  · refine .inr (hstep.mem_learnerPrs ((hget.learnerPrs _).mpr (.inr ⟨?_, hprs⟩)))
    exact List.mem_singleton_self _

/-- **When strangers are filtered.** Exactly when there is nothing to filter: the
sender is a member, or the message is not a response. -/
theorem filters_strangers_iff (u : Raft.Unspecified) (r : Raft) (msg : Message) :
    FiltersStrangers u r msg ↔
      (r.IsMember msg.from_ ∨ Raft.isResponseMsg msg.type = false) := by
  constructor
  · intro h
    by_contra hstranger
    obtain ⟨hstranger, hresponse⟩ := not_or.mp hstranger
    have hdropped := h.dropped hstranger (Bool.eq_true_of_not_eq_false hresponse)
    have hmember := receive_isMember u r msg
    rw [hdropped] at hmember
    exact hstranger hmember
  · intro h
    refine ⟨fun hstranger hresponse => ?_, fun _ => ?_⟩
    · rcases h with hmember | hrequest
      · exact absurd hmember hstranger
      · rw [hresponse] at hrequest
        cases hrequest
    · rw [receive_eq]
      exact ⟨rfl, rfl⟩

/-- Node 9 is in neither map, and its answer is counted by the candidate. -/
theorem filters_strangers_fails :
    ¬ ∀ (u : Raft.Unspecified) (r : Raft) (msg : Message), FiltersStrangers u r msg := by
  intro h
  have hdropped := (h .filledIn
    ((Raft.started 1 [1, 2, 3]).becomeCandidate .filledIn)
    { type := .msgVoteResp, from_ := 9 }).dropped (by decide) rfl
  have hvotes := congrArg (fun r : Raft => r.votes[(9 : UInt64)]?) hdropped
  exact absurd hvotes (by decide)

end Node

end Anraft
