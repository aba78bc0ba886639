import Anraft.Log.Slices
import Anraft.Replication.SenderTerms

/-!
# Where an append starts

`SendAppend` sends its message whether or not the two lookups in the log succeed. When
one fails the message has no type and no index, and its receiver takes it for a
`MsgHup`; and since a position outside the log has a term without an error, and nothing
is no error behind the last index, a `MsgApp` can start outside the log.
-/

namespace Anraft

namespace Raft

variable {u : Unspecified} {r : Raft} {dst : UInt64} {stored : ℕ → LogEntry}

/-- A `MsgSnap`, or a `MsgApp` that starts before Next, at a position of the log. -/
def StartsInLog (r : Raft) (dst : UInt64) (m : Message) : Prop :=
  m.type = .msgSnap ∨
    (m.type = .msgApp ∧ m.index = (r.progressOf dst).next - 1 ∧
      r.raftlog.firstIndex - 1 ≤ m.index ∧ m.index ≤ r.raftlog.lastIndex)

/-- `SendAppend` queues nothing, or one message for `dst` that starts in the log. -/
def SendsInLog (u : Unspecified) (r : Raft) (dst : UInt64) : Prop :=
  (r.sendAppend u dst).msgs = r.msgs ∨
    ∃ m, (r.sendAppend u dst).msgs = r.msgs ++ [m] ∧ m.to_ = dst ∧ r.StartsInLog dst m

/-- The position before `next` lies in the log, and it is possible to read its term and
the entries from `next` on. -/
structure Readable (u : Unspecified) (r : Raft) (next : UInt64) : Prop where
  inRange : r.raftlog.InRange (next - 1)
  term : (r.raftlog.term u.toUnwritten (next - 1)).1 = .errNone
  entries : r.entriesError u next = .errNone

theorem appendMessage_of_failed
    (h : (r.raftlog.term u.toUnwritten ((r.progressOf dst).next - 1)).1 ≠ .errNone ∨
      r.entriesError u (r.progressOf dst).next ≠ .errNone) :
    r.appendMessage u dst = { to_ := dst, from_ := r.id } := if_pos h

/-- **The append of a member that is not paused.** -/
theorem startsInLog_appendMessage_iff :
    r.StartsInLog dst (r.appendMessage u dst) ↔ r.Readable u (r.progressOf dst).next := by
  by_cases hfail : (r.raftlog.term u.toUnwritten ((r.progressOf dst).next - 1)).1 ≠ .errNone ∨
      r.entriesError u (r.progressOf dst).next ≠ .errNone
  · rw [appendMessage_of_failed hfail]
    apply iff_of_false
    · rintro (htype | ⟨htype, -⟩) <;> cases htype
    · intro h
      exact hfail.elim (· h.term) (· h.entries)
  · obtain ⟨hterm, hentries⟩ := not_or.mp hfail
    have htype : (r.appendMessage u dst).type = .msgApp := by
      rw [appendMessage, if_neg hfail]
    have hindex : (r.appendMessage u dst).index = (r.progressOf dst).next - 1 := by
      rw [appendMessage, if_neg hfail]
    unfold StartsInLog
    rw [htype, hindex]
    constructor
    · rintro (hsnap | ⟨-, -, hrange⟩)
      · cases hsnap
      · exact ⟨hrange, not_not.mp hterm, not_not.mp hentries⟩
    · intro h
      exact .inr ⟨rfl, rfl, h.inRange⟩

/-- **When `SendAppend` sends what starts in the log**: the member is paused, or what it
lacks can be read. -/
theorem sendsInLog_iff (u : Unspecified) (r : Raft) (dst : UInt64) :
    SendsInLog u r dst ↔
      (r.progressOf dst).isPaused = true ∨ r.Readable u (r.progressOf dst).next := by
  unfold SendsInLog
  cases hpaused : (r.progressOf dst).isPaused with
  | true => exact iff_of_true (.inl (sendAppend_msgs_of_paused hpaused)) (.inl rfl)
  | false =>
      have hto : (r.appendMessage u dst).to_ = dst := by
        unfold appendMessage
        dsimp only
        split <;> rfl
      rw [sendAppend_msgs u hpaused, ← startsInLog_appendMessage_iff]
      constructor
      · rintro (hnone | ⟨m, heq, -, hm⟩)
        · exact absurd hnone (by simp)
        · obtain rfl := List.singleton_inj.mp (List.append_cancel_left heq)
          exact .inr hm
      · rintro (htrue | hm)
        · cases htrue
        · exact .inr ⟨_, rfl, hto, hm⟩

/-! ## The condition for a log that can be read -/

/-- Where the log covers `next`, the entries can be read, and behind it there are none. -/
theorem entriesError_eq_errNone_iff (hst : r.raftlog.storage.ReadsExactly stored)
    (hlog : r.raftlog.Stitched) (next : UInt64) :
    r.entriesError u next = .errNone ↔
      r.raftlog.lastIndex < next ∨ r.raftlog.firstIndex ≤ next := by
  unfold entriesError RaftLog.entries
  by_cases hbehind : next > r.raftlog.lastIndex
  · rw [if_pos hbehind]
    exact iff_of_true rfl (.inl hbehind)
  · obtain ⟨err, out, hslice, hanswer⟩ := RaftLog.slice_stitches hst hlog next
      (r.raftlog.lastIndex + 1) r.maxMsgSize []
    have hle : next ≤ r.raftlog.lastIndex + 1 := by
      rw [UInt64.le_iff_toNat_le, hlog.toNat_lastIndex_add_one]
      exact (UInt64.le_iff_toNat_le.mp (not_lt.mp hbehind)).trans (Nat.le_succ _)
    rw [if_neg hbehind, hslice]
    dsimp only
    rw [hanswer.errNone_iff, or_iff_right hbehind]
    exact and_iff_left ⟨hle, hlog.toNat_lastIndex_add_one.le⟩

/-- **The condition as one on Next.** For a log whose storage answers what it holds, the
append starts in the log exactly when Next lies between the first index and the one
after the last. -/
theorem readable_iff (hw : u.TermIsStored) (hst : r.raftlog.storage.ReadsExactly stored)
    (hlog : r.raftlog.Stitched) (hfirst : 1 ≤ r.raftlog.firstIndex) (next : UInt64) :
    r.Readable u next ↔
      r.raftlog.firstIndex ≤ next ∧ next ≤ r.raftlog.lastIndex + 1 := by
  have hfirst' : 1 ≤ r.raftlog.firstIndex.toNat := UInt64.le_iff_toNat_le.mp hfirst
  have hlast := hlog.toNat_lastIndex_add_one
  have hpred : (r.raftlog.firstIndex - 1).toNat = r.raftlog.firstIndex.toNat - 1 :=
    UInt64.toNat_sub_of_le _ _ hfirst
  constructor
  · intro h
    obtain ⟨hlow, hhigh⟩ := h.inRange
    have hnext : 1 ≤ next := by
      rw [UInt64.le_iff_toNat_le, UInt64.toNat_one, Nat.one_le_iff_ne_zero]
      intro hzero
      obtain rfl : next = 0 := UInt64.toNat_inj.mp hzero
      -- before Next = 0 lies the largest index there is
      have htop : (0 - 1 : UInt64).toNat ≤ r.raftlog.lastIndex.toNat := hhigh
      exact absurd hlog.lastIndex_lt (Nat.not_lt.mpr htop)
    have hnext' := UInt64.toNat_sub_of_le _ _ hnext
    rw [UInt64.le_iff_toNat_le, hpred, hnext', UInt64.toNat_one] at hlow
    rw [UInt64.le_iff_toNat_le, hnext', UInt64.toNat_one] at hhigh
    have hone : 1 ≤ next.toNat := hnext
    rw [UInt64.le_iff_toNat_le, UInt64.le_iff_toNat_le, hlast]
    exact ⟨by omega, by omega⟩
  · rintro ⟨hlow, hhigh⟩
    have hnext : 1 ≤ next := hfirst.trans hlow
    have hnext' := UInt64.toNat_sub_of_le _ _ hnext
    have hlow' := UInt64.le_iff_toNat_le.mp hlow
    rw [UInt64.le_iff_toNat_le, hlast] at hhigh
    have hrange : r.raftlog.InRange (next - 1) := by
      constructor <;> rw [UInt64.le_iff_toNat_le, hnext', UInt64.toNat_one]
      · rw [hpred]
        exact Nat.sub_le_sub_right hlow' 1
      · exact Nat.sub_le_of_le_add hhigh
    refine ⟨hrange, ?_, (entriesError_eq_errNone_iff hst hlog next).mpr (.inr hlow)⟩
    rw [RaftLog.term_of_inRange hw hrange]

/-- The leader of three nodes with a compacted log: node 3 is still to be sent the first
entry, which is gone. -/
def compactedLeader : Raft := { leaderOfThree with raftlog := RaftLog.overlapping }

/-- The append to node 3 has no type. -/
theorem sendsInLog_fails :
    ¬ ∀ (u : Unspecified) (r : Raft) (dst : UInt64), r.state = .stateLeader → dst ∈ r.prs →
      SendsInLog u r dst := by
  intro h
  rcases h .filledIn compactedLeader 3 rfl (by decide) with hnone | ⟨m, heq, -, hm⟩
  · revert hnone
    decide
  · obtain rfl : m = { to_ := 3, from_ := 1 } := List.singleton_inj.mp (heq.symm.trans (by decide))
    rcases hm with htype | ⟨htype, -⟩ <;> cases htype

end Raft

end Anraft
