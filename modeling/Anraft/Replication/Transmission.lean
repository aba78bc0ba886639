import Anraft.Replication.AckOrder

/-!
# From `SendAppend` to `MaybeAppend`

`SendAppend` looks the entries up and does not copy them; what the follower hands
to `MaybeAppend` is the previous index, its term and the commit index, with an
empty batch.
-/

namespace Anraft

open IteratorRange

/-- `Entries` returns at least one entry if any. -/
def Storage.ReturnsEntries (st : Storage) : Prop :=
  ∀ (lo hi maxSize : UInt64) (es : List LogEntry), lo < hi →
    st.entries lo hi maxSize = some (es, .errNone) → es ≠ []

theorem MemoryStorage.returnsEntries (ms : MemoryStorage) : ms.toStorage.ReturnsEntries := by
  intro lo hi maxSize es hlt h
  have hlt' : lo.toNat < hi.toNat := hlt
  have h : ms.entries lo hi maxSize = some (es, .errNone) := h
  unfold MemoryStorage.entries at h
  dsimp only at h
  split at h
  · cases h
  · split at h
    · cases h
    · obtain ⟨target, hrange, heq⟩ := Option.map_eq_some_iff.mp h
      obtain rfl := (Prod.mk.inj heq).1
      exact ne_nil_of_range?_eq_some (by omega) hrange

namespace RaftLog

variable {l : RaftLog}

/-- Nothing follows the last index. -/
theorem entries_lastIndex_succ {maxSize : UInt64} (hfirst : l.firstIndex ≤ l.lastIndex + 1) :
    l.entries (l.lastIndex + 1) maxSize [] = some (.errNone, []) := by
  have hbounds : l.mustCheckOutOfBounds (l.lastIndex + 1) (l.lastIndex + 1) = .errNone :=
    mustCheckOutOfBounds_eq_errNone_iff.mpr ⟨le_rfl, hfirst, le_rfl⟩
  unfold entries
  split
  · rfl
  · simp [slice, hbounds]

/-- What storage contributes below the offset is not empty. -/
theorem storedPart_ne_nil {lo hi maxSize : UInt64} {ents : List LogEntry}
    (hst : l.storage.ReturnsEntries) (hlt : lo < hi) (hoff : lo < l.unstable.offset)
    (h : l.storedPart lo hi maxSize = some (ents, .errNone)) : ents ≠ [] := by
  rw [storedPart, if_pos hoff] at h
  exact hst _ _ _ _ (lt_min hlt hoff) h

/-- What a slice of a range that is not empty returns without an error is not empty. -/
theorem slice_ne_nil {lo hi maxSize : UInt64} {es : List LogEntry}
    (hst : l.storage.ReturnsEntries) (hlt : lo < hi)
    (h : l.slice lo hi maxSize [] = some (.errNone, es)) : es ≠ [] := by
  have hbounds : l.mustCheckOutOfBounds lo hi = .errNone := by
    by_contra hne
    simp [slice, hne] at h
  rw [slice_of_inBounds hbounds hlt.ne] at h
  obtain ⟨⟨ents, err⟩, hpart, h⟩ := Option.bind_eq_some_iff.mp h
  dsimp only at h
  split at h
  swap
  · next herr => exact absurd (Prod.mk.inj (Option.some.inj h)).1 herr
  next herr =>
  subst herr
  by_cases hoff : lo < l.unstable.offset
  · have hstored := storedPart_ne_nil hst hlt hoff hpart
    split at h
    · obtain ⟨_, -, heq⟩ := Option.map_eq_some_iff.mp h
      rw [← (Prod.mk.inj heq).2]
      simp [hstored]
    · rw [← (Prod.mk.inj (Option.some.inj h)).2]
      simp [hstored]
  · have hoff := not_lt.mp hoff
    rw [if_pos (hoff.trans_lt hlt), max_eq_left hoff] at h
    obtain ⟨_, hslice, heq⟩ := Option.map_eq_some_iff.mp h
    obtain ⟨target, hrange, rfl⟩ := Option.map_eq_some_iff.mp hslice
    have hlt' : lo.toNat < hi.toNat := hlt
    rw [← (Prod.mk.inj heq).2]
    simp [ne_nil_of_range?_eq_some (by omega) hrange]

/-- Up to the last index, what `Entries` returns without an error is not empty. -/
theorem entries_ne_nil {i maxSize : UInt64} {es : List LogEntry}
    (hst : l.storage.ReturnsEntries) (hlt : i < l.lastIndex + 1)
    (h : l.entries i maxSize [] = some (.errNone, es)) : es ≠ [] := by
  have hlt' : i.toNat < (l.lastIndex + 1).toNat := hlt
  have hle : ¬ i > l.lastIndex := by
    rw [gt_iff_lt, UInt64.lt_iff_toNat_lt]
    rw [UInt64.toNat_add, UInt64.toNat_one] at hlt'
    omega
  rw [entries, if_neg hle] at h
  exact slice_ne_nil hst hlt h

end RaftLog

namespace Raft

variable {uL uF : Unspecified} {r f : Raft} {dst : UInt64}

/-- The progress `SendAppend` works on. -/
def progressOf (r : Raft) (id : UInt64) : Progress :=
  if id ∈ r.prs then r.prs.getD id {} else r.learnerPrs.getD id {}

/-- The error of the entries lookup. -/
def entriesError (u : Unspecified) (r : Raft) (next : UInt64) : RaftError :=
  match r.raftlog.entries next r.maxMsgSize [] with
  | some (err, _) => err
  | none => u.outsideEntries

/-- The message `SendAppend` queues. -/
def appendMessage (u : Unspecified) (r : Raft) (dst : UInt64) : Message :=
  let next := (r.progressOf dst).next
  if (r.raftlog.term u.toUnwritten (next - 1)).1 ≠ .errNone ∨
      r.entriesError u next ≠ .errNone then
    { to_ := dst, from_ := r.id }
  else
    { to_ := dst
      from_ := r.id
      type := .msgApp
      index := next - 1
      term := (r.raftlog.term u.toUnwritten (next - 1)).2
      commit := r.raftlog.committed }

/-- The pointer `GetProgress` returns points at that progress; at most a learner
was inserted. -/
theorem exists_getProgress (r : Raft) (id : UInt64) :
    ∃ ptr learnerPrs, r.getProgress id = (some ptr, { r with learnerPrs := learnerPrs }) ∧
      progressAt { r with learnerPrs := learnerPrs } ptr = r.progressOf id := by
  unfold getProgress progressOf
  by_cases hmem : id ∈ r.prs
  · refine ⟨.prs id, r.learnerPrs, if_pos hmem, ?_⟩
    rw [if_pos hmem]
    rfl
  · refine ⟨.learnerPrs id, r.learnerPrs.insertIfNew id {}, if_neg hmem, ?_⟩
    rw [if_neg hmem]
    show (r.learnerPrs.insertIfNew id {}).getD id {} = _
    rw [Std.TreeMap.getD_insertIfNew]
    split
    · next h => rw [Std.TreeMap.getD_eq_fallback h.2]
    · rfl

theorem sendAppend_msgs (u : Unspecified) (hpaused : (r.progressOf dst).isPaused = false) :
    (r.sendAppend u dst).msgs = r.msgs ++ [r.appendMessage u dst] := by
  obtain ⟨ptr, learnerPrs, hget, hpr⟩ := exists_getProgress r dst
  unfold sendAppend
  rw [hget]
  dsimp only
  rw [hpr, hpaused, if_neg Bool.false_ne_true]
  unfold appendMessage entriesError send
  dsimp only
  rcases r.raftlog.entries (r.progressOf dst).next r.maxMsgSize [] with _ | ⟨err, es⟩
  · by_cases hfail : (r.raftlog.term u.toUnwritten ((r.progressOf dst).next - 1)).1 ≠ .errNone ∨
        u.outsideEntries ≠ .errNone
    · simp only [if_pos hfail]
    · simp only [if_neg hfail]
  · by_cases hfail : (r.raftlog.term u.toUnwritten ((r.progressOf dst).next - 1)).1 ≠ .errNone ∨
        err ≠ .errNone
    · simp only [if_pos hfail]
    · simp only [if_neg hfail]

theorem appendMessage_entries (u : Unspecified) : (r.appendMessage u dst).entries = [] := by
  unfold appendMessage
  dsimp only
  split <;> rfl

/-- The follower hands the fields of the message to `MaybeAppend`. -/
theorem handleAppendEntries_history (u : Unspecified) (msg : Message) :
    (f.handleAppendEntries u msg).history =
      f.history ++ [.maybeAppend msg.index msg.term msg.commit msg.entries] := by
  obtain ⟨msgs, heq⟩ := handleAppendEntries_eq u f msg
  rw [heq]
  rfl

/-- The message queued for `dst` makes the follower call `MaybeAppend` with the
index before `Next`, its term, the leader's commit index and the entries from
`Next` on that `Entries` returned. -/
def Transmits (uL uF : Unspecified) (r : Raft) (dst : UInt64) (f : Raft) : Prop :=
  ∃ msg es, (r.sendAppend uL dst).msgs = r.msgs ++ [msg] ∧ msg.to_ = dst ∧
    r.raftlog.entries (r.progressOf dst).next r.maxMsgSize [] = some (.errNone, es) ∧
    (f.handleAppendEntries uF msg).history = f.history ++
      [.maybeAppend ((r.progressOf dst).next - 1)
        (r.raftlog.term uL.toUnwritten ((r.progressOf dst).next - 1)).2
        r.raftlog.committed es]

/-- **When an append is transmitted.** For a member that is not paused and whose
Next lies in the log or right behind it, the follower is handed what the leader
looked up exactly when there is nothing to send. -/
theorem transmits_iff (uL uF : Unspecified) (r : Raft) (dst : UInt64) (f : Raft)
    (hpaused : (r.progressOf dst).isPaused = false)
    (hfirst : r.raftlog.firstIndex ≤ (r.progressOf dst).next)
    (hlast : (r.progressOf dst).next ≤ r.raftlog.lastIndex + 1)
    (hw : uL.TermIsStored) (hst : r.raftlog.storage.ReturnsEntries) :
    Transmits uL uF r dst f ↔ (r.progressOf dst).next = r.raftlog.lastIndex + 1 := by
  constructor
  · rintro ⟨msg, es, hmsgs, -, hentries, hcall⟩
    rw [sendAppend_msgs uL hpaused] at hmsgs
    obtain rfl := List.singleton_inj.mp (List.append_cancel_left hmsgs)
    rw [handleAppendEntries_history, appendMessage_entries] at hcall
    have hcall := List.singleton_inj.mp (List.append_cancel_left hcall)
    obtain ⟨-, -, -, rfl⟩ := Event.maybeAppend.inj hcall
    by_contra hne
    exact RaftLog.entries_ne_nil hst (lt_of_le_of_ne hlast hne) hentries rfl
  · intro hnext
    have hentries : r.raftlog.entries (r.progressOf dst).next r.maxMsgSize [] =
        some (.errNone, []) := by
      rw [hnext] at hfirst ⊢
      exact RaftLog.entries_lastIndex_succ hfirst
    have hterm : (r.raftlog.term uL.toUnwritten ((r.progressOf dst).next - 1)).1 = .errNone := by
      by_cases hin : r.raftlog.InRange ((r.progressOf dst).next - 1)
      · rw [RaftLog.term_of_inRange hw hin]
      · rw [RaftLog.term_of_not_inRange hin]
    have hmsg : r.appendMessage uL dst =
        { to_ := dst
          from_ := r.id
          type := .msgApp
          index := (r.progressOf dst).next - 1
          term := (r.raftlog.term uL.toUnwritten ((r.progressOf dst).next - 1)).2
          commit := r.raftlog.committed } := by
      unfold appendMessage entriesError
      simp [hterm, hentries]
    refine ⟨_, [], sendAppend_msgs uL hpaused, ?_, hentries, ?_⟩
    · rw [hmsg]
    · rw [handleAppendEntries_history, hmsg]

/-- Node 2 has acknowledged both entries, and the next append is empty. -/
theorem transmits_iff_acked :
    Transmits .filledIn .filledIn (leaderOfThree.stepAcks [ack 2 2]) 2 (started 2 [1, 2, 3]) :=
  (transmits_iff .filledIn .filledIn (leaderOfThree.stepAcks [ack 2 2]) 2 (started 2 [1, 2, 3])
    (by decide) (by decide) (by decide) RaftLog.filledIn_termIsStored
    (MemoryStorage.returnsEntries .newMemoryStorage)).mpr (by decide)

/-- Node 2 lacks the second entry, and is sent none. -/
theorem transmits_fails :
    ¬ ∀ (uL uF : Unspecified) (r : Raft) (dst : UInt64) (f : Raft),
      dst ∈ r.prs → (r.progressOf dst).isPaused = false →
      r.raftlog.firstIndex ≤ (r.progressOf dst).next →
      (r.progressOf dst).next ≤ r.raftlog.lastIndex + 1 →
      uL.TermIsStored → r.raftlog.storage.ReturnsEntries → Transmits uL uF r dst f := by
  intro h
  obtain ⟨msg, es, hmsgs, -, hentries, hcall⟩ := h .filledIn .filledIn leaderOfThree 2
    (started 2 [1, 2, 3]) (by decide) (by decide) (by decide) (by decide)
    RaftLog.filledIn_termIsStored (MemoryStorage.returnsEntries .newMemoryStorage)
  have hread : leaderOfThree.raftlog.entries (leaderOfThree.progressOf 2).next
      leaderOfThree.maxMsgSize [] = some (.errNone, [{ term := 1, index := 2 }]) := by decide
  obtain rfl : [{ term := 1, index := 2 }] = es :=
    (Prod.mk.inj (Option.some.inj (hread.symm.trans hentries))).2
  rw [sendAppend_msgs .filledIn (by decide)] at hmsgs
  obtain rfl := List.singleton_inj.mp (List.append_cancel_left hmsgs)
  exact absurd hcall (by decide)

end Raft

end Anraft
