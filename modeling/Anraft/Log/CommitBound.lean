import Anraft.Log.Calls

/-!
# The commit index and the end of the log

`MaybeAppend`, `MaybeCommit` and `Append` each touch one side of
`committed_ ≤ LastIndex()`. The condition below says call by call when the side
they touch does not pass the other one.
-/

namespace Anraft

open IteratorRange

/-- The commit index does not point past the log. -/
def RaftLog.CommitInLog (l : RaftLog) : Prop := l.committed ≤ l.lastIndex

instance (l : RaftLog) : Decidable l.CommitInLog := inferInstanceAs (Decidable (_ ≤ _))

/-- * `MaybeAppend` that passes its test commits at most the last index of the log,
  not only of the batch it does not append;
* `MaybeCommit` is not asked for term zero beyond the log;
* `Append` leaves a last index at or above the commit index. -/
def LogCall.KeepsCommitInLog (w : RaftLog.Unwritten) (l : RaftLog) : LogCall → Prop
  | .maybeAppend index term committed ents =>
    l.matchTerm w index term → min committed (index + size ents) ≤ l.lastIndex
  | .maybeCommit index term => term = 0 → index ≤ l.lastIndex
  | .append [] => True
  | .append (first :: rest) =>
    if first.uindex = l.unstable.offset + size l.unstable.entries then
      l.committed ≤ l.unstable.offset + size (l.unstable.entries ++ first :: rest) - 1
    else if first.uindex ≤ l.unstable.offset then
      l.committed ≤ first.uindex + size (first :: rest) - 1
    else
      first.uindex.toNat ≤ l.unstable.entries.length ∧ l.committed ≤ first.uindex - 1

instance (w : RaftLog.Unwritten) (l : RaftLog) :
    (c : LogCall) → Decidable (c.KeepsCommitInLog w l)
  | .maybeAppend .. => inferInstanceAs (Decidable (_ → _))
  | .maybeCommit .. => inferInstanceAs (Decidable (_ → _))
  | .append [] => inferInstanceAs (Decidable True)
  | .append (_ :: _) => inferInstanceAs (Decidable (ite _ _ (ite _ _ _)))

namespace RaftLog

variable {w : Unwritten} {l : RaftLog}

theorem maybeAppend_commitInLog_iff {index term committed : UInt64} {ents : List LogEntry}
    (h : l.CommitInLog) :
    (l.maybeAppend w index term committed ents).2.CommitInLog ↔
      (l.matchTerm w index term → min committed (index + size ents) ≤ l.lastIndex) := by
  unfold CommitInLog at h ⊢
  rw [(maybeAppend_sameEntries index term committed ents).lastIndex, maybeAppend_eq]
  by_cases hm : l.matchTerm w index term = true
  · rw [if_pos hm, commitTo_committed, max_le_iff]
    exact ⟨fun hmax _ => hmax.2, fun hmin => ⟨h, hmin hm⟩⟩
  · rw [if_neg hm]
    exact ⟨fun _ hc => absurd hc hm, fun _ => h⟩

theorem maybeCommit_commitInLog_iff {index term : UInt64} (h : l.CommitInLog) :
    (l.maybeCommit w index term).2.CommitInLog ↔ (term = 0 → index ≤ l.lastIndex) := by
  unfold CommitInLog at h ⊢
  rw [(maybeCommit_sameEntries index term).lastIndex, maybeCommit_eq]
  by_cases hin : index ≤ l.lastIndex
  · -- whatever the term, an index of the log may be committed
    simp only [hin, implies_true, iff_true]
    split
    · exact hin
    · exact h
  · have hlt : l.lastIndex < index := not_le.mp hin
    have hout : ¬ l.InRange index := fun hr => hin hr.2
    simp only [term_of_not_inRange hout, zeroTermOnErrCompacted_errNone, h.trans_lt hlt,
      true_and, hin, imp_false]
    by_cases ht : 0 = term
    · simp [ht, hin]
    · simp [ht, Ne.symm ht, h]

theorem append_commitInLog_iff {first : LogEntry} {rest : List LogEntry} :
    (∃ l', l.call w (.append (first :: rest)) = some l' ∧ l'.CommitInLog) ↔
      (LogCall.append (first :: rest)).KeepsCommitInLog w l := by
  simp only [LogCall.KeepsCommitInLog, CommitInLog]
  by_cases hnext : first.uindex = l.unstable.offset + size l.unstable.entries
  · rw [call_append_next hnext, if_pos hnext]
    simp [lastIndex_with_unstable]
  · by_cases hrep : first.uindex ≤ l.unstable.offset
    · rw [call_append_replace hnext hrep, if_neg hnext, if_pos hrep]
      simp [lastIndex_with_unstable]
    · rw [call_append_truncate hnext hrep, if_neg hnext, if_neg hrep]
      by_cases hlen : first.uindex.toNat ≤ l.unstable.entries.length
      · rw [if_pos hlen]
        have hcut := truncated_length hlen
        have hlt : l.unstable.offset.toNat < first.uindex.toNat := not_le.mp hrep
        generalize (l.unstable.entries.drop l.unstable.offset.toNat).take
          (first.uindex.toNat - l.unstable.offset.toNat) = kept at hcut ⊢
        have hne : kept ≠ [] := List.length_pos_iff.mp (by omega)
        -- the kept entries end at `after - 1`
        have hend : l.unstable.offset + size kept = first.uindex := by
          rw [size, hcut, ← UInt64.toNat_inj, UInt64.toNat_add, UInt64.toNat_ofNat']
          have := first.uindex.toNat_lt
          omega
        simp [lastIndex_with_unstable, hne, hend, hlen]
      · simp [hlen]

/-- One call keeps the commit index in the log exactly under its condition. -/
theorem call_commitInLog_iff (c : LogCall) (h : l.CommitInLog) :
    c.KeepsCommitInLog w l ↔ ∃ l', l.call w c = some l' ∧ l'.CommitInLog := by
  cases c with
  | maybeAppend index term committed ents =>
      simp [call, LogCall.KeepsCommitInLog, maybeAppend_commitInLog_iff h]
  | maybeCommit index term =>
      simp [call, LogCall.KeepsCommitInLog, maybeCommit_commitInLog_iff h]
  | append ents =>
      cases ents with
      | nil => simp [call, append, LogCall.KeepsCommitInLog, h]
      | cons first rest => exact append_commitInLog_iff.symm

/-- A log initialised from a well-formed storage commits the dummy index. What an
earlier log left in the unstable part does no harm while the indexes fit. -/
theorem newLog_commitInLog {ms : MemoryStorage} (hms : ms.WellFormed)
    (hfit : ms.dummy.uindex.toNat + ms.entries_.length + l.unstable.entries.length < 2 ^ 64) :
    (l.newLog (some ms.toStorage)).2.CommitInLog := by
  have hfirst := hms.toNat_firstIndex
  have hlast := hms.toNat_lastIndex
  have hpos := ms.length_pos
  unfold CommitInLog
  rw [UInt64.le_iff_toNat_le]
  have hcommitted : (l.newLog (some ms.toStorage)).2.committed = ms.firstIndex.1 - 1 := rfl
  have hone : (ms.firstIndex.1 - 1).toNat = ms.dummy.uindex.toNat := by
    rw [UInt64.toNat_sub, UInt64.toNat_one, hfirst]
    omega
  rw [hcommitted, hone]
  by_cases hnil : l.unstable.entries = []
  · rw [lastIndex_of_nil (l := (l.newLog (some ms.toStorage)).2) hnil]
    change _ ≤ ms.lastIndex.1.toNat
    omega
  · rw [lastIndex_of_ne_nil (l := (l.newLog (some ms.toStorage)).2) hnil]
    change _ ≤ (ms.lastIndex.1 + 1 + size l.unstable.entries - 1).toNat
    have hsize := toNat_size l.unstable.entries (by omega)
    have hlen := List.length_pos_iff.mpr hnil
    rw [UInt64.toNat_sub, UInt64.toNat_add, UInt64.toNat_add, hsize, UInt64.toNat_one, hlast]
    omega

/-- **When the commit index stays in the log.** Over every run from `NewLog`, the
commit index is at most the last index after every call exactly when every call
of the run meets its condition. -/
theorem commit_in_log_iff (w : Unwritten) (prior : RaftLog) (ms : MemoryStorage)
    (calls : List LogCall) (hms : ms.WellFormed)
    (hfit : ms.dummy.uindex.toNat + ms.entries_.length + prior.unstable.entries.length < 2 ^ 64) :
    (machine w).Always CommitInLog (prior.newLog (some ms.toStorage)).2 calls ↔
      (machine w).Along (fun l c => c.KeepsCommitInLog w l)
        (prior.newLog (some ms.toStorage)).2 calls :=
  Machine.always_iff_along (I := fun _ => True) (fun _ _ _ _ _ => trivial)
    (fun _ c _ h => call_commitInLog_iff c h) trivial (newLog_commitInLog hms hfit)

/-- A fresh log over an empty storage: two entries appended and committed. -/
theorem commit_in_log_iff_two_entries :
    (machine .filledIn).Always CommitInLog
      (blank.newLog (some MemoryStorage.newMemoryStorage.toStorage)).2
      [.append [{ term := 1, index := 1 }, { term := 1, index := 2 }], .maybeCommit 2 1] :=
  (commit_in_log_iff .filledIn blank .newMemoryStorage _
    MemoryStorage.newMemoryStorage_wellFormed (by decide)).mpr
    ⟨show LogCall.KeepsCommitInLog _ _ _ by decide,
      fun _ _ => ⟨fun h => absurd h (by decide), fun _ _ => trivial⟩⟩

/-- A `MsgApp` with term zero at an index the log does not reach: the test of
`MaybeAppend` takes the missing entry for one of term zero, and the commit index
passes the end of the log. -/
theorem commit_in_log_fails :
    ¬ ∀ (w : Unwritten) (prior : RaftLog) (ms : MemoryStorage) (calls : List LogCall),
      w.TermIsStored → ms.WellFormed → prior.unstable.entries = [] →
        (machine w).Always CommitInLog (prior.newLog (some ms.toStorage)).2 calls := by
  intro h
  obtain ⟨-, l', hl', hbound⟩ := h .filledIn blank .newMemoryStorage
    [.maybeAppend 7 0 9 []] filledIn_termIsStored
    MemoryStorage.newMemoryStorage_wellFormed rfl
  cases hl'
  exact absurd (show CommitInLog _ from hbound) (by decide)

end RaftLog

end Anraft
