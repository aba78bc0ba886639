import Anraft.Base.Machine
import Anraft.LogView

/-!
# Runs of a raft log

The calls by which the node changes its log, as a machine. `Append` with a batch
that makes it read outside the unstable vector has no next state.
-/

namespace Anraft

open IteratorRange

inductive LogCall where
  | maybeAppend (index term committed : UInt64) (ents : List LogEntry)
  | maybeCommit (index term : UInt64)
  | append (ents : List LogEntry)
deriving DecidableEq, Repr

namespace RaftLog

def call (w : Unwritten) (l : RaftLog) : LogCall → Option RaftLog
  | .maybeAppend index term committed ents => some (l.maybeAppend w index term committed ents).2
  | .maybeCommit index term => some (l.maybeCommit w index term).2
  | .append ents => (l.append ents).map Prod.snd

def machine (w : Unwritten) : Machine RaftLog LogCall where
  step := call w

/-! ## The three cases of `TruncateAndAppend` -/

variable {w : Unwritten} {l : RaftLog} {first : LogEntry} {rest : List LogEntry}

/-- The batch starts right after the unstable entries. -/
theorem call_append_next (h : first.uindex = l.unstable.offset + size l.unstable.entries) :
    l.call w (.append (first :: rest)) =
      some { l with unstable :=
        { l.unstable with entries := l.unstable.entries ++ first :: rest } } := by
  simp [call, append, Unstable.truncateAndAppend, h]

/-- The batch starts at or below the offset and replaces the unstable entries. -/
theorem call_append_replace
    (hne : first.uindex ≠ l.unstable.offset + size l.unstable.entries)
    (h : first.uindex ≤ l.unstable.offset) :
    l.call w (.append (first :: rest)) =
      some { l with unstable := { offset := first.uindex, entries := first :: rest } } := by
  simp [call, append, Unstable.truncateAndAppend, hne, h]

/-- The batch starts anywhere else: the elements from position `offset_` up to
position `after` of the vector are kept, if there are such positions, and the
batch is lost. -/
theorem call_append_truncate
    (hne : first.uindex ≠ l.unstable.offset + size l.unstable.entries)
    (h : ¬ first.uindex ≤ l.unstable.offset) :
    l.call w (.append (first :: rest)) =
      if first.uindex.toNat ≤ l.unstable.entries.length then
        some { l with unstable :=
          { l.unstable with
            entries := (l.unstable.entries.drop l.unstable.offset.toNat).take
              (first.uindex.toNat - l.unstable.offset.toNat) } }
      else none := by
  have hlt : l.unstable.offset.toNat < first.uindex.toNat := not_le.mp h
  by_cases hlen : first.uindex.toNat ≤ l.unstable.entries.length
  · have hrange := range?_natCast l.unstable.entries hlt.le hlen
    simp [call, append, Unstable.truncateAndAppend, hne, h, hlen, hrange]
  · have hrange := range?_eq_none l.unstable.entries
      l.unstable.offset.toNat first.uindex.toNat (by omega)
    simp [call, append, Unstable.truncateAndAppend, hne, h, hlen, hrange]

/-- **What `Append` can do** with a batch, when it is defined. -/
theorem call_append_cases {l' : RaftLog} (h : l.call w (.append (first :: rest)) = some l') :
    (first.uindex = l.unstable.offset + size l.unstable.entries ∧
      l' = { l with unstable :=
        { l.unstable with entries := l.unstable.entries ++ first :: rest } }) ∨
    (first.uindex ≤ l.unstable.offset ∧
      l' = { l with unstable := { offset := first.uindex, entries := first :: rest } }) ∨
    (l.unstable.offset < first.uindex ∧ first.uindex.toNat ≤ l.unstable.entries.length ∧
      l' = { l with unstable := { l.unstable with
        entries := (l.unstable.entries.drop l.unstable.offset.toNat).take
          (first.uindex.toNat - l.unstable.offset.toNat) } }) := by
  by_cases hnext : first.uindex = l.unstable.offset + size l.unstable.entries
  · rw [call_append_next hnext] at h
    exact .inl ⟨hnext, (Option.some.inj h).symm⟩
  rcases le_or_gt first.uindex l.unstable.offset with hrep | hcut
  · rw [call_append_replace hnext hrep] at h
    exact .inr (.inl ⟨hrep, (Option.some.inj h).symm⟩)
  · rw [call_append_truncate hnext (not_le.mpr hcut)] at h
    split at h
    · next hlen => exact .inr (.inr ⟨hcut, hlen, (Option.some.inj h).symm⟩)
    · cases h

/-- What the truncating case keeps ends right before the batch. -/
theorem truncated_length (hlen : first.uindex.toNat ≤ l.unstable.entries.length) :
    ((l.unstable.entries.drop l.unstable.offset.toNat).take
      (first.uindex.toNat - l.unstable.offset.toNat)).length =
        first.uindex.toNat - l.unstable.offset.toNat := by
  rw [List.length_take, List.length_drop]
  omega

end RaftLog

end Anraft
