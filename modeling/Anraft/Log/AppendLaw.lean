import Anraft.Log.CommittedEntries
import Anraft.Log.Slices

/-!
# The law of `MaybeAppend`

Where the log has the entry before the batch, the batch should be written over the
log from its first conflict on. The cases of the source for a conflict and for new
entries have no statements in them, the call answers with the commit index of the
leader, and a term of zero matches every position outside the log.
-/

namespace Anraft

open IteratorRange Segment

namespace RaftLog

variable {w : Unwritten} {l : RaftLog} {index term committed : UInt64} {ents : List LogEntry}

/-- The log has `e` at its index, whatever the size limit of the read. -/
def Contains (l : RaftLog) (e : LogEntry) : Prop :=
  ∀ maxSize, l.readEntry maxSize e.uindex = some e

/-- The log has an entry with the index of `e` and another term. -/
def Conflicts (l : RaftLog) (e : LogEntry) : Prop :=
  ∃ maxSize e', l.readEntry maxSize e.uindex = some e' ∧ e'.uterm ≠ e.uterm

theorem Contains.not_conflicts {e : LogEntry} (h : l.Contains e) : ¬ l.Conflicts e := by
  rintro ⟨maxSize, e', hread, hterm⟩
  cases (h maxSize).symm.trans hread
  exact hterm rfl

/-- What a leader may send: the entries after `index`, none of which contradicts a
committed entry. -/
structure Sendable (l : RaftLog) (index : UInt64) (ents : List LogEntry) : Prop where
  consecutive : Consecutive (index + 1) ents
  committed : ∀ e ∈ ents, e.uindex ≤ l.committed → ¬ l.Conflicts e

/-- `l'` is `l` with the batch written behind `index`. -/
structure AppendedAt (l : RaftLog) (index committed : UInt64) (ents : List LogEntry)
    (l' : RaftLog) : Prop where
  contains : ∀ e ∈ ents, l'.Contains e
  below : ∀ i, i ≤ index → l'.storedTerm i = l.storedTerm i ∧
    ∀ maxSize, l'.readEntry maxSize i = l.readEntry maxSize i
  kept : (∀ e ∈ ents, ¬ l.Conflicts e) → ∀ i, index + size ents < i →
    ∀ maxSize, l'.readEntry maxSize i = l.readEntry maxSize i
  cut : (∃ e ∈ ents, l.Conflicts e) → l'.lastIndex = index + size ents
  committed_eq : l'.committed = max l.committed (min committed (index + size ents))

/-- The law: accepted exactly behind an entry the log holds, otherwise nothing
happens. -/
structure AppendLaw (w : Unwritten) (l : RaftLog) (index term committed : UInt64)
    (ents : List LogEntry) : Prop where
  accepts : l.Holds index term →
    ∃ l', l.maybeAppend w index term committed ents = ((index + size ents, true), l') ∧
      l.AppendedAt index committed ents l'
  refuses : ¬ l.Holds index term →
    l.maybeAppend w index term committed ents = ((0, false), l)

/-- A log that has the batch already meets what the law asks of a log with the same
entries and the commit index raised. -/
theorem appendedAt_commitTo (h : ∀ e ∈ ents, l.Contains e) :
    l.AppendedAt index committed ents (l.commitTo (min committed (index + size ents))) := by
  have hsame := SameEntries.commitTo l (min committed (index + size ents))
  refine ⟨?_, ?_, ?_, ?_, commitTo_committed l _⟩
  · intro e he maxSize
    rw [hsame.readEntry]
    exact h e he maxSize
  · intro i _
    exact ⟨hsame.storedTerm i, fun maxSize => hsame.readEntry maxSize i⟩
  · intro _ i _ maxSize
    exact hsame.readEntry maxSize i
  · rintro ⟨e, he, hconflict⟩
    exact absurd hconflict (h e he).not_conflicts

/-- **When `MaybeAppend` keeps its law.** A zero term is not offered for a position
outside the log; and behind a matching entry the leader's commit index is the last
index of the batch, and the log has the whole batch already. -/
theorem maybeAppend_appendLaw_iff (hw : w.TermIsStored) :
    l.AppendLaw w index term committed ents ↔
      (l.InRange index ∨ term ≠ 0) ∧
        (l.Holds index term →
          committed = index + size ents ∧ ∀ e ∈ ents, l.Contains e) := by
  have hmatch := matchTerm_iff (l := l) hw (i := index) (t := term)
  constructor
  · intro hlaw
    constructor
    · by_contra hout
      rw [not_or, not_not] at hout
      have hrefused := hlaw.refuses fun hholds => hout.1 hholds.1
      rw [maybeAppend_eq, if_pos (hmatch.mpr (.inr hout))] at hrefused
      cases congrArg (fun r => r.1.2) hrefused
    · intro hholds
      obtain ⟨l', hcall, happended⟩ := hlaw.accepts hholds
      rw [maybeAppend_eq, if_pos (hmatch.mpr (.inl hholds))] at hcall
      obtain ⟨hanswer, rfl⟩ := Prod.mk.inj hcall
      refine ⟨(Prod.mk.inj hanswer).1, fun e he maxSize => ?_⟩
      rw [← (SameEntries.commitTo l _).readEntry]
      exact happended.contains e he maxSize
  · rintro ⟨hrange, hidle⟩
    constructor
    · intro hholds
      obtain ⟨hcommitted, hcontains⟩ := hidle hholds
      refine ⟨_, ?_, appendedAt_commitTo hcontains⟩
      rw [maybeAppend_eq, if_pos (hmatch.mpr (.inl hholds)), ← hcommitted]
    · intro hholds
      have hno : ¬ l.matchTerm w index term = true := by
        rw [hmatch]
        rintro (h | ⟨hout, hzero⟩)
        · exact hholds h
        · exact hrange.elim hout fun hne => hne hzero
      rw [maybeAppend_eq, if_neg hno]

/-- A batch the log has already, sent once more. -/
theorem maybeAppend_appendLaw_overlapping :
    overlapping.AppendLaw Unwritten.filledIn 3 1 5
      [{ index := 4, term := 2 }, { index := 5, term := 2 }] := by
  refine (maybeAppend_appendLaw_iff filledIn_termIsStored).mpr
    ⟨.inl (by decide), fun _ => ⟨by decide, ?_⟩⟩
  rintro e he maxSize
  rw [List.mem_cons, List.mem_singleton] at he
  rcases he with rfl | rfl
  · rfl
  · rfl

/-- The first entry sent to an empty log: the answer is the leader's commit index,
and the entry is not in the log afterwards. -/
theorem not_maybeAppend_appendLaw :
    Unwritten.filledIn.TermIsStored ∧ blank.Holds 0 0 ∧
      blank.Sendable 0 [{ index := 1, term := 1 }] ∧
      blank.maybeAppend Unwritten.filledIn 0 0 0 [{ index := 1, term := 1 }] =
        ((0, true), blank) ∧
      ¬ blank.AppendLaw Unwritten.filledIn 0 0 0 [{ index := 1, term := 1 }] := by
  have hcall : blank.maybeAppend Unwritten.filledIn 0 0 0 [{ index := 1, term := 1 }] =
      ((0, true), blank) := rfl
  refine ⟨filledIn_termIsStored, by decide, ⟨consecutive_singleton { index := 1, term := 1 }, ?_⟩,
    hcall, fun hlaw => ?_⟩
  · intro e he hle
    obtain rfl := List.mem_singleton.mp he
    exact absurd hle (by decide)
  · obtain ⟨l', heq, -⟩ := hlaw.accepts (by decide)
    have hanswer : (0 : UInt64) = 0 + size [({ index := 1, term := 1 } : LogEntry)] :=
      congrArg (fun r => r.1.1) (hcall.symm.trans heq)
    exact absurd hanswer (by decide)

end RaftLog

end Anraft
