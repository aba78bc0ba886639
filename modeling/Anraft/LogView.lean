import Anraft.RaftLog

/-!
# What the log stores, and what one call does to it

`storedTerm` is the term the two parts of the log hold together for an index:
the unstable entry where there is one, otherwise what storage answers. `Holds`
is the fact the protocol needs about a log: the position is covered and has this
term. The rest of the file says once what each call leaves behind.
-/

namespace Anraft

open IteratorRange

/-- The unstable entry at log position `i`. -/
def Unstable.entryAt (u : Unstable) (i : UInt64) : Option LogEntry :=
  if u.offset ≤ i then u.entries[(i - u.offset).toNat]? else none

namespace RaftLog

def storedTerm (l : RaftLog) (i : UInt64) : UInt64 :=
  match l.unstable.entryAt i with
  | some e => e.uterm
  | none =>
    match l.storage.term i with
    | some (t, .errNone) => t
    | _ => 0

/-- The positions with a term: from the dummy entry to the last index. -/
def InRange (l : RaftLog) (i : UInt64) : Prop := l.firstIndex - 1 ≤ i ∧ i ≤ l.lastIndex

instance (l : RaftLog) (i : UInt64) : Decidable (l.InRange i) :=
  inferInstanceAs (Decidable (_ ∧ _))

/-- Position `i` is covered and has term `t`. -/
def Holds (l : RaftLog) (i t : UInt64) : Prop := l.InRange i ∧ l.storedTerm i = t

instance (l : RaftLog) (i t : UInt64) : Decidable (l.Holds i t) :=
  inferInstanceAs (Decidable (_ ∧ _))

/-- The unwritten branch of `Term` returns the term of the stored entry. -/
def Unwritten.TermIsStored (w : Unwritten) : Prop :=
  ∀ (l : RaftLog) (i : UInt64), l.InRange i → w.termInRange l i = (.errNone, l.storedTerm i)

/-- `LastTerm` returns the term of the last entry. -/
def Unwritten.LastTermIsStored (w : Unwritten) : Prop :=
  ∀ l : RaftLog, w.lastTerm l = l.storedTerm l.lastIndex

/-- The missing bodies, filled in so that both facts hold and the unwritten
`Append` does what the overload for vectors does. -/
def Unwritten.filledIn : Unwritten where
  lastTerm l := l.storedTerm l.lastIndex
  termInRange l i := (.errNone, l.storedTerm i)
  appendRepeated l ents := (l.append ents).getD (l.lastIndex, l)

theorem filledIn_termIsStored : Unwritten.filledIn.TermIsStored := fun _ _ _ => rfl

theorem filledIn_lastTermIsStored : Unwritten.filledIn.LastTermIsStored := fun _ => rfl

/-- A log as its constructor leaves it: no unstable entry, and storage still to
be set by `NewLog`. -/
def blank : RaftLog where
  storage := MemoryStorage.newMemoryStorage.toStorage
  unstable := { entries := [], offset := 0 }
  committed := 0
  applied := 0

/-! ## Indexes -/

theorem firstIndex_eq (l : RaftLog) : l.firstIndex = l.storage.firstIndex.1 := rfl

theorem lastIndex_of_nil {l : RaftLog} (h : l.unstable.entries = []) :
    l.lastIndex = l.storage.lastIndex.1 := by
  simp [lastIndex, Unstable.maybeLastIndex, h]

theorem lastIndex_of_ne_nil {l : RaftLog} (h : l.unstable.entries ≠ []) :
    l.lastIndex = l.unstable.offset + size l.unstable.entries - 1 := by
  simp [lastIndex, Unstable.maybeLastIndex, h]

theorem lastIndex_with_unstable (l : RaftLog) (u : Unstable) (h : u.entries ≠ []) :
    RaftLog.lastIndex { l with unstable := u } = u.offset + size u.entries - 1 :=
  lastIndex_of_ne_nil (l := { l with unstable := u }) h

/-! ## `CommitTo` moves the commit index and nothing else -/

@[simp] theorem commitTo_committed (l : RaftLog) (c : UInt64) :
    (l.commitTo c).committed = max l.committed c := by
  unfold commitTo
  split
  · next h => exact (max_eq_right h.le).symm
  · next h => exact (max_eq_left (not_lt.mp h)).symm

@[simp] theorem commitTo_storage (l : RaftLog) (c : UInt64) :
    (l.commitTo c).storage = l.storage := by
  unfold commitTo
  split <;> rfl

@[simp] theorem commitTo_unstable (l : RaftLog) (c : UInt64) :
    (l.commitTo c).unstable = l.unstable := by
  unfold commitTo
  split <;> rfl

/-- Two logs with the same storage and the same unstable part hold the same. -/
structure SameEntries (l l' : RaftLog) : Prop where
  storage : l'.storage = l.storage
  unstable : l'.unstable = l.unstable

namespace SameEntries

variable {l l' : RaftLog}

theorem refl (l : RaftLog) : SameEntries l l := ⟨rfl, rfl⟩

theorem commitTo (l : RaftLog) (c : UInt64) : SameEntries l (l.commitTo c) :=
  ⟨commitTo_storage l c, commitTo_unstable l c⟩

theorem firstIndex (h : SameEntries l l') : l'.firstIndex = l.firstIndex := by
  rw [firstIndex_eq, firstIndex_eq, h.storage]

theorem lastIndex (h : SameEntries l l') : l'.lastIndex = l.lastIndex := by
  unfold RaftLog.lastIndex
  rw [h.storage, h.unstable]

theorem storedTerm (h : SameEntries l l') (i : UInt64) : l'.storedTerm i = l.storedTerm i := by
  unfold RaftLog.storedTerm
  rw [h.storage, h.unstable]

theorem inRange (h : SameEntries l l') (i : UInt64) : l'.InRange i ↔ l.InRange i := by
  unfold InRange
  rw [h.firstIndex, h.lastIndex]

theorem holds (h : SameEntries l l') (i t : UInt64) : l'.Holds i t ↔ l.Holds i t := by
  unfold Holds
  rw [h.inRange, h.storedTerm]

theorem mustCheckOutOfBounds (h : SameEntries l l') (lo hi : UInt64) :
    l'.mustCheckOutOfBounds lo hi = l.mustCheckOutOfBounds lo hi := by
  unfold RaftLog.mustCheckOutOfBounds
  rw [h.firstIndex, h.lastIndex]

theorem slice (h : SameEntries l l') (lo hi maxSize : UInt64) (out : List LogEntry) :
    l'.slice lo hi maxSize out = l.slice lo hi maxSize out := by
  unfold RaftLog.slice
  rw [h.mustCheckOutOfBounds, h.storage, h.unstable]

end SameEntries

/-! ## `Term`, `MatchTerm` and the calls built on them -/

variable {w : Unwritten} {l : RaftLog}

theorem inRange_iff {i : UInt64} :
    l.InRange i ↔ ¬ (i < l.firstIndex - 1 ∨ i > l.lastIndex) := by
  rw [InRange, not_or, not_lt, gt_iff_lt, not_lt]

theorem term_of_inRange (hw : w.TermIsStored) {i : UInt64} (h : l.InRange i) :
    l.term w i = (.errNone, l.storedTerm i) := by
  rw [term, if_neg (inRange_iff.mp h), hw l i h]

/-- Outside its range `Term` reports term zero as a success. -/
theorem term_of_not_inRange {i : UInt64} (h : ¬ l.InRange i) :
    l.term w i = (.errNone, 0) := by
  rw [term, if_pos (not_not.mp fun hn => h (inRange_iff.mpr hn))]

/-- **What `MatchTerm` accepts**: an entry the log holds, or term zero at a
position outside the log. -/
theorem matchTerm_iff (hw : w.TermIsStored) {i t : UInt64} :
    l.matchTerm w i t = true ↔ l.Holds i t ∨ (¬ l.InRange i ∧ t = 0) := by
  unfold matchTerm Holds
  by_cases h : l.InRange i
  · simp [term_of_inRange hw h, h]
  · simp only [term_of_not_inRange h, ne_eq, not_true_eq_false, if_false, beq_iff_eq, h,
      false_and, not_false_eq_true, true_and, false_or]
    exact eq_comm

@[simp] theorem zeroTermOnErrCompacted_errNone (t : UInt64) :
    zeroTermOnErrCompacted (.errNone, t) = t := rfl

/-- The term the commit rule compares: the stored one, zero outside the log. -/
theorem zeroTerm_term_eq_iff (hw : w.TermIsStored) {i t : UInt64} (ht : t ≠ 0) :
    zeroTermOnErrCompacted (l.term w i) = t ↔ l.Holds i t := by
  unfold Holds
  by_cases h : l.InRange i
  · simp [term_of_inRange hw h, h]
  · simp [term_of_not_inRange h, h, ht.symm]

theorem maybeAppend_eq (index term committed : UInt64) (ents : List LogEntry) :
    l.maybeAppend w index term committed ents =
      if l.matchTerm w index term then
        ((committed, true), l.commitTo (min committed (index + size ents)))
      else ((0, false), l) := by
  have hcases : (if l.findConflict w ents ≤ l.committed then l
      else if l.findConflict w ents ≠ 0 then l else l) = l := by
    split
    · rfl
    · exact ite_self l
  unfold maybeAppend
  simp only [hcases]

theorem maybeAppend_sameEntries (index term committed : UInt64) (ents : List LogEntry) :
    SameEntries l (l.maybeAppend w index term committed ents).2 := by
  rw [maybeAppend_eq]
  split
  · exact SameEntries.commitTo l _
  · exact SameEntries.refl l

theorem maybeCommit_sameEntries (index term : UInt64) :
    SameEntries l (l.maybeCommit w index term).2 := by
  unfold maybeCommit
  split
  · exact SameEntries.commitTo l _
  · exact SameEntries.refl l

/-- `MaybeCommit` raises the commit index to `index`, or does nothing. -/
theorem maybeCommit_eq (index term : UInt64) :
    l.maybeCommit w index term =
      if l.committed < index ∧ zeroTermOnErrCompacted (l.term w index) = term then
        (true, { l with committed := index })
      else (false, l) := by
  unfold maybeCommit
  by_cases h : l.committed < index ∧ zeroTermOnErrCompacted (l.term w index) = term
  · rw [if_pos h, if_pos h, commitTo, if_pos h.1]
  · rw [if_neg h, if_neg h]

/-! ## Bounds of a read -/

/-- The length computed by the bounds check may wrap; the comparison with it
does not notice. -/
theorem mustCheckOutOfBounds_eq_errNone_iff {lo hi : UInt64} :
    l.mustCheckOutOfBounds lo hi = .errNone ↔
      lo ≤ hi ∧ l.firstIndex ≤ lo ∧ hi ≤ l.lastIndex + 1 := by
  have hlen : l.firstIndex + (l.lastIndex + 1 - l.firstIndex) = l.lastIndex + 1 := by
    grind
  unfold mustCheckOutOfBounds
  simp only [hlen]
  by_cases h1 : lo > hi
  · simp [h1]
  · by_cases h2 : lo < l.firstIndex
    · simp [h1, h2]
    · by_cases h3 : hi > l.lastIndex + 1
      · simp [h1, h2, h3]
      · simp [h1, h2, h3, not_lt.mp h1, not_lt.mp h2, not_lt.mp h3]

/-! ## The two parts of a read -/

/-- What storage contributes to a slice. -/
def storedPart (l : RaftLog) (lo hi maxSize : UInt64) : Option (List LogEntry × RaftError) :=
  if lo < l.unstable.offset then l.storage.entries lo (min hi l.unstable.offset) maxSize
  else some ([], .errNone)

/-- Inside the bounds a slice is the answer of storage and behind it, when there was no
error, the unstable entries the range reaches. -/
theorem slice_of_inBounds {lo hi : UInt64} (hbounds : l.mustCheckOutOfBounds lo hi = .errNone)
    (hne : lo ≠ hi) (maxSize : UInt64) (out : List LogEntry) :
    l.slice lo hi maxSize out =
      (l.storedPart lo hi maxSize).bind fun r =>
        if r.2 = .errNone then
          if l.unstable.offset < hi then
            (l.unstable.slice (max lo l.unstable.offset) hi []).map fun unstableEntries =>
              (.errNone, out ++ r.1 ++ unstableEntries)
          else some (.errNone, out ++ r.1)
        else some (r.2, out) := by
  unfold slice storedPart
  simp only [hbounds, ne_eq, not_true_eq_false, if_false, hne]
  split
  · rcases l.storage.entries lo (min hi l.unstable.offset) maxSize with _ | ⟨ents, err⟩
    · rfl
    · by_cases herr : err = .errNone
      · subst herr
        rfl
      · simp [herr]
  · simp

end RaftLog

end Anraft
