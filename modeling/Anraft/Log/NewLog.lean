import Anraft.Log.Slices

/-!
# Setting up a log

`NewLog` takes over the storage before it asks it for its bounds, so a failure leaves
the log with the new storage and everything else of the old one. On success it moves the
offset of the unstable entries and keeps the entries, which then pass for entries
behind the last one of the new storage.
-/

namespace Anraft

open IteratorRange

/-- One of the two bounds of the storage is an error. -/
def Storage.BoundsFail (st : Storage) : Prop :=
  st.firstIndex.2 ≠ .errNone ∨ st.lastIndex.2 ≠ .errNone

/-- The answer of storage to a read of `[lo, hi)` into `out`. -/
def Storage.readInto (st : Storage) (lo hi maxSize : UInt64) (out : List LogEntry) :
    Option (RaftError × List LogEntry) :=
  if lo = hi then some (.errNone, out)
  else (st.entries lo hi maxSize).map fun r =>
    (r.2, if r.2 = .errNone then out ++ r.1 else out)

namespace RaftLog

variable {l : RaftLog} {st : Storage} {lo hi maxSize : UInt64} {out : List LogEntry}

/-- After an append that continues the log, a read up to the new end returns what `st` has
before the batch, and then the batch. -/
def TakesBatch (st : Storage) (l : RaftLog) (first : LogEntry) (rest : List LogEntry) : Prop :=
  ∃ l', l.append (first :: rest) = some (l.lastIndex + size (first :: rest), l') ∧
    ∀ lo maxSize out, st.firstIndex.1 ≤ lo → lo ≤ first.uindex →
      l'.slice lo (first.uindex + size (first :: rest)) maxSize out =
        (st.readInto lo first.uindex maxSize out).map fun r =>
          (r.1, if r.1 = .errNone then r.2 ++ first :: rest else r.2)

/-- The log reads as the storage does, and continues it. -/
structure StandsFor (st : Storage) (l : RaftLog) : Prop where
  firstIndex : l.firstIndex = st.firstIndex.1
  lastIndex : l.lastIndex = st.lastIndex.1
  slice : ∀ lo hi maxSize out, l.mustCheckOutOfBounds lo hi = .errNone →
    l.slice lo hi maxSize out = st.readInto lo hi maxSize out
  append : ∀ first rest, first.uindex = l.lastIndex + 1 →
    l.lastIndex.toNat + 1 + (first :: rest).length < 2 ^ 64 → TakesBatch st l first rest
  committed : l.committed = st.firstIndex.1 - 1
  applied : l.applied = st.firstIndex.1 - 1

/-- `NewLog` fails and leaves the log as it was, or sets it up for the storage. -/
structure AllOrNothing (l : RaftLog) (st : Storage) : Prop where
  nothing : st.BoundsFail → l.newLog (some st) = (some false, l)
  all : ¬ st.BoundsFail → StandsFor st (l.newLog (some st)).2

/-! ## The two outcomes -/

theorem newLog_of_boundsFail (h : st.BoundsFail) :
    l.newLog (some st) = (some false, { l with storage := st }) := by
  unfold newLog
  by_cases hfirst : st.firstIndex.2 = .errNone
  · have hlast := h.resolve_left (not_not.mpr hfirst)
    simp [hfirst, hlast]
  · simp [hfirst]

/-- The log `NewLog` leaves when both bounds are there. -/
def setUp (l : RaftLog) (st : Storage) : RaftLog where
  storage := st
  unstable := l.unstable.setOffset (st.lastIndex.1 + 1)
  committed := st.firstIndex.1 - 1
  applied := st.firstIndex.1 - 1

theorem newLog_of_not_boundsFail (h : ¬ st.BoundsFail) :
    (l.newLog (some st)).2 = l.setUp st := by
  obtain ⟨hfirst, hlast⟩ := not_or.mp h
  unfold newLog
  simp only [if_neg hfirst, if_neg hlast]
  rfl

/-! ## A log without leftovers -/

theorem setUp_lastIndex_of_nil (h : l.unstable.entries = []) :
    (l.setUp st).lastIndex = st.lastIndex.1 :=
  lastIndex_of_nil (l := l.setUp st) h

theorem setUp_slice_of_nil (h : l.unstable.entries = [])
    (hbounds : (l.setUp st).mustCheckOutOfBounds lo hi = .errNone) :
    (l.setUp st).slice lo hi maxSize out = st.readInto lo hi maxSize out := by
  obtain ⟨hle, -, hhi⟩ := mustCheckOutOfBounds_eq_errNone_iff.mp hbounds
  rw [setUp_lastIndex_of_nil h] at hhi
  have hoff : (l.setUp st).unstable.offset = st.lastIndex.1 + 1 := rfl
  unfold Storage.readInto
  rcases hle.eq_or_lt with rfl | hlt
  · simp [slice, hbounds]
  · have hpart : (l.setUp st).storedPart lo hi maxSize = st.entries lo hi maxSize := by
      rw [storedPart, hoff, if_pos (hlt.trans_le hhi), min_eq_left hhi]
      rfl
    rw [slice_of_inBounds hbounds hlt.ne, hpart, if_neg hlt.ne, hoff, Option.map_eq_bind]
    congr 1
    funext r
    by_cases herr : r.2 = .errNone
    · simp [herr, hhi.not_gt]
    · simp [herr]

/-- The log with a batch in the place of its unstable entries. -/
def withBatch (l : RaftLog) (batch : List LogEntry) : RaftLog :=
  { l with unstable := { l.unstable with entries := batch } }

theorem setUp_append_of_nil (h : l.unstable.entries = []) {first : LogEntry}
    {rest : List LogEntry} (hfirst : first.uindex = st.lastIndex.1 + 1) :
    (l.setUp st).append (first :: rest) =
      some (st.lastIndex.1 + size (first :: rest), (l.setUp st).withBatch (first :: rest)) := by
  have hnil : (l.setUp st).unstable.entries = [] := h
  have hoff : (l.setUp st).unstable.offset = st.lastIndex.1 + 1 := rfl
  have hnext : first.uindex =
      (l.setUp st).unstable.offset + size (l.setUp st).unstable.entries := by
    rw [hfirst, hoff, hnil]
    exact (UInt64.add_zero _).symm
  have hlast := lastIndex_of_ne_nil (l := (l.setUp st).withBatch (first :: rest))
    (List.cons_ne_nil _ _)
  have hindex : st.lastIndex.1 + 1 + size (first :: rest) - 1 =
      st.lastIndex.1 + size (first :: rest) := by grind
  unfold append Unstable.truncateAndAppend
  dsimp only
  rw [if_pos hnext, hnil, List.nil_append, Option.map_some]
  show some (((l.setUp st).withBatch (first :: rest)).lastIndex, _) = _
  rw [hlast, ← hindex]
  rfl

/-- The whole vector, read by its indexes. -/
theorem withBatch_unstable_slice {batch : List LogEntry} {offset : UInt64}
    (hoff : l.unstable.offset = offset) (hfit : offset.toNat + batch.length < 2 ^ 64) :
    (l.withBatch batch).unstable.slice offset (offset + size batch) [] = some batch := by
  have hsize : (offset + size batch).toNat = offset.toNat + batch.length := by
    rw [UInt64.toNat_add, toNat_size batch (by omega), Nat.mod_eq_of_lt hfit]
  have hrange := range?_natCast batch (Nat.zero_le batch.length) le_rfl
  rw [List.drop_zero, Nat.sub_zero, List.take_length] at hrange
  unfold Unstable.slice
  rw [hsize, show (l.withBatch batch).unstable.offset = offset from hoff, sub_self, Nat.cast_add,
    add_sub_cancel_left]
  show (range? batch _ _).map _ = _
  rw [show ((0 : ℤ)) = ((0 : ℕ) : ℤ) from rfl, hrange, Option.map_some, List.append_nil]

theorem setUp_takesBatch_of_nil (h : l.unstable.entries = []) {first : LogEntry}
    {rest : List LogEntry} (hfirst : first.uindex = st.lastIndex.1 + 1)
    (hfit : st.lastIndex.1.toNat + 1 + (first :: rest).length < 2 ^ 64) :
    TakesBatch st (l.setUp st) first rest := by
  have hoffset : first.uindex.toNat = st.lastIndex.1.toNat + 1 := by
    rw [hfirst, UInt64.toNat_add_one_of_lt (by omega)]
  have hfit' : first.uindex.toNat + (first :: rest).length < 2 ^ 64 := by rwa [hoffset]
  have hend : (first.uindex + size (first :: rest)).toNat =
      first.uindex.toNat + (first :: rest).length := by
    rw [UInt64.toNat_add, toNat_size _ (by omega), Nat.mod_eq_of_lt hfit']
  have hlt : first.uindex < first.uindex + size (first :: rest) := by
    rw [UInt64.lt_iff_toNat_lt, hend]
    exact Nat.lt_add_of_pos_right (Nat.succ_pos _)
  have hoff : (l.setUp st).unstable.offset = first.uindex := hfirst.symm
  refine ⟨(l.setUp st).withBatch (first :: rest), ?_, fun lo maxSize out hlo hle => ?_⟩
  · rw [setUp_append_of_nil h hfirst, setUp_lastIndex_of_nil h]
  · have hlast := lastIndex_of_ne_nil (l := (l.setUp st).withBatch (first :: rest))
      (List.cons_ne_nil _ _)
    have hbounds : ((l.setUp st).withBatch (first :: rest)).mustCheckOutOfBounds lo
        (first.uindex + size (first :: rest)) = .errNone := by
      rw [mustCheckOutOfBounds_eq_errNone_iff, hlast]
      refine ⟨hle.trans hlt.le, hlo, ?_⟩
      show _ ≤ (l.setUp st).unstable.offset + size (first :: rest) - 1 + 1
      rw [hoff, sub_add_cancel]
    have hslice := withBatch_unstable_slice (l := l.setUp st) hoff hfit'
    have hoff' : ((l.setUp st).withBatch (first :: rest)).unstable.offset = first.uindex := hoff
    rw [slice_of_inBounds hbounds (hle.trans_lt hlt).ne]
    simp only [storedPart, hoff', if_pos hlt, max_eq_right hle, hslice, min_eq_right hlt.le,
      Option.map_some]
    show (if lo < first.uindex then st.entries lo first.uindex maxSize
      else some ([], .errNone)).bind _ = _
    unfold Storage.readInto
    rcases hle.eq_or_lt with rfl | hbefore
    · simp
    · rw [if_pos hbefore, if_neg hbefore.ne]
      rcases st.entries lo first.uindex maxSize with _ | ⟨ents, err⟩
      · rfl
      · by_cases herr : err = .errNone
        · simp [herr]
        · simp [herr]

theorem setUp_standsFor_of_nil (h : l.unstable.entries = []) : StandsFor st (l.setUp st) where
  firstIndex := rfl
  lastIndex := setUp_lastIndex_of_nil h
  slice _ _ _ _ hbounds := setUp_slice_of_nil h hbounds
  append first rest hfirst hfit := by
    rw [setUp_lastIndex_of_nil h] at hfirst hfit
    exact setUp_takesBatch_of_nil h hfirst hfit
  committed := rfl
  applied := rfl

/-! ## A log with leftovers -/

/-- Entries left over count as entries behind the last one of storage. -/
theorem nil_of_setUp_lastIndex (hsize : l.unstable.entries.length < 2 ^ 64)
    (h : (l.setUp st).lastIndex = st.lastIndex.1) : l.unstable.entries = [] := by
  by_contra hne
  have hlast := lastIndex_of_ne_nil (l := l.setUp st) hne
  have hindex : st.lastIndex.1 + 1 + size l.unstable.entries - 1 =
      st.lastIndex.1 + size l.unstable.entries := by grind
  have hsum : st.lastIndex.1 + size l.unstable.entries = st.lastIndex.1 :=
    hindex.symm.trans (hlast.symm.trans h)
  have hzero : size l.unstable.entries = 0 := add_eq_left.mp hsum
  have hlength := toNat_size l.unstable.entries hsize
  rw [hzero] at hlength
  exact hne (List.length_eq_zero_iff.mp hlength.symm)

/-- **When `NewLog` does all or nothing.** A failure leaves the log as it was exactly if the
log had this storage already; otherwise the log stands for the storage exactly if
it held no unstable entries. (A vector has fewer than `2 ^ 64` elements.) -/
theorem newLog_allOrNothing_iff (l : RaftLog) (st : Storage)
    (hsize : l.unstable.entries.length < 2 ^ 64) :
    AllOrNothing l st ↔
      (st.BoundsFail → l.storage = st) ∧ (¬ st.BoundsFail → l.unstable.entries = []) := by
  constructor
  · intro h
    refine ⟨fun hfail => ?_, fun hfine => ?_⟩
    · have hsame := h.nothing hfail
      rw [newLog_of_boundsFail hfail] at hsame
      exact (congrArg RaftLog.storage (Prod.mk.inj hsame).2).symm
    · have hstands := h.all hfine
      rw [newLog_of_not_boundsFail hfine] at hstands
      exact nil_of_setUp_lastIndex hsize hstands.lastIndex
  · rintro ⟨hstorage, hnil⟩
    refine ⟨fun hfail => ?_, fun hfine => ?_⟩
    · rw [newLog_of_boundsFail hfail, ← hstorage hfail]
    · rw [newLog_of_not_boundsFail hfine]
      exact setUp_standsFor_of_nil (hnil hfine)

/-- The first log of a process. -/
theorem newLog_allOrNothing_blank : AllOrNothing blank (Storage.holding 2 4 fun _ => {}) :=
  (newLog_allOrNothing_iff blank (Storage.holding 2 4 fun _ => {}) (by decide)).mpr
    ⟨by rintro (h | h) <;> exact absurd rfl h, fun _ => rfl⟩

/-- A second log in the same process: two unstable entries of the first are taken for
entries 5 and 6 of the second. -/
theorem newLog_allOrNothing_fails : ¬ ∀ (l : RaftLog) (st : Storage), AllOrNothing l st := by
  intro h
  have hfine : ¬ (Storage.holding 2 4 fun _ => {}).BoundsFail := by
    rintro (h | h) <;> exact absurd rfl h
  have hlast := ((h overlapping (Storage.holding 2 4 fun _ => {})).all hfine).lastIndex
  revert hlast
  decide

end RaftLog

end Anraft
