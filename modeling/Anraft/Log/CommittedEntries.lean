import Anraft.Log.Calls

/-!
# Committed entries over a run of the log

An entry is what `Slice` returns for a single index. `Append` may hide stored
entries by lowering the offset, cut the unstable tail, or, in its truncating
case, keep the wrong positions of the vector; nothing in it looks at the commit
index. `SparesCommitted` says exactly when committed entries come out unharmed.
-/

namespace Anraft

open IteratorRange

/-! ## Reading one entry -/

/-- The entry storage answers for index `i`. -/
def Storage.readEntry (st : Storage) (maxSize i : UInt64) : Option LogEntry :=
  match st.entries i (i + 1) maxSize with
  | some ([e], .errNone) => some e
  | _ => none

namespace RaftLog

/-- The entry `Slice` answers for index `i`. -/
def readEntry (l : RaftLog) (maxSize i : UInt64) : Option LogEntry :=
  match l.slice i (i + 1) maxSize [] with
  | some (.errNone, [e]) => some e
  | _ => none

/-- The indexes of the log, the one after the last included, are `uint64_t`. -/
structure IndexesFit (l : RaftLog) : Prop where
  storage : l.storage.lastIndex.1.toNat + 1 < 2 ^ 64
  unstable : l.unstable.offset.toNat + l.unstable.entries.length < 2 ^ 64

/-- `entries[i]` has index `offset + i`, and the unstable part starts inside
storage or right after it. -/
structure WellFormed (l : RaftLog) : Prop extends IndexesFit l where
  consecutive : Consecutive l.unstable.offset l.unstable.entries
  offset_le : l.unstable.offset.toNat ≤ l.storage.lastIndex.1.toNat + 1
  offset_eq : l.unstable.entries = [] →
    l.unstable.offset.toNat = l.storage.lastIndex.1.toNat + 1

variable {w : Unwritten} {l : RaftLog} {i maxSize : UInt64}

theorem IndexesFit.toNat_lastIndex (h : l.IndexesFit) (hne : l.unstable.entries ≠ []) :
    l.lastIndex.toNat = l.unstable.offset.toNat + l.unstable.entries.length - 1 := by
  have hfit := h.unstable
  have hpos := List.length_pos_iff.mpr hne
  have hsize := toNat_size l.unstable.entries (by omega)
  rw [lastIndex_of_ne_nil hne, UInt64.toNat_sub, UInt64.toNat_add, hsize, UInt64.toNat_one]
  omega

theorem IndexesFit.lastIndex_lt (h : l.IndexesFit) : l.lastIndex.toNat + 1 < 2 ^ 64 := by
  by_cases hne : l.unstable.entries = []
  · rw [lastIndex_of_nil hne]
    exact h.storage
  · have hpos := List.length_pos_iff.mpr hne
    have hfit := h.unstable
    rw [h.toNat_lastIndex hne]
    omega

theorem IndexesFit.toNat_add_one (hfit : l.IndexesFit) (hhi : i ≤ l.lastIndex) :
    (i + 1).toNat = i.toNat + 1 := by
  have hlast := hfit.lastIndex_lt
  have hle : i.toNat ≤ l.lastIndex.toNat := hhi
  exact UInt64.toNat_add_one_of_lt (by omega)

/-- A single index of the log is a range inside the bounds. -/
theorem IndexesFit.inBounds_succ (hfit : l.IndexesFit) (hlo : l.firstIndex ≤ i)
    (hhi : i ≤ l.lastIndex) : l.mustCheckOutOfBounds i (i + 1) = .errNone := by
  have hlast := UInt64.toNat_add_one_of_lt hfit.lastIndex_lt
  have hsucc := hfit.toNat_add_one hhi
  have hle : i.toNat ≤ l.lastIndex.toNat := hhi
  rw [mustCheckOutOfBounds_eq_errNone_iff, UInt64.le_iff_toNat_le, UInt64.le_iff_toNat_le,
    UInt64.le_iff_toNat_le, hsucc, hlast]
  exact ⟨Nat.le_succ _, hlo, Nat.succ_le_succ hle⟩

/-- The unstable entry at a position from the offset on. -/
theorem unstable_slice_succ (hoff : l.unstable.offset ≤ i) (hsucc : (i + 1).toNat = i.toNat + 1) :
    l.unstable.slice i (i + 1) [] =
      l.unstable.entries[(i - l.unstable.offset).toNat]?.map fun e => [e] := by
  have hpos : (i - l.unstable.offset).toNat = i.toNat - l.unstable.offset.toNat :=
    UInt64.toNat_sub_of_le _ _ hoff
  have hoff' : l.unstable.offset.toNat ≤ i.toNat := hoff
  have hfirst : ((i.toNat : ℤ) - l.unstable.offset.toNat) =
      ((i.toNat - l.unstable.offset.toNat : ℕ) : ℤ) := by omega
  have hend : (((i + 1).toNat : ℤ) - l.unstable.offset.toNat) =
      ((i.toNat - l.unstable.offset.toNat : ℕ) : ℤ) + 1 := by omega
  rw [Unstable.slice, hfirst, hend, range?_succ, hpos]
  cases l.unstable.entries[i.toNat - l.unstable.offset.toNat]? <;> rfl

/-- Inside the bounds a single index is read from storage below the offset and
from the unstable entries at and above it. -/
theorem slice_succ (hfit : l.IndexesFit) (hlo : l.firstIndex ≤ i) (hhi : i ≤ l.lastIndex) :
    l.slice i (i + 1) maxSize [] =
      if i < l.unstable.offset then
        (l.storage.entries i (i + 1) maxSize).map fun eRet =>
          (eRet.2, if eRet.2 = .errNone then eRet.1 else [])
      else
        l.unstable.entries[(i - l.unstable.offset).toNat]?.map fun e => (.errNone, [e]) := by
  have hsucc := hfit.toNat_add_one hhi
  have hne : i ≠ i + 1 := fun h => Nat.succ_ne_self i.toNat (hsucc.symm.trans (congrArg _ h.symm))
  rw [slice_of_inBounds (hfit.inBounds_succ hlo hhi) hne, storedPart]
  by_cases hoff : i < l.unstable.offset
  · have hnext : i + 1 ≤ l.unstable.offset := by
      rw [UInt64.le_iff_toNat_le, hsucc]
      exact hoff
    rw [if_pos hoff, if_pos hoff, min_eq_left hnext]
    rcases l.storage.entries i (i + 1) maxSize with _ | ⟨ents, err⟩
    · rfl
    · by_cases herr : err = .errNone
      · simp [herr, hnext.not_gt]
      · simp [herr]
  · have hoff' := not_lt.mp hoff
    have hgo : l.unstable.offset < i + 1 := by
      rw [UInt64.lt_iff_toNat_lt, hsucc]
      exact Nat.lt_succ_of_le hoff'
    rw [if_neg hoff, if_neg hoff, Option.bind_some, if_pos rfl, if_pos hgo, max_eq_left hoff',
      unstable_slice_succ hoff' hsucc, Option.map_map]
    rfl

/-- Outside the bounds nothing is read. -/
theorem readEntry_bounds (hfit : l.IndexesFit) {e : LogEntry}
    (h : l.readEntry maxSize i = some e) : l.firstIndex ≤ i ∧ i ≤ l.lastIndex := by
  have hbounds : l.mustCheckOutOfBounds i (i + 1) = .errNone := by
    by_contra hne
    simp [readEntry, slice, hne] at h
  obtain ⟨hle, hlo, hhi⟩ := mustCheckOutOfBounds_eq_errNone_iff.mp hbounds
  refine ⟨hlo, ?_⟩
  have hlast := hfit.lastIndex_lt
  have htop : i.toNat + 1 < 2 ^ 64 := by
    rw [UInt64.le_iff_toNat_le, UInt64.toNat_add, UInt64.toNat_one] at hle
    have := i.toNat_lt
    omega
  rw [UInt64.le_iff_toNat_le, UInt64.toNat_add_one_of_lt htop, UInt64.toNat_add_one_of_lt hlast] at hhi
  rw [UInt64.le_iff_toNat_le]
  omega

theorem readEntry_eq (hfit : l.IndexesFit) (hlo : l.firstIndex ≤ i) (hhi : i ≤ l.lastIndex) :
    l.readEntry maxSize i =
      if i < l.unstable.offset then l.storage.readEntry maxSize i
      else l.unstable.entries[(i - l.unstable.offset).toNat]? := by
  unfold readEntry
  rw [slice_succ hfit hlo hhi]
  by_cases hoff : i < l.unstable.offset
  · rw [if_pos hoff, if_pos hoff, Storage.readEntry]
    rcases l.storage.entries i (i + 1) maxSize with _ | ⟨es, err⟩
    · rfl
    · cases err <;> rcases es with _ | ⟨e, _ | _⟩ <;> rfl
  · rw [if_neg hoff, if_neg hoff]
    cases l.unstable.entries[(i - l.unstable.offset).toNat]? <;> rfl

theorem SameEntries.readEntry {l l' : RaftLog} (h : SameEntries l l') (maxSize i : UInt64) :
    l'.readEntry maxSize i = l.readEntry maxSize i := by
  unfold RaftLog.readEntry
  rw [h.slice]

/-! ## What a call owes the committed entries -/

/-- Every committed entry readable in `l` is readable in `l'`, with the same term
and data. -/
def KeepsCommitted (l l' : RaftLog) : Prop :=
  ∀ (maxSize i : UInt64) (e : LogEntry), l.firstIndex ≤ i → i ≤ l.committed →
    l.readEntry maxSize i = some e →
      ∃ e', l'.readEntry maxSize i = some e' ∧ e'.term = e.term ∧ e'.data = e.data

/-- A call is defined, keeps the committed entries, and leaves the log alone when
it is a batch that starts at or below the commit index. -/
def CommittedKept (w : Unwritten) (l : RaftLog) (c : LogCall) : Prop :=
  ∃ l', l.call w c = some l' ∧ KeepsCommitted l l' ∧
    ∀ first rest, c = .append (first :: rest) → first.uindex ≤ l.committed → l' = l

/-- The truncating case moves position `i` of the vector to the place of log
position `i`; no committed entry changes its term or data by that. It never
happens when `offset_` is zero or above the commit index. -/
def ShiftUnseen (l : RaftLog) : Prop :=
  ∀ (i : UInt64) (e e' : LogEntry), l.firstIndex ≤ i → l.unstable.offset ≤ i →
    i ≤ l.committed → l.unstable.entries[(i - l.unstable.offset).toNat]? = some e →
      l.unstable.entries[i.toNat]? = some e' → e'.term = e.term ∧ e'.data = e.data

end RaftLog

/-- A batch is not empty and sits at consecutive indexes whose successor
is still a `uint64_t`. -/
def LogCall.WellFormed : LogCall → Prop
  | .append [] => False
  | .append (first :: rest) =>
    Consecutive first.uindex (first :: rest) ∧
      first.uindex.toNat + (first :: rest).length < 2 ^ 64
  | _ => True

/-- A batch starts above the commit index, or is the unstable part once more; and
where it neither continues nor replaces the unstable part, it starts inside the
vector and the shift of the truncating case is not seen. -/
def LogCall.SparesCommitted (l : RaftLog) : LogCall → Prop
  | .append (first :: rest) =>
    if first.uindex ≤ l.committed then
      first.uindex = l.unstable.offset ∧ first :: rest = l.unstable.entries
    else
      first.uindex = l.unstable.offset + size l.unstable.entries ∨
        first.uindex ≤ l.unstable.offset ∨
          (first.uindex.toNat ≤ l.unstable.entries.length ∧ l.ShiftUnseen)
  | _ => True

namespace RaftLog

variable {w : Unwritten} {l : RaftLog} {first : LogEntry} {rest : List LogEntry}

theorem SameEntries.keepsCommitted {l l' : RaftLog} (h : SameEntries l l') :
    KeepsCommitted l l' := by
  intro maxSize i e _ _ hread
  exact ⟨e, by rw [h.readEntry, hread], rfl, rfl⟩

theorem keepsCommitted_refl (l : RaftLog) : KeepsCommitted l l :=
  (SameEntries.refl l).keepsCommitted

/-- **Rule for a new unstable part.** It keeps the committed entries if every
committed unstable position still has its term and data, and the stored positions
below the old offset stay below the new one. -/
theorem keepsCommitted_with_unstable {u : Unstable} (hfit : l.IndexesFit)
    (hfit' : IndexesFit { l with unstable := u }) (hne : u.entries ≠ [])
    (hstored : ∀ i, i ≤ l.committed → i < l.unstable.offset → i < u.offset)
    (hend : l.committed.toNat < u.offset.toNat + u.entries.length)
    (hkept : ∀ (i : UInt64) (e : LogEntry), l.firstIndex ≤ i → i ≤ l.committed →
      l.unstable.offset ≤ i →
      l.unstable.entries[(i - l.unstable.offset).toNat]? = some e →
        u.offset ≤ i ∧ ∃ e', u.entries[(i - u.offset).toNat]? = some e' ∧
          e'.term = e.term ∧ e'.data = e.data) :
    KeepsCommitted l { l with unstable := u } := by
  intro maxSize i e hlo hi hread
  have hi' : i.toNat ≤ l.committed.toNat := hi
  have hlast : i ≤ lastIndex { l with unstable := u } := by
    rw [UInt64.le_iff_toNat_le, hfit'.toNat_lastIndex hne]
    show i.toNat ≤ u.offset.toNat + u.entries.length - 1
    omega
  obtain ⟨-, hhi⟩ := readEntry_bounds hfit hread
  rw [readEntry_eq hfit hlo hhi] at hread
  rw [readEntry_eq (l := { l with unstable := u }) hfit' hlo hlast]
  by_cases hoff : i < l.unstable.offset
  · rw [if_pos hoff] at hread
    exact ⟨e, by rw [if_pos (hstored i hi hoff), hread], rfl, rfl⟩
  · rw [if_neg hoff] at hread
    obtain ⟨hu, e', he', hsame⟩ := hkept i e hlo hi (not_lt.mp hoff) hread
    exact ⟨e', by rw [if_neg (not_lt.mpr hu), he'], hsame⟩

/-! ## The three cases of `Append` -/

theorem indexesFit_next (hfit : l.IndexesFit)
    (hbatch : (LogCall.append (first :: rest)).WellFormed)
    (hnext : first.uindex = l.unstable.offset + size l.unstable.entries) :
    IndexesFit { l with unstable :=
      { l.unstable with entries := l.unstable.entries ++ first :: rest } } where
  storage := hfit.storage
  unstable := by
    have hu := hfit.unstable
    have hb := hbatch.2
    have hsize := toNat_size l.unstable.entries (by omega)
    rw [hnext, UInt64.toNat_add, hsize] at hb
    rw [List.length_append]
    show l.unstable.offset.toNat + _ < _
    omega

theorem indexesFit_replace (hfit : l.IndexesFit)
    (hbatch : (LogCall.append (first :: rest)).WellFormed) :
    IndexesFit { l with unstable := { offset := first.uindex, entries := first :: rest } } where
  storage := hfit.storage
  unstable := hbatch.2

theorem indexesFit_truncate (hfit : l.IndexesFit)
    (hrep : ¬ first.uindex ≤ l.unstable.offset)
    (hlen : first.uindex.toNat ≤ l.unstable.entries.length) :
    IndexesFit { l with unstable := { l.unstable with
      entries := (l.unstable.entries.drop l.unstable.offset.toNat).take
        (first.uindex.toNat - l.unstable.offset.toNat) } } where
  storage := hfit.storage
  unstable := by
    have hlt : l.unstable.offset.toNat < first.uindex.toNat := not_le.mp hrep
    have := first.uindex.toNat_lt
    rw [truncated_length hlen]
    show l.unstable.offset.toNat + _ < _
    omega

/-- The indexes keep fitting over every run of well-formed batches. -/
theorem indexesFit_call {c : LogCall} {l' : RaftLog} (hfit : l.IndexesFit) (hc : c.WellFormed)
    (hcall : l.call w c = some l') : l'.IndexesFit := by
  have hsame : ∀ {l' : RaftLog}, SameEntries l l' → l'.IndexesFit := fun h =>
    ⟨h.storage ▸ hfit.storage, h.unstable ▸ hfit.unstable⟩
  cases c with
  | maybeAppend index term committed ents =>
      cases hcall
      exact hsame (maybeAppend_sameEntries index term committed ents)
  | maybeCommit index term =>
      cases hcall
      exact hsame (maybeCommit_sameEntries index term)
  | append ents =>
      cases ents with
      | nil => exact hc.elim
      | cons first rest =>
          rcases call_append_cases hcall with ⟨hnext, rfl⟩ | ⟨-, rfl⟩ | ⟨hcut, hlen, rfl⟩
          · exact indexesFit_next hfit hc hnext
          · exact indexesFit_replace hfit hc
          · exact indexesFit_truncate hfit (not_le.mpr hcut) hlen

theorem toNat_next (hfit : l.IndexesFit) :
    (l.unstable.offset + size l.unstable.entries).toNat =
      l.unstable.offset.toNat + l.unstable.entries.length := by
  have hu := hfit.unstable
  rw [UInt64.toNat_add, toNat_size l.unstable.entries (by omega)]
  omega

theorem keepsCommitted_next (hfit : l.IndexesFit)
    (hbatch : (LogCall.append (first :: rest)).WellFormed)
    (habove : l.committed < first.uindex)
    (hnext : first.uindex = l.unstable.offset + size l.unstable.entries) :
    KeepsCommitted l { l with unstable :=
      { l.unstable with entries := l.unstable.entries ++ first :: rest } } := by
  have hlt : l.committed.toNat < first.uindex.toNat := habove
  rw [hnext, toNat_next hfit] at hlt
  refine keepsCommitted_with_unstable hfit (indexesFit_next hfit hbatch hnext) (by simp)
    (fun _ _ hi => hi) ?_ ?_
  · rw [List.length_append]
    show _ < l.unstable.offset.toNat + _
    omega
  · intro i e _ _ hoff he
    refine ⟨hoff, e, ?_, rfl, rfl⟩
    obtain ⟨hi, -⟩ := List.getElem?_eq_some_iff.mp he
    rw [List.getElem?_append_left hi, he]

theorem keepsCommitted_replace (hfit : l.IndexesFit)
    (hbatch : (LogCall.append (first :: rest)).WellFormed)
    (habove : l.committed < first.uindex) (hrep : first.uindex ≤ l.unstable.offset) :
    KeepsCommitted l
      { l with unstable := { offset := first.uindex, entries := first :: rest } } := by
  have hlt : l.committed.toNat < first.uindex.toNat := habove
  refine keepsCommitted_with_unstable hfit (indexesFit_replace hfit hbatch)
    (List.cons_ne_nil _ _) (fun i hi _ => hi.trans_lt habove) ?_ ?_
  · show _ < first.uindex.toNat + _
    omega
  · intro i e _ hi hoff _
    exact absurd ((hi.trans_lt habove).trans_le (hrep.trans hoff)) (lt_irrefl i)

/-- The element at the place of log position `i` after the truncating case. -/
theorem getElem?_truncated {i : UInt64} (hoff : l.unstable.offset ≤ i)
    (hi : i < first.uindex) :
    ((l.unstable.entries.drop l.unstable.offset.toNat).take
      (first.uindex.toNat - l.unstable.offset.toNat))[(i - l.unstable.offset).toNat]? =
        l.unstable.entries[i.toNat]? := by
  have hoff' : l.unstable.offset.toNat ≤ i.toNat := hoff
  have hi' : i.toNat < first.uindex.toNat := hi
  rw [UInt64.toNat_sub_of_le _ _ hoff, List.getElem?_take_of_lt (by omega), List.getElem?_drop]
  congr 1
  omega

theorem keepsCommitted_truncate_iff (hfit : l.IndexesFit)
    (habove : l.committed < first.uindex) (hrep : ¬ first.uindex ≤ l.unstable.offset)
    (hlen : first.uindex.toNat ≤ l.unstable.entries.length) :
    KeepsCommitted l { l with unstable := { l.unstable with
      entries := (l.unstable.entries.drop l.unstable.offset.toNat).take
        (first.uindex.toNat - l.unstable.offset.toNat) } } ↔ l.ShiftUnseen := by
  have hlt : l.committed.toNat < first.uindex.toNat := habove
  have hlt' : l.unstable.offset.toNat < first.uindex.toNat := not_le.mp hrep
  have hcut := truncated_length hlen
  have hfit' := indexesFit_truncate hfit hrep hlen
  have hne : (l.unstable.entries.drop l.unstable.offset.toNat).take
      (first.uindex.toNat - l.unstable.offset.toNat) ≠ [] :=
    List.length_pos_iff.mp (by omega)
  have hne' : l.unstable.entries ≠ [] := List.length_pos_iff.mp (by omega)
  constructor
  · intro hkept i e e' hlo hoff hi he he'
    have hi' : i.toNat ≤ l.committed.toNat := hi
    have hhi : i ≤ l.lastIndex := by
      rw [UInt64.le_iff_toNat_le, hfit.toNat_lastIndex hne']
      omega
    have hread : l.readEntry 0 i = some e := by
      rw [readEntry_eq hfit hlo hhi, if_neg (not_lt.mpr hoff), he]
    obtain ⟨e'', he'', hsame⟩ := hkept 0 i e hlo hi hread
    have hhi' : i ≤ lastIndex { l with unstable := { l.unstable with
        entries := (l.unstable.entries.drop l.unstable.offset.toNat).take
          (first.uindex.toNat - l.unstable.offset.toNat) } } :=
      (readEntry_bounds hfit' he'').2
    rw [readEntry_eq hfit' hlo hhi', if_neg (not_lt.mpr hoff),
      getElem?_truncated hoff (hi.trans_lt habove), he'] at he''
    exact Option.some.inj he'' ▸ hsame
  · intro hshift
    refine keepsCommitted_with_unstable hfit hfit' hne (fun _ _ hi => hi) ?_ ?_
    · rw [hcut]
      show _ < l.unstable.offset.toNat + _
      omega
    · intro i e hlo hi hoff he
      have hi' : i.toNat ≤ l.committed.toNat := hi
      have he' := List.getElem?_eq_getElem (l := l.unstable.entries) (i := i.toNat) (by omega)
      exact ⟨hoff, _, (getElem?_truncated hoff (hi.trans_lt habove)).trans he',
        hshift i e _ hlo hoff hi he he'⟩

/-- `Append` leaves the log exactly as it was only when the batch is the unstable
part once more. -/
theorem call_append_eq_self_iff (hfit : l.IndexesFit) :
    l.call w (.append (first :: rest)) = some l ↔
      first.uindex = l.unstable.offset ∧ first :: rest = l.unstable.entries := by
  have hself : ∀ u : Unstable, ({ l with unstable := u } : RaftLog) = l ↔ u = l.unstable :=
    fun u => ⟨fun h => congrArg RaftLog.unstable h, fun h => by rw [h]⟩
  have hu : ∀ (offset : UInt64) (ents : List LogEntry),
      ({ offset := offset, entries := ents } : Unstable) = l.unstable ↔
        offset = l.unstable.offset ∧ ents = l.unstable.entries := by
    intro offset ents
    rw [Unstable.mk.injEq, and_comm]
  by_cases hnext : first.uindex = l.unstable.offset + size l.unstable.entries
  · rw [call_append_next hnext, Option.some.injEq, hself, hu]
    constructor
    · rintro ⟨-, h⟩
      simp at h
    · rintro ⟨hoff, hents⟩
      have hnat := toNat_next hfit
      rw [← hnext, hoff, ← hents, List.length_cons] at hnat
      omega
  · by_cases hrep : first.uindex ≤ l.unstable.offset
    · rw [call_append_replace hnext hrep, Option.some.injEq, hself, hu]
    · have hlt : l.unstable.offset.toNat < first.uindex.toNat := not_le.mp hrep
      rw [call_append_truncate hnext hrep]
      constructor
      · intro h
        by_cases hlen : first.uindex.toNat ≤ l.unstable.entries.length
        · rw [if_pos hlen, Option.some.injEq, hself, hu] at h
          have hcut := truncated_length hlen
          rw [h.2] at hcut
          -- only a batch right after the unstable entries would fit
          refine absurd (UInt64.toNat_inj.mp ?_) hnext
          rw [toNat_next hfit]
          omega
        · rw [if_neg hlen] at h
          cases h
      · rintro ⟨hoff, -⟩
        exact absurd hoff.le hrep

/-- **One call** keeps the committed entries exactly under its condition. -/
theorem committedKept_iff (hfit : l.IndexesFit) {c : LogCall} (hc : c.WellFormed) :
    CommittedKept w l c ↔ c.SparesCommitted l := by
  cases c with
  | maybeAppend index term committed ents =>
      have hsame := maybeAppend_sameEntries (w := w) (l := l) index term committed ents
      exact iff_of_true ⟨_, rfl, hsame.keepsCommitted, fun _ _ h => by cases h⟩ trivial
  | maybeCommit index term =>
      have hsame := maybeCommit_sameEntries (w := w) (l := l) index term
      exact iff_of_true ⟨_, rfl, hsame.keepsCommitted, fun _ _ h => by cases h⟩ trivial
  | append ents =>
      cases ents with
      | nil => exact hc.elim
      | cons first rest =>
          unfold CommittedKept
          simp only [LogCall.SparesCommitted]
          by_cases hbelow : first.uindex ≤ l.committed
          · rw [if_pos hbelow, ← call_append_eq_self_iff (w := w) hfit]
            constructor
            · rintro ⟨l', hcall, -, hrefuse⟩
              rw [hcall, hrefuse first rest rfl hbelow]
            · intro hcall
              exact ⟨l, hcall, keepsCommitted_refl l, fun _ _ _ _ => rfl⟩
          · have habove : l.committed < first.uindex := not_le.mp hbelow
            have hvacuous : ∀ l', ∀ f r, LogCall.append (first :: rest) = .append (f :: r) →
                f.uindex ≤ l.committed → l' = l := by
              intro l' f r heq hle
              cases heq
              exact absurd hle hbelow
            rw [if_neg hbelow]
            by_cases hnext : first.uindex = l.unstable.offset + size l.unstable.entries
            · exact iff_of_true ⟨_, call_append_next hnext,
                keepsCommitted_next hfit hc habove hnext, hvacuous _⟩ (Or.inl hnext)
            · by_cases hrep : first.uindex ≤ l.unstable.offset
              · exact iff_of_true ⟨_, call_append_replace hnext hrep,
                  keepsCommitted_replace hfit hc habove hrep, hvacuous _⟩ (Or.inr (Or.inl hrep))
              · rw [call_append_truncate hnext hrep]
                by_cases hlen : first.uindex.toNat ≤ l.unstable.entries.length
                · rw [if_pos hlen]
                  simp [hnext, hrep, hlen, hbelow,
                    keepsCommitted_truncate_iff hfit habove hrep hlen]
                · simp [hnext, hrep, hlen]

/-- **When committed entries are immutable.** Over every run of well-formed calls
from a well-formed log, every call keeps the committed entries exactly when every
call spares them. -/
theorem committed_entries_kept_iff (w : Unwritten) (l : RaftLog) (calls : List LogCall)
    (hl : l.WellFormed) (hcalls : ∀ c ∈ calls, c.WellFormed) :
    (machine w).Along (CommittedKept w) l calls ↔
      (machine w).Along (fun l c => c.SparesCommitted l) l calls :=
  Machine.along_congr (fun _ _ _ hfit hc hcall => indexesFit_call hfit hc hcall)
    (fun _ _ hfit hc => committedKept_iff hfit hc) hl.toIndexesFit hcalls

/-- A log over an empty storage whose unstable entry at index 1 is committed. -/
def oneCommitted : RaftLog where
  storage := MemoryStorage.newMemoryStorage.toStorage
  unstable := { entries := [{ term := 1, index := 1, data := [7] }], offset := 1 }
  committed := 1
  applied := 0

theorem oneCommitted_wellFormed : oneCommitted.WellFormed where
  storage := by decide
  unstable := by decide
  consecutive := consecutive_singleton { term := 1, index := 1, data := [7] }
  offset_le := by decide
  offset_eq h := absurd h (by decide)

/-- A batch above the commit index. -/
theorem committed_entries_kept_iff_above :
    (machine .filledIn).Along (CommittedKept .filledIn) oneCommitted
      [.append [{ term := 2, index := 2 }]] := by
  have hcalls : ∀ c ∈ [LogCall.append [{ term := 2, index := 2 }]], c.WellFormed := by
    intro c hc
    obtain rfl := List.mem_singleton.mp hc
    exact ⟨consecutive_singleton _, by decide⟩
  refine (committed_entries_kept_iff .filledIn oneCommitted _ oneCommitted_wellFormed hcalls).mpr
    ⟨?_, fun _ _ => trivial⟩
  show LogCall.SparesCommitted _ _
  rw [LogCall.SparesCommitted, if_neg (by decide)]
  exact Or.inl (by decide)

/-- A batch of a newer term at the committed index itself replaces the committed
entry. -/
theorem committed_entries_kept_fails :
    ¬ ∀ (w : Unwritten) (l : RaftLog) (calls : List LogCall),
      l.WellFormed → l.committed ≤ l.lastIndex → (∀ c ∈ calls, c.WellFormed) →
        (machine w).Along (CommittedKept w) l calls := by
  intro h
  have hcalls : ∀ c ∈ [LogCall.append [{ term := 2, index := 1 }]], c.WellFormed := by
    intro c hc
    obtain rfl := List.mem_singleton.mp hc
    exact ⟨consecutive_singleton _, by decide⟩
  obtain ⟨⟨l', hl', hkept, -⟩, -⟩ :=
    h .filledIn oneCommitted _ oneCommitted_wellFormed (by decide) hcalls
  cases hl'
  obtain ⟨e', he', hterm, -⟩ :=
    hkept 0 1 { term := 1, index := 1, data := [7] } (by decide) (by decide) (by decide)
  obtain rfl : { term := 2, index := 1 } = e' := Option.some.inj he'
  exact absurd hterm (by decide)

end RaftLog

end Anraft
