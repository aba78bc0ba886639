import Anraft.Proto
import Anraft.Base.IteratorRange

/-!
# Stable storage

`Storage` is the interface the raft log reads, one field for each virtual
function it calls. `MemoryStorage` is the implementation of the repository: a
vector whose first element is a dummy that keeps the index and the term of the
last compacted entry.

A call that reads outside its vector is undefined and answers `none`.
-/

namespace Anraft

open IteratorRange Segment

structure Storage where
  /-- `Entries(lo, hi, max_size)`. -/
  entries : UInt64 → UInt64 → UInt64 → Option (List LogEntry × RaftError)
  /-- `Term(i)`. -/
  term : UInt64 → Option (UInt64 × RaftError)
  lastIndex : UInt64 × RaftError
  firstIndex : UInt64 × RaftError

/-- `entries_` always holds the dummy, so `entries_[0]` can be read. -/
structure MemoryStorage where
  entries_ : List LogEntry
  nonempty : entries_ ≠ []

namespace MemoryStorage

/-- `entries_[0]`. -/
def dummy (ms : MemoryStorage) : LogEntry := ms.entries_.head ms.nonempty

/-- When starting from scratch the list holds a dummy entry at term zero. -/
def newMemoryStorage : MemoryStorage where
  entries_ := [{}]
  nonempty := List.cons_ne_nil _ _

def entries (ms : MemoryStorage) (lo hi _maxSize : UInt64) :
    Option (List LogEntry × RaftError) :=
  let offset := ms.dummy.uindex
  if lo ≤ offset then some ([], .errCompacted)
  else if hi > offset + size ms.entries_ then some ([], .errCompacted)
  -- the source starts the copy at `offset`, not at `lo - offset`
  else (range? ms.entries_ offset.toNat (offset.toNat + hi.toNat - lo.toNat)).map
    fun target => (target, .errNone)

def term (ms : MemoryStorage) (i : UInt64) : Option (UInt64 × RaftError) :=
  let offset := ms.dummy.uindex
  if i < offset then some (0, .errCompacted)
  else if i > offset + size ms.entries_ - 1 then some (0, .errUnavailable)
  else ms.entries_[(i - offset).toNat]?.map fun e => (e.uterm, .errNone)

def lastIndex (ms : MemoryStorage) : UInt64 × RaftError :=
  (ms.dummy.uindex + size ms.entries_ - 1, .errNone)

def firstIndex (ms : MemoryStorage) : UInt64 × RaftError :=
  (ms.dummy.uindex + 1, .errNone)

def append (ms : MemoryStorage) (ents : List LogEntry) : Option (RaftError × MemoryStorage) :=
  match ents with
  | [] => some (.errNone, ms)
  | first :: _ =>
    let oldFirst := ms.dummy.uindex + 1
    let oldLast := oldFirst + size ms.entries_ - 1
    let newFirst := first.uindex
    let newLast := first.uindex + size ents - 1
    if newLast ≤ oldFirst then some (.errNone, ms)
    else if oldLast < newFirst then some (.errNone, ms)
    else
      let offset := oldLast - newFirst
      (range? ents offset.toNat ents.length).map fun moved =>
        (.errNone, { entries_ := ms.entries_ ++ moved, nonempty := by simp [ms.nonempty] })

/-- The source has no `return` after the `erase`, so a successful call ends
without a value (`none` in the first component). -/
def compact (ms : MemoryStorage) (compactIndex : UInt64) :
    Option (Option RaftError × MemoryStorage) :=
  let offset := ms.dummy.uindex
  let lastIndex := offset + size ms.entries_ + 1
  if compactIndex ≤ offset then some (some .errCompacted, ms)
  else if compactIndex > lastIndex then some (some .errCompacted, ms)
  else
    let compactNum := (compactIndex - offset).toNat
    match ms.entries_[compactNum]? with
    | none => none
    | some e =>
      -- `erase(begin() + 1, begin() + 1 + compact_num)`
      if 1 + compactNum ≤ ms.entries_.length then
        some (none,
          { entries_ := { ms.dummy with index := e.index, term := e.term } ::
              ms.entries_.drop (1 + compactNum)
            nonempty := List.cons_ne_nil _ _ })
      else none

/-- The object seen through its base class. -/
def toStorage (ms : MemoryStorage) : Storage where
  entries := ms.entries
  term := ms.term
  lastIndex := ms.lastIndex
  firstIndex := ms.firstIndex

/-- The entries sit at consecutive indexes after the dummy, and the index after
the last one is still a `uint64_t`. -/
structure WellFormed (ms : MemoryStorage) : Prop where
  consecutive : Consecutive ms.dummy.uindex ms.entries_
  bounded : ms.dummy.uindex.toNat + ms.entries_.length < 2 ^ 64

theorem entries_eq_cons (ms : MemoryStorage) : ms.entries_ = ms.dummy :: ms.entries_.tail :=
  (List.cons_head_tail ms.nonempty).symm

theorem length_tail (ms : MemoryStorage) :
    ms.entries_.tail.length + 1 = ms.entries_.length := by
  conv_rhs => rw [ms.entries_eq_cons, List.length_cons]

theorem length_pos (ms : MemoryStorage) : 0 < ms.entries_.length :=
  List.length_pos_iff.mpr ms.nonempty

/-- The stored entries are a segment that starts after the dummy. -/
theorem WellFormed.tail {ms : MemoryStorage} (h : ms.WellFormed) :
    Numbered (fun e => e.uindex.toNat) (ms.dummy.uindex.toNat + 1) ms.entries_.tail := by
  have hall := consecutive_iff_numbered.mp h.consecutive
  rw [ms.entries_eq_cons] at hall
  exact hall.tail

/-- The bound `offset + entries_.size()` of the source. -/
theorem WellFormed.toNat_add_size {ms : MemoryStorage} (h : ms.WellFormed) :
    (ms.dummy.uindex + size ms.entries_).toNat =
      ms.dummy.uindex.toNat + ms.entries_.length := by
  have hb := h.bounded
  rw [UInt64.toNat_add, toNat_size _ (by omega), Nat.mod_eq_of_lt hb]

theorem WellFormed.toNat_lastIndex {ms : MemoryStorage} (h : ms.WellFormed) :
    ms.lastIndex.1.toNat = ms.dummy.uindex.toNat + ms.entries_.length - 1 := by
  have hpos := ms.length_pos
  have hone : (1 : UInt64) ≤ ms.dummy.uindex + size ms.entries_ := by
    rw [UInt64.le_iff_toNat_le, h.toNat_add_size, UInt64.toNat_one]
    omega
  rw [lastIndex, UInt64.toNat_sub_of_le _ _ hone, h.toNat_add_size, UInt64.toNat_one]

theorem WellFormed.lastIndex_add_one {ms : MemoryStorage} (h : ms.WellFormed) :
    ms.lastIndex.1.toNat + 1 = ms.dummy.uindex.toNat + ms.entries_.length := by
  rw [h.toNat_lastIndex, Nat.sub_add_cancel]
  exact ms.length_pos.trans_le (Nat.le_add_left _ _)

theorem WellFormed.toNat_firstIndex {ms : MemoryStorage} (h : ms.WellFormed) :
    ms.firstIndex.1.toNat = ms.dummy.uindex.toNat + 1 := by
  have hpos := ms.length_pos
  have hb := h.bounded
  rw [firstIndex, UInt64.toNat_add, UInt64.toNat_one, Nat.mod_eq_of_lt (by omega)]

/-- `Term` below, above and on the positions of the vector. -/
theorem WellFormed.term_eq {ms : MemoryStorage} (h : ms.WellFormed) (i : UInt64) :
    ms.term i =
      if i.toNat < ms.dummy.uindex.toNat then some (0, .errCompacted)
      else if ms.dummy.uindex.toNat + ms.entries_.length ≤ i.toNat then some (0, .errUnavailable)
      else ms.entries_[i.toNat - ms.dummy.uindex.toNat]?.map fun e => (e.uterm, .errNone) := by
  have hpos := ms.length_pos
  have hlast : (ms.dummy.uindex + size ms.entries_ - 1).toNat =
      ms.dummy.uindex.toNat + ms.entries_.length - 1 := h.toNat_lastIndex
  unfold term
  simp only [gt_iff_lt, UInt64.lt_iff_toNat_lt, hlast]
  split
  · rfl
  next hlo =>
  rw [UInt64.toNat_sub_of_le _ _ (UInt64.le_iff_toNat_le.mpr (not_lt.mp hlo))]
  exact if_congr (by omega) rfl rfl

/-- `Entries` inside the bounds: the right number of elements from the position
that has the number of the dummy's index. -/
theorem WellFormed.entries_eq {ms : MemoryStorage} (h : ms.WellFormed) {lo hi : UInt64}
    (hle : lo ≤ hi) (maxSize : UInt64) :
    ms.entries lo hi maxSize =
      if lo.toNat ≤ ms.dummy.uindex.toNat then some ([], .errCompacted)
      else if ms.dummy.uindex.toNat + ms.entries_.length < hi.toNat then some ([], .errCompacted)
      else if ms.dummy.uindex.toNat + (hi.toNat - lo.toNat) ≤ ms.entries_.length then
        some ((ms.entries_.drop ms.dummy.uindex.toNat).take (hi.toNat - lo.toNat), .errNone)
      else none := by
  have hle' : lo.toNat ≤ hi.toNat := hle
  have hcast : (ms.dummy.uindex.toNat + hi.toNat - lo.toNat : ℤ) =
      (ms.dummy.uindex.toNat + (hi.toNat - lo.toNat) : ℕ) := by omega
  unfold entries
  simp only [gt_iff_lt, UInt64.le_iff_toNat_le, UInt64.lt_iff_toNat_lt, h.toNat_add_size, hcast]
  split
  · rfl
  split
  · rfl
  split
  · next hin =>
      rw [range?_natCast _ (Nat.le_add_right _ _) hin, Nat.add_sub_cancel_left]
      rfl
  · next hout =>
      rw [range?_eq_none _ _ _ (by omega)]
      rfl

theorem newMemoryStorage_wellFormed : newMemoryStorage.WellFormed where
  consecutive := consecutive_singleton {}
  bounded := by decide

end MemoryStorage

end Anraft
