import Anraft.Base.Word
import Anraft.Storage.Entries

/-!
# Compaction of the stored log

`Compact` puts the index and the term of an entry into the dummy and erases the
vector up to that entry. Inside the log nothing above the entry can tell, and
only the last compaction counts. Outside the log the bound of the code, computed
from the size of the vector, lies two indexes beyond `LastIndex`.
-/

namespace Anraft

open IteratorRange Segment

/-- The conversion of an index to `uint64_t`, by the half it falls into. -/
theorem LogEntry.toInt_index_eq_cond (e : LogEntry) :
    e.index.toInt = if 2 * e.uindex.toNat < 2 ^ 64 then (e.uindex.toNat : ℤ)
      else (e.uindex.toNat : ℤ) - (2 ^ 64 : ℕ) :=
  BitVec.toInt_eq_toNat_cond e.index.toBitVec

/-- An index that is not negative is its own conversion to `uint64_t`. -/
theorem LogEntry.toNat_uindex_of_nonneg {e : LogEntry} (h : 0 ≤ e.index.toInt) :
    (e.uindex.toNat : ℤ) = e.index.toInt := by
  have hcond := e.toInt_index_eq_cond
  have hlt := e.uindex.toNat_lt
  split at hcond
  · exact hcond.symm
  · omega

theorem LogEntry.toInt_index_of_lt {e : LogEntry} (h : e.uindex.toNat < 2 ^ 63) :
    e.index.toInt = e.uindex.toNat := by
  rw [e.toInt_index_eq_cond, if_pos]
  omega

namespace MemoryStorage

variable {ms : MemoryStorage} {c : UInt64}

/-- The indexes, `int64` on the wire, count up from a dummy that is not negative. -/
structure Indexed (ms : MemoryStorage) : Prop where
  nonneg : 0 ≤ ms.dummy.index.toInt
  consecutive : ∀ (k : ℕ) (e : LogEntry), ms.entries_[k]? = some e →
    e.index.toInt = ms.dummy.index.toInt + k

theorem Indexed.toNat_uindex (h : ms.Indexed) {k : ℕ} {e : LogEntry}
    (he : ms.entries_[k]? = some e) :
    e.uindex.toNat = ms.dummy.uindex.toNat + k := by
  have hindex := h.consecutive k e he
  have hdummy := LogEntry.toNat_uindex_of_nonneg h.nonneg
  have hentry := LogEntry.toNat_uindex_of_nonneg (e := e) (by have := h.nonneg; omega)
  omega

/-- No log of such indexes reaches the upper half of `uint64_t`. -/
theorem Indexed.bounded (h : ms.Indexed) :
    ms.dummy.uindex.toNat + ms.entries_.length ≤ 2 ^ 63 := by
  have hpos := ms.length_pos
  obtain ⟨e, he⟩ : ∃ e, ms.entries_[ms.entries_.length - 1]? = some e :=
    ⟨_, List.getElem?_eq_getElem (by omega)⟩
  have hindex := h.consecutive _ e he
  have hdummy := LogEntry.toNat_uindex_of_nonneg h.nonneg
  have htop := e.index.toInt_lt
  omega

theorem Indexed.wellFormed (h : ms.Indexed) : ms.WellFormed where
  consecutive _ _ he := h.toNat_uindex he
  bounded := h.bounded.trans_lt (by decide)

/-- A well-formed storage in the lower half of `uint64_t`. -/
theorem WellFormed.indexed (h : ms.WellFormed)
    (hb : ms.dummy.uindex.toNat + ms.entries_.length ≤ 2 ^ 63) : ms.Indexed := by
  have hpos := ms.length_pos
  have hdummy : ms.dummy.index.toInt = ms.dummy.uindex.toNat :=
    LogEntry.toInt_index_of_lt (by omega)
  refine ⟨hdummy ▸ Int.natCast_nonneg _, fun k e he => ?_⟩
  have hk := (List.getElem?_eq_some_iff.mp he).1
  have hindex := h.consecutive k e he
  rw [LogEntry.toInt_index_of_lt (by omega), hindex, hdummy, Nat.cast_add]

/-! ## What the code leaves behind -/

/-- The storage whose dummy has the index and the term of `e`, and which goes on
after position `k` of the old vector. -/
def compactTo (ms : MemoryStorage) (k : ℕ) (e : LogEntry) : MemoryStorage where
  entries_ := { ms.dummy with index := e.index, term := e.term } :: ms.entries_.drop (1 + k)
  nonempty := List.cons_ne_nil _ _

/-- **What the code does with an index**, by where the index lies. -/
theorem compact_eq (h : ms.Indexed) (c : UInt64) :
    ms.compact c =
      if c.toNat ≤ ms.dummy.uindex.toNat then some (some .errCompacted, ms)
      else if ms.lastIndex.1.toNat + 2 < c.toNat then some (some .errCompacted, ms)
      else ms.entries_[c.toNat - ms.dummy.uindex.toNat]?.map fun e =>
        (none, ms.compactTo (c.toNat - ms.dummy.uindex.toNat) e) := by
  have hlast : (ms.dummy.uindex + size ms.entries_ + 1).toNat = ms.lastIndex.1.toNat + 2 := by
    have hb := h.bounded
    have hend := h.wellFormed.toNat_add_size
    rw [UInt64.toNat_add_one_of_lt (by omega), hend, ← h.wellFormed.lastIndex_add_one]
  unfold compact
  simp only [gt_iff_lt, UInt64.le_iff_toNat_le, UInt64.lt_iff_toNat_lt, hlast]
  split
  · rfl
  next hlo =>
  split
  · rfl
  rw [← UInt64.toNat_sub_of_le c ms.dummy.uindex (UInt64.le_iff_toNat_le.mpr (not_le.mp hlo).le)]
  rcases hget : ms.entries_[(c - ms.dummy.uindex).toNat]? with _ | e
  · rfl
  · have hin := (List.getElem?_eq_some_iff.mp hget).1
    simp only [if_pos (show 1 + (c - ms.dummy.uindex).toNat ≤ ms.entries_.length by omega)]
    rfl

/-- Inside the log the entry at the compaction point exists. -/
theorem compact_of_inside (h : ms.Indexed) (hlo : ms.dummy.uindex.toNat < c.toNat)
    (hhi : c.toNat ≤ ms.lastIndex.1.toNat) :
    ∃ e, ms.entries_[c.toNat - ms.dummy.uindex.toNat]? = some e ∧
      ms.compact c = some (none, ms.compactTo (c.toNat - ms.dummy.uindex.toNat) e) := by
  have hin : c.toNat - ms.dummy.uindex.toNat < ms.entries_.length := by
    apply Nat.sub_lt_left_of_lt_add hlo.le
    rw [← h.wellFormed.lastIndex_add_one]
    exact Nat.lt_succ_of_le hhi
  refine ⟨_, List.getElem?_eq_getElem hin, ?_⟩
  rw [compact_eq h, if_neg hlo.not_ge, if_neg (hhi.trans (Nat.le_add_right _ 2)).not_gt,
    List.getElem?_eq_getElem hin]
  rfl

/-- The entry in the place of an index has this index. -/
theorem uindex_of_place (h : ms.Indexed) (hlo : ms.dummy.uindex.toNat ≤ c.toNat) {e : LogEntry}
    (he : ms.entries_[c.toNat - ms.dummy.uindex.toNat]? = some e) : e.uindex = c := by
  apply UInt64.toNat_inj.mp
  rw [h.toNat_uindex he, Nat.add_sub_cancel' hlo]

section CompactTo

variable {k : ℕ} {e : LogEntry}

@[simp] theorem dummy_compactTo :
    (ms.compactTo k e).dummy = { ms.dummy with index := e.index, term := e.term } := rfl

theorem length_compactTo (he : ms.entries_[k]? = some e) :
    (ms.compactTo k e).entries_.length + k = ms.entries_.length := by
  have hin := (List.getElem?_eq_some_iff.mp he).1
  simp only [compactTo, List.length_cons, List.length_drop]
  omega

/-- Index and term of every entry that is left are those `k` places further up. -/
theorem compactTo_getElem? (he : ms.entries_[k]? = some e) (j : ℕ) :
    (ms.compactTo k e).entries_[j]?.map (fun x => (x.index, x.term)) =
      ms.entries_[k + j]?.map (fun x => (x.index, x.term)) := by
  rcases j with _ | j
  · rw [Nat.add_zero, he]
    rfl
  · rw [compactTo, List.getElem?_cons_succ, List.getElem?_drop, Nat.add_comm 1 k, Nat.add_assoc,
      Nat.add_comm 1 j]

theorem Indexed.compactTo (h : ms.Indexed) (he : ms.entries_[k]? = some e) :
    (ms.compactTo k e).Indexed where
  nonneg := by
    have hindex := h.consecutive k e he
    have hnonneg := h.nonneg
    change 0 ≤ e.index.toInt
    omega
  consecutive := by
    intro j x hx
    have hmap := compactTo_getElem? he j
    rw [hx, Option.map_some, eq_comm, Option.map_eq_some_iff] at hmap
    obtain ⟨y, hy, hxy⟩ := hmap
    have hindex := h.consecutive _ y hy
    have hpoint := h.consecutive k e he
    rw [← (Prod.mk.inj hxy).1]
    change y.index.toInt = e.index.toInt + j
    push_cast at hindex
    omega

theorem lastIndex_compactTo (h : ms.Indexed) (he : ms.entries_[k]? = some e) :
    (ms.compactTo k e).lastIndex = ms.lastIndex := by
  apply Prod.ext
  · apply UInt64.toNat_inj.mp
    apply Nat.succ.inj
    have hdummy : (ms.compactTo k e).dummy.uindex.toNat = ms.dummy.uindex.toNat + k := by
      change e.uindex.toNat = _
      exact h.toNat_uindex he
    rw [Nat.succ_eq_add_one, Nat.succ_eq_add_one, (h.compactTo he).wellFormed.lastIndex_add_one,
      h.wellFormed.lastIndex_add_one, hdummy, ← length_compactTo he, Nat.add_right_comm,
      Nat.add_assoc]
  · rfl

/-- Compacting further up leaves the same as compacting there at once. -/
theorem compactTo_compactTo (j : ℕ) (x : LogEntry) :
    (ms.compactTo k e).compactTo j x = ms.compactTo (k + j) x := by
  have hdrop : (ms.compactTo k e).entries_.drop (1 + j) = ms.entries_.drop (1 + (k + j)) := by
    rw [compactTo, Nat.add_comm 1 j, List.drop_succ_cons, List.drop_drop, Nat.add_assoc]
  unfold compactTo at hdrop ⊢
  simp only [hdrop]
  rfl

theorem compactTo_congr {x y : LogEntry} (h : (x.index, x.term) = (y.index, y.term)) :
    ms.compactTo k x = ms.compactTo k y := by
  unfold compactTo
  simp only [(Prod.mk.inj h).1, (Prod.mk.inj h).2]

end CompactTo

/-! ## Inside the log -/

/-- What a compaction at `c` may change, and that it leaves nothing for a later one
to see. -/
structure CompactedTo (ms ms' : MemoryStorage) (c : UInt64) : Prop where
  indexed : ms'.Indexed
  firstIndex : ms'.firstIndex = (c + 1, .errNone)
  lastIndex : ms'.lastIndex = ms.lastIndex
  term_above : ∀ i, c ≤ i → ms'.term i = ms.term i
  term_below : ∀ i, i < c → ms'.term i = some (0, .errCompacted)
  composes : ∀ b, c < b → b ≤ ms.lastIndex.1 → ms'.compact b = ms.compact b

section AtIndex

variable {e : LogEntry} (h : ms.Indexed) (hlo : ms.dummy.uindex.toNat < c.toNat)
  (he : ms.entries_[c.toNat - ms.dummy.uindex.toNat]? = some e)

include h hlo he

theorem toNat_dummy_compactTo :
    (ms.compactTo (c.toNat - ms.dummy.uindex.toNat) e).dummy.uindex.toNat = c.toNat := by
  rw [← uindex_of_place h hlo.le he]
  rfl

/-- `Term` depends on the terms of the vector and where it starts, and on nothing
else. -/
theorem term_compactTo {i : UInt64} (hi : c.toNat ≤ i.toNat) :
    (ms.compactTo (c.toNat - ms.dummy.uindex.toNat) e).term i = ms.term i := by
  have hlen := length_compactTo he
  have hplace : c.toNat - ms.dummy.uindex.toNat + (i.toNat - c.toNat) =
      i.toNat - ms.dummy.uindex.toNat := by
    rw [Nat.add_comm, Nat.sub_add_sub_cancel hi hlo.le]
  rw [(h.compactTo he).wellFormed.term_eq, h.wellFormed.term_eq, toNat_dummy_compactTo h hlo he,
    if_neg (not_lt.mpr hi), if_neg (not_lt.mpr (hlo.le.trans hi))]
  apply if_congr (by omega) rfl
  have hmap := congrArg (Option.map fun p => ((p.2 : Int64).toUInt64, RaftError.errNone))
    (compactTo_getElem? he (i.toNat - c.toNat))
  rw [Option.map_map, Option.map_map, hplace] at hmap
  exact hmap

/-- A later compaction further up cannot tell. -/
theorem compact_compactTo {b : UInt64} (hcb : c.toNat < b.toNat)
    (hb : b.toNat ≤ ms.lastIndex.1.toNat) :
    (ms.compactTo (c.toNat - ms.dummy.uindex.toNat) e).compact b = ms.compact b := by
  have hdummy := toNat_dummy_compactTo h hlo he
  have hb' := hb
  rw [← lastIndex_compactTo h he] at hb'
  obtain ⟨x, hx, hdirect⟩ := compact_of_inside h (hlo.trans hcb) hb
  obtain ⟨y, hy, hlater⟩ := compact_of_inside (h.compactTo he) (hdummy.trans_lt hcb) hb'
  rw [hdummy] at hy hlater
  have hplace : c.toNat - ms.dummy.uindex.toNat + (b.toNat - c.toNat) =
      b.toNat - ms.dummy.uindex.toNat := by
    rw [Nat.add_comm, Nat.sub_add_sub_cancel hcb.le hlo.le]
  have hmap := compactTo_getElem? he (b.toNat - c.toNat)
  rw [hy, hplace, hx] at hmap
  rw [hlater, hdirect, compactTo_compactTo, compactTo_congr (Option.some.inj hmap), hplace]

end AtIndex

/-- **Compaction is invisible above its point and composes.** At an index inside the
log the call succeeds; bounds and terms from there on stay, everything below is
reported as compacted, and compacting further up later gives the storage that
compacting there at once gives. -/
theorem compact_compactedTo (h : ms.Indexed) (hlo : ms.firstIndex.1.toNat - 1 < c.toNat)
    (hhi : c ≤ ms.lastIndex.1) :
    ∃ ms', ms.compact c = some (none, ms') ∧ ms.CompactedTo ms' c := by
  rw [h.wellFormed.toNat_firstIndex, Nat.add_sub_cancel] at hlo
  obtain ⟨e, he, hcompact⟩ := compact_of_inside h hlo hhi
  have hind := h.compactTo he
  refine ⟨_, hcompact, hind, ?_, lastIndex_compactTo h he, ?_, ?_, ?_⟩
  · rw [firstIndex, dummy_compactTo, ← uindex_of_place h hlo.le he]
    rfl
  · intro i hi
    exact term_compactTo h hlo he hi
  · intro i hi
    rw [hind.wellFormed.term_eq, toNat_dummy_compactTo h hlo he,
      if_pos (UInt64.lt_iff_toNat_lt.mp hi)]
  · intro b hcb hb
    exact compact_compactTo h hlo he hcb hb

theorem compactedOnce_indexed : compactedOnce.Indexed :=
  compactedOnce_wellFormed.indexed (by decide)

/-- A second compaction, of entry 2. -/
theorem compact_compactedTo_compactedOnce :
    ∃ ms', compactedOnce.compact 2 = some (none, ms') ∧ compactedOnce.CompactedTo ms' 2 :=
  compact_compactedTo compactedOnce_indexed (by decide) (by decide)

/-! ## Outside the log -/

/-- An index outside the log is refused and changes nothing, and no index makes the
call read or erase outside the vector. -/
structure RefusesOutside (ms : MemoryStorage) (c : UInt64) : Prop where
  refuses : c.toNat ≤ ms.firstIndex.1.toNat - 1 ∨ ms.lastIndex.1.toNat < c.toNat →
    ∃ err, ms.compact c = some (some err, ms) ∧ err ≠ .errNone
  defined : (ms.compact c).isSome

/-- The two indexes between `LastIndex` and the bound of the code. -/
theorem compact_eq_none_iff (h : ms.Indexed) :
    ms.compact c = none ↔
      c.toNat = ms.lastIndex.1.toNat + 1 ∨ c.toNat = ms.lastIndex.1.toNat + 2 := by
  have hL := h.wellFormed.toNat_lastIndex
  have hpos := ms.length_pos
  rw [compact_eq h]
  split
  · next hlo => exact iff_of_false nofun (by omega)
  split
  · next hhi => exact iff_of_false nofun (by omega)
  rw [Option.map_eq_none_iff, List.getElem?_eq_none_iff]
  omega

/-- **When `Compact` refuses what is outside the log**: at every index except the
two that follow `LastIndex`, where the dummy is filled from behind the vector. -/
theorem compact_refusesOutside_iff (h : ms.Indexed) :
    ms.RefusesOutside c ↔
      c.toNat ≠ ms.lastIndex.1.toNat + 1 ∧ c.toNat ≠ ms.lastIndex.1.toNat + 2 := by
  have hF := h.wellFormed.toNat_firstIndex
  have hL := h.wellFormed.toNat_lastIndex
  have hpos := ms.length_pos
  rw [← not_or, ← compact_eq_none_iff h, ← ne_eq, ← Option.isSome_iff_ne_none]
  refine ⟨RefusesOutside.defined, fun hdef => ⟨fun hout => ?_, hdef⟩⟩
  refine ⟨.errCompacted, ?_, nofun⟩
  rw [Option.isSome_iff_ne_none, Ne, compact_eq_none_iff h] at hdef
  rw [compact_eq h]
  split
  · rfl
  · rw [if_pos (by omega)]

theorem compact_refusesOutside_compactedOnce : compactedOnce.RefusesOutside 6 :=
  (compact_refusesOutside_iff compactedOnce_indexed).mpr (by decide)

/-- A fresh storage has no entry to compact, and index 1 reads behind its dummy. -/
theorem not_compact_refusesOutside :
    newMemoryStorage.Indexed ∧ newMemoryStorage.lastIndex.1 < 1 ∧
      newMemoryStorage.compact 1 = none ∧ ¬ newMemoryStorage.RefusesOutside 1 := by
  have hread : newMemoryStorage.compact 1 = none := rfl
  refine ⟨newMemoryStorage_wellFormed.indexed (by decide), by decide, hread, ?_⟩
  intro hlaw
  have hdef := hlaw.defined
  rw [hread] at hdef
  cases hdef

end MemoryStorage

end Anraft
