import Anraft.LogView

/-!
# Reads across storage and the unstable entries

`Slice` takes what lies below the offset from storage and the rest from the
unstable entries. Once the bounds are checked the second read cannot leave the
vector, so a slice is what storage answered, then a window of the unstable
entries. The two fit together as long as storage answers the whole range it was
asked for.
-/

namespace Anraft

open IteratorRange Segment

namespace RaftLog

variable {l : RaftLog} {lo hi maxSize : UInt64} {out : List LogEntry}

/-- `entries[i]` has index `offset + i`, the unstable part starts inside storage or
right after it, and the index after the last one is still a `uint64_t`. -/
structure Stitched (l : RaftLog) : Prop where
  consecutive : Consecutive l.unstable.offset l.unstable.entries
  offset_le : l.unstable.offset.toNat ≤ l.storage.lastIndex.1.toNat + 1
  offset_eq : l.unstable.entries = [] →
    l.unstable.offset.toNat = l.storage.lastIndex.1.toNat + 1
  lastIndex_lt : l.lastIndex.toNat < 2 ^ 64 - 1

theorem Stitched.toNat_lastIndex_add_one (h : l.Stitched) :
    (l.lastIndex + 1).toNat = l.lastIndex.toNat + 1 :=
  UInt64.toNat_add_one_of_lt (by have := h.lastIndex_lt; omega)

/-- The bounds as the callers mean them. -/
theorem Stitched.mustCheckOutOfBounds_iff (h : l.Stitched) :
    l.mustCheckOutOfBounds lo hi = .errNone ↔
      l.firstIndex ≤ lo ∧ lo ≤ hi ∧ hi.toNat ≤ l.lastIndex.toNat + 1 := by
  have hlast : hi ≤ l.lastIndex + 1 ↔ hi.toNat ≤ l.lastIndex.toNat + 1 := by
    rw [UInt64.le_iff_toNat_le, h.toNat_lastIndex_add_one]
  rw [mustCheckOutOfBounds_eq_errNone_iff, hlast, and_left_comm]

/-- What lies between the offset and the last index is in the unstable vector. -/
theorem Stitched.reaches (h : l.Stitched) (hoff : l.unstable.offset.toNat < hi.toNat)
    (hhi : hi.toNat ≤ l.lastIndex.toNat + 1) :
    hi.toNat ≤ l.unstable.offset.toNat + l.unstable.entries.length := by
  by_cases hnil : l.unstable.entries = []
  · have heq := h.offset_eq hnil
    rw [lastIndex_of_nil hnil] at hhi
    omega
  · have hend := h.consecutive.add_length_le
    have hpos := List.length_pos_iff.mpr hnil
    rw [lastIndex_of_ne_nil hnil, UInt64.toNat_sub, UInt64.toNat_add, size, UInt64.toNat_ofNat',
      UInt64.toNat_one] at hhi
    omega

/-- The unstable entries of the range `[lo, hi)`. -/
def window (l : RaftLog) (lo hi : UInt64) : List LogEntry :=
  (l.unstable.entries.drop (lo.toNat - l.unstable.offset.toNat)).take
    (hi.toNat - max lo.toNat l.unstable.offset.toNat)

theorem window_eq_nil (h : hi.toNat ≤ l.unstable.offset.toNat) : l.window lo hi = [] := by
  rw [window, Nat.sub_eq_zero_of_le (h.trans (le_max_right _ _)), List.take_zero]

theorem Stitched.length_window (h : l.Stitched) (hle : lo ≤ hi)
    (hhi : hi.toNat ≤ l.lastIndex.toNat + 1) :
    (l.window lo hi).length = hi.toNat - max lo.toNat l.unstable.offset.toNat := by
  have hle' : lo.toNat ≤ hi.toNat := hle
  rcases le_or_gt hi.toNat l.unstable.offset.toNat with hoff | hoff
  · rw [window_eq_nil hoff, Nat.sub_eq_zero_of_le (hoff.trans (le_max_right _ _))]
    rfl
  · have hreach := h.reaches hoff hhi
    rw [window, List.length_take, List.length_drop]
    omega

theorem Stitched.numbered_window (h : l.Stitched) :
    Numbered (fun e => e.uindex.toNat) (max lo.toNat l.unstable.offset.toNat)
      (l.window lo hi) := by
  have hdrop := (consecutive_iff_numbered.mp h.consecutive).drop
    (lo.toNat - l.unstable.offset.toNat)
  rw [show l.unstable.offset.toNat + (lo.toNat - l.unstable.offset.toNat) =
    max lo.toNat l.unstable.offset.toNat by omega] at hdrop
  exact hdrop.take _

/-- The read of the unstable part, which is not checked by itself. -/
theorem Stitched.unstable_slice (h : l.Stitched) (hle : lo ≤ hi)
    (hhi : hi.toNat ≤ l.lastIndex.toNat + 1) (hoff : l.unstable.offset < hi) :
    l.unstable.slice (max lo l.unstable.offset) hi [] = some (l.window lo hi) := by
  have hreach := h.reaches hoff hhi
  have hoff' : l.unstable.offset.toNat < hi.toNat := hoff
  have hle' : lo.toNat ≤ hi.toNat := hle
  have hmax := UInt64.toNat_monotone.map_max (a := lo) (b := l.unstable.offset)
  have hfirst : ((max lo l.unstable.offset).toNat : ℤ) - l.unstable.offset.toNat =
      (lo.toNat - l.unstable.offset.toNat : ℕ) := by
    rw [hmax]
    omega
  have hlast : (hi.toNat : ℤ) - l.unstable.offset.toNat =
      (hi.toNat - l.unstable.offset.toNat : ℕ) := by omega
  rw [Unstable.slice, hfirst, hlast, range?_natCast _ (by omega) (by omega), Option.map_some,
    List.append_nil, window]
  congr 2
  omega

/-- **A slice inside the bounds**: the answer of storage, and behind it, when there
was no error, the window of the unstable entries. -/
theorem Stitched.slice_eq (h : l.Stitched) (hlo : l.firstIndex ≤ lo) (hlt : lo < hi)
    (hhi : hi.toNat ≤ l.lastIndex.toNat + 1) :
    l.slice lo hi maxSize out =
      (l.storedPart lo hi maxSize).map fun r =>
        if r.2 = .errNone then (.errNone, out ++ (r.1 ++ l.window lo hi)) else (r.2, out) := by
  have hbounds : l.mustCheckOutOfBounds lo hi = .errNone :=
    h.mustCheckOutOfBounds_iff.mpr ⟨hlo, hlt.le, hhi⟩
  rw [slice_of_inBounds hbounds hlt.ne, Option.map_eq_bind]
  congr 1
  funext ⟨ents, err⟩
  by_cases herr : err = .errNone
  · rw [if_pos herr, Function.comp_apply, if_pos herr]
    split
    · next hoff =>
        rw [h.unstable_slice hlt.le hhi hoff, Option.map_some, List.append_assoc]
    · next hoff => rw [window_eq_nil (not_lt.mp hoff), List.append_nil]
  · rw [if_neg herr, Function.comp_apply, if_neg herr]

end RaftLog

/-! ## A storage that answers every range -/

/-- Inside its bounds the storage returns exactly its entries `stored lo, …,
stored (hi - 1)`, outside an error. -/
structure Storage.ReadsExactly (st : Storage) (stored : ℕ → LogEntry) : Prop where
  inside : ∀ lo hi maxSize : UInt64, st.firstIndex.1 ≤ lo → lo ≤ hi →
    hi.toNat ≤ st.lastIndex.1.toNat + 1 →
      st.entries lo hi maxSize =
        some ((List.range' lo.toNat (hi.toNat - lo.toNat)).map stored, .errNone)
  outside : ∀ lo hi maxSize : UInt64,
    ¬ (st.firstIndex.1 ≤ lo ∧ lo ≤ hi ∧ hi.toNat ≤ st.lastIndex.1.toNat + 1) →
      ∃ ents err, st.entries lo hi maxSize = some (ents, err) ∧ err ≠ .errNone

namespace RaftLog

variable {l : RaftLog} {lo hi maxSize : UInt64} {out : List LogEntry} {stored : ℕ → LogEntry}

/-- The entry of the log at position `i`: the unstable one from the offset on. -/
def entryOf (l : RaftLog) (stored : ℕ → LogEntry) (i : ℕ) : Option LogEntry :=
  if i < l.unstable.offset.toNat then some (stored i)
  else l.unstable.entries[i - l.unstable.offset.toNat]?

/-- `(err, out')` is the right answer to a read of `[lo, hi)` into `out`. -/
structure SliceAnswer (l : RaftLog) (stored : ℕ → LogEntry) (lo hi : UInt64)
    (out : List LogEntry) (err : RaftError) (out' : List LogEntry) : Prop where
  errNone_iff : err = .errNone ↔
    l.firstIndex ≤ lo ∧ lo ≤ hi ∧ hi.toNat ≤ l.lastIndex.toNat + 1
  appended : err = .errNone → ∃ new, out' = out ++ new ∧
    new.map some = (List.range' lo.toNat (hi.toNat - lo.toNat)).map (l.entryOf stored)
  unchanged : err ≠ .errNone → out' = out

theorem map_some_stored {n : ℕ} (h : n ≤ l.unstable.offset.toNat - lo.toNat) :
    ((List.range' lo.toNat n).map stored).map some =
      (List.range' lo.toNat n).map (l.entryOf stored) := by
  rw [List.map_map]
  apply List.map_congr_left
  intro i hi
  rw [List.mem_range'_1] at hi
  rw [entryOf, if_pos (by omega), Function.comp_apply]

theorem Stitched.map_some_window (h : l.Stitched) (stored : ℕ → LogEntry) (hle : lo ≤ hi)
    (hhi : hi.toNat ≤ l.lastIndex.toNat + 1) :
    (l.window lo hi).map some =
      (List.range' (max lo.toNat l.unstable.offset.toNat)
        (hi.toNat - max lo.toNat l.unstable.offset.toNat)).map (l.entryOf stored) := by
  have hle' : lo.toNat ≤ hi.toNat := hle
  rcases le_or_gt hi.toNat l.unstable.offset.toNat with hoff | hoff
  · rw [window_eq_nil hoff, Nat.sub_eq_zero_of_le (hoff.trans (le_max_right _ _))]
    rfl
  have hreach := h.reaches hoff hhi
  rw [window, Segment.map_some_window _ (by omega),
    show max lo.toNat l.unstable.offset.toNat =
      l.unstable.offset.toNat + (lo.toNat - l.unstable.offset.toNat) by omega,
    ← List.map_add_range', List.map_map]
  apply List.map_congr_left
  intro i _
  rw [Function.comp_apply, entryOf, if_neg (Nat.not_lt.mpr (Nat.le_add_right _ _)),
    Nat.add_sub_cancel_left]

/-- What storage contributes is the part of the range below the offset. -/
theorem Stitched.storedPart_eq (h : l.Stitched) (hst : l.storage.ReadsExactly stored)
    (hlo : l.firstIndex ≤ lo) (hlt : lo < hi) :
    l.storedPart lo hi maxSize =
      some ((List.range' lo.toNat
        (min hi.toNat l.unstable.offset.toNat - lo.toNat)).map stored, .errNone) := by
  have hmin := UInt64.toNat_monotone.map_min (a := hi) (b := l.unstable.offset)
  unfold storedPart
  split
  · next hoff =>
      have hoffset := h.offset_le
      rw [hst.inside lo _ maxSize hlo (le_min hlt.le hoff.le) (by omega), hmin]
  · next hoff =>
      rw [Nat.sub_eq_zero_of_le ((min_le_right _ _).trans (UInt64.le_iff_toNat_le.mp (not_lt.mp hoff)))]
      rfl

/-- **`Slice` stitches storage and unstable entries without gap or overlap.** -/
theorem slice_stitches (hst : l.storage.ReadsExactly stored) (h : l.Stitched)
    (lo hi maxSize : UInt64) (out : List LogEntry) :
    ∃ err out', l.slice lo hi maxSize out = some (err, out') ∧
      l.SliceAnswer stored lo hi out err out' := by
  by_cases hin : l.firstIndex ≤ lo ∧ lo ≤ hi ∧ hi.toNat ≤ l.lastIndex.toNat + 1
  · obtain ⟨hlo, hle, hhi⟩ := hin
    rcases hle.eq_or_lt with rfl | hlt
    · refine ⟨.errNone, out, ?_, iff_of_true rfl ⟨hlo, hle, hhi⟩, ?_, fun _ => rfl⟩
      · simp [slice, h.mustCheckOutOfBounds_iff.mpr ⟨hlo, hle, hhi⟩]
      · intro _
        exact ⟨[], (List.append_nil out).symm, by rw [Nat.sub_self]; rfl⟩
    · have hslice : l.slice lo hi maxSize out = _ := h.slice_eq hlo hlt hhi
      rw [h.storedPart_eq hst hlo hlt] at hslice
      refine ⟨_, _, hslice, iff_of_true rfl ⟨hlo, hle, hhi⟩, ?_, fun hne => absurd rfl hne⟩
      intro _
      refine ⟨_, rfl, ?_⟩
      rw [List.map_append, h.map_some_window stored hle hhi,
        range'_split lo.toNat hi.toNat l.unstable.offset.toNat, List.map_append,
        map_some_stored (Nat.sub_le_sub_right (min_le_right _ _) _)]
  · have herr : l.mustCheckOutOfBounds lo hi ≠ .errNone := by
      rwa [Ne, h.mustCheckOutOfBounds_iff]
    refine ⟨_, out, ?_, iff_of_false herr hin, fun hnone => absurd hnone herr, fun _ => rfl⟩
    simp [slice, herr]

end RaftLog

/-- A storage with the entries `stored first, …, stored last`. -/
def Storage.holding (first last : UInt64) (stored : ℕ → LogEntry) : Storage where
  entries lo hi _ :=
    if first ≤ lo ∧ lo ≤ hi ∧ hi.toNat ≤ last.toNat + 1 then
      some ((List.range' lo.toNat (hi.toNat - lo.toNat)).map stored, .errNone)
    else some ([], .errCompacted)
  term i := some ((stored i.toNat).uterm, .errNone)
  lastIndex := (last, .errNone)
  firstIndex := (first, .errNone)

theorem Storage.holding_readsExactly (first last : UInt64) (stored : ℕ → LogEntry) :
    (Storage.holding first last stored).ReadsExactly stored where
  inside _ _ _ hlo hle hhi := if_pos ⟨hlo, hle, hhi⟩
  outside _ _ _ hout := ⟨_, _, if_neg hout, nofun⟩

namespace RaftLog

/-- Storage holds entries 2, 3 and 4; newer entries 4 and 5 are unstable. -/
def overlapping : RaftLog where
  storage := Storage.holding 2 4 fun i => { index := Int64.ofNat i, term := 1 }
  unstable := { entries := [{ index := 4, term := 2 }, { index := 5, term := 2 }], offset := 4 }
  committed := 1
  applied := 1

theorem overlapping_stitched : overlapping.Stitched where
  consecutive := Numbered.append (consecutive_singleton { index := 4, term := 2 })
    (consecutive_singleton { index := 5, term := 2 })
  offset_le := by decide
  offset_eq := nofun
  lastIndex_lt := by decide

theorem slice_stitches_overlapping :
    ∃ err out', overlapping.slice 3 6 0 [] = some (err, out') ∧
      overlapping.SliceAnswer (fun i => { index := Int64.ofNat i, term := 1 }) 3 6 [] err out' :=
  slice_stitches (Storage.holding_readsExactly 2 4 _) overlapping_stitched 3 6 0 []

end RaftLog

/-! ## A storage that may cut its answer short -/

/-- The documented contract of `Entries`: the answer to a range inside the bounds is
a non-empty prefix of it, which `max_size` may have cut short. -/
def Storage.HonoursEntries (st : Storage) : Prop :=
  ∀ lo hi maxSize : UInt64, st.firstIndex.1 ≤ lo → lo < hi →
    hi.toNat ≤ st.lastIndex.1.toNat + 1 →
      ∃ ents, st.entries lo hi maxSize = some (ents, .errNone) ∧ ents ≠ [] ∧
        Consecutive lo ents ∧ ents.length ≤ hi.toNat - lo.toNat

namespace RaftLog

variable {l : RaftLog} {lo hi maxSize : UInt64}

/-- Whatever a read of `[lo, hi)` appends is a prefix of the log from `lo`. Where
`Entries` and `AllEntries` read this range, that holds for them too. -/
structure HoleFree (l : RaftLog) (lo hi maxSize : UInt64) : Prop where
  slice : ∀ out new, l.slice lo hi maxSize out = some (.errNone, out ++ new) →
    Consecutive lo new
  entries : hi.toNat = l.lastIndex.toNat + 1 → ∀ out new,
    l.entries lo maxSize out = some (.errNone, out ++ new) → Consecutive lo new
  allEntries : hi.toNat = l.lastIndex.toNat + 1 → lo = l.firstIndex → maxSize = 10000 →
    ∀ out new, l.allEntries out = some (.errNone, out ++ new) → Consecutive lo new

/-- Where the range goes on into the unstable entries, storage answers all of its
part. -/
def StoredPartComplete (l : RaftLog) (lo hi maxSize : UInt64) : Prop :=
  lo < l.unstable.offset → l.unstable.offset < hi →
    ∃ ents, l.storage.entries lo l.unstable.offset maxSize = some (ents, .errNone) ∧
      ents.length = l.unstable.offset.toNat - lo.toNat

/-- Behind the stored part, cut short or not, the window starts at the offset. -/
theorem Stitched.consecutive_append_window_iff (h : l.Stitched) {ents : List LogEntry}
    (hents : Consecutive lo ents) (hlo : lo < l.unstable.offset) (hhi : l.unstable.offset < hi)
    (hlast : hi.toNat ≤ l.lastIndex.toNat + 1) :
    Consecutive lo (ents ++ l.window lo hi) ↔
      ents.length = l.unstable.offset.toNat - lo.toNat := by
  have hlo' : lo.toNat < l.unstable.offset.toNat := hlo
  have hhi' : l.unstable.offset.toNat < hi.toNat := hhi
  have hnum : Numbered (fun e => e.uindex.toNat) l.unstable.offset.toNat (l.window lo hi) := by
    have hwindow : Numbered _ (max lo.toNat l.unstable.offset.toNat) (l.window lo hi) :=
      h.numbered_window
    rwa [max_eq_right hlo'.le] at hwindow
  constructor
  · intro hcons
    have hlen := h.length_window (hlo.trans hhi).le hlast
    rw [max_eq_right hlo'.le] at hlen
    -- the first entry of the window gives its place away
    obtain ⟨e, he⟩ : ∃ e, (l.window lo hi)[0]? = some e :=
      ⟨_, List.getElem?_eq_getElem (by omega)⟩
    have hplace := hcons ents.length e (by
      rw [List.getElem?_append_right le_rfl, Nat.sub_self, he])
    have hindex : e.uindex.toNat = l.unstable.offset.toNat + 0 := hnum 0 e he
    omega
  · intro hlen
    apply Numbered.append (consecutive_iff_numbered.mp hents)
    rwa [hlen, Nat.add_sub_cancel' hlo'.le]

/-- A slice is free of holes exactly when what storage answered and the window fit. -/
theorem Stitched.slice_gapFree_iff (h : l.Stitched) (hlo : l.firstIndex ≤ lo) (hlt : lo < hi)
    (hhi : hi.toNat ≤ l.lastIndex.toNat + 1) {ents : List LogEntry}
    (hpart : l.storedPart lo hi maxSize = some (ents, .errNone)) :
    (∀ out new, l.slice lo hi maxSize out = some (.errNone, out ++ new) → Consecutive lo new) ↔
      Consecutive lo (ents ++ l.window lo hi) := by
  have hslice : ∀ out, l.slice lo hi maxSize out =
      some (.errNone, out ++ (ents ++ l.window lo hi)) := by
    intro out
    rw [h.slice_eq hlo hlt hhi, hpart]
    rfl
  constructor
  · intro hread
    exact hread [] _ (hslice [])
  · intro hcons out new hread
    rw [hslice out] at hread
    obtain rfl := List.append_cancel_left (Prod.mk.inj (Option.some.inj hread)).2
    exact hcons

theorem slice_gapFree_iff_storedPartComplete (hst : l.storage.HonoursEntries) (h : l.Stitched)
    (hlo : l.firstIndex ≤ lo) (hlt : lo < hi) (hhi : hi.toNat ≤ l.lastIndex.toNat + 1) :
    (∀ out new, l.slice lo hi maxSize out = some (.errNone, out ++ new) → Consecutive lo new) ↔
      l.StoredPartComplete lo hi maxSize := by
  have hoffset := h.offset_le
  by_cases hbelow : lo < l.unstable.offset
  · rcases le_or_gt hi l.unstable.offset with hstop | hgo
    · -- the whole range is read from storage, short or not
      obtain ⟨ents, hread, -, hents, -⟩ := hst lo hi maxSize hlo hlt
        ((UInt64.le_iff_toNat_le.mp hstop).trans hoffset)
      have hpart : l.storedPart lo hi maxSize = some (ents, .errNone) := by
        rw [storedPart, if_pos hbelow, min_eq_left hstop, hread]
      rw [h.slice_gapFree_iff hlo hlt hhi hpart, window_eq_nil (UInt64.le_iff_toNat_le.mp hstop),
        List.append_nil]
      exact iff_of_true hents fun _ hgo => absurd hgo (not_lt.mpr hstop)
    · obtain ⟨ents, hread, -, hents, -⟩ := hst lo l.unstable.offset maxSize hlo hbelow hoffset
      have hpart : l.storedPart lo hi maxSize = some (ents, .errNone) := by
        rw [storedPart, if_pos hbelow, min_eq_right hgo.le, hread]
      rw [h.slice_gapFree_iff hlo hlt hhi hpart,
        h.consecutive_append_window_iff hents hbelow hgo hhi]
      constructor
      · intro hlen _ _
        exact ⟨ents, hread, hlen⟩
      · intro hcomplete
        obtain ⟨ents', hread', hlen⟩ := hcomplete hbelow hgo
        cases hread.symm.trans hread'
        exact hlen
  · have hpart : l.storedPart lo hi maxSize = some ([], .errNone) := by
      rw [storedPart, if_neg hbelow]
    rw [h.slice_gapFree_iff hlo hlt hhi hpart, List.nil_append]
    refine iff_of_true ?_ fun hlow => absurd hlow hbelow
    have hwindow : Numbered _ (max lo.toNat l.unstable.offset.toNat) (l.window lo hi) :=
      h.numbered_window
    rwa [max_eq_left (UInt64.le_iff_toNat_le.mp (not_lt.mp hbelow))] at hwindow

/-- `Entries` is the slice up to the last index. -/
theorem entries_eq_slice (hlt : lo < hi) (hhi : hi.toNat = l.lastIndex.toNat + 1)
    (out : List LogEntry) : l.entries lo maxSize out = l.slice lo hi maxSize out := by
  have hle : lo ≤ l.lastIndex := by
    have hlt' : lo.toNat < hi.toNat := hlt
    rw [UInt64.le_iff_toNat_le]
    omega
  have hnext : l.lastIndex + 1 = hi := by
    apply UInt64.toNat_inj.mp
    have htop := hi.toNat_lt
    rw [UInt64.toNat_add_one_of_lt (by omega), hhi]
  rw [entries, if_neg (not_lt.mpr hle), hnext]

/-- **When a size-limited read has no hole**: the range lies on one side of the
offset, or storage answered its part of it in full. -/
theorem slice_holeFree_iff (hst : l.storage.HonoursEntries) (h : l.Stitched)
    (hlo : l.firstIndex ≤ lo) (hlt : lo < hi) (hhi : hi.toNat ≤ l.lastIndex.toNat + 1) :
    l.HoleFree lo hi maxSize ↔ l.StoredPartComplete lo hi maxSize := by
  rw [← slice_gapFree_iff_storedPartComplete hst h hlo hlt hhi]
  refine ⟨HoleFree.slice, fun hslice => ⟨hslice, ?_, ?_⟩⟩
  · intro hend out new hread
    exact hslice out new ((entries_eq_slice hlt hend out).symm.trans hread)
  · rintro hend rfl rfl out new hread
    exact hslice out new ((entries_eq_slice hlt hend out).symm.trans hread)

/-- The storage cuts every answer after its first entry. -/
def cutShort : RaftLog where
  storage :=
    { Storage.holding 1 2 fun i => { index := Int64.ofNat i, term := 1 } with
      entries := fun lo hi _ =>
        if 1 ≤ lo ∧ lo < hi ∧ hi.toNat ≤ 3 then some ([{ index := lo.toInt64, term := 1 }], .errNone)
        else some ([], .errUnavailable) }
  unstable := { entries := [{ index := 3, term := 1 }], offset := 3 }
  committed := 0
  applied := 0

theorem cutShort_honoursEntries : cutShort.storage.HonoursEntries := by
  intro lo hi maxSize hlo hlt hhi
  refine ⟨[{ index := lo.toInt64, term := 1 }], if_pos ⟨hlo, hlt, hhi⟩, List.cons_ne_nil _ _,
    consecutive_singleton { index := lo.toInt64, term := 1 }, ?_⟩
  have hlt' : lo.toNat < hi.toNat := hlt
  rw [List.length_singleton]
  omega

theorem cutShort_stitched : cutShort.Stitched where
  consecutive := consecutive_singleton { index := 3, term := 1 }
  offset_le := by decide
  offset_eq := nofun
  lastIndex_lt := by decide

/-- The last stored entry and the unstable one. -/
theorem slice_holeFree_cutShort : cutShort.HoleFree 2 4 0 :=
  (slice_holeFree_iff cutShort_honoursEntries cutShort_stitched (by decide) (by decide)
    (by decide)).mpr fun _ _ => ⟨_, rfl, rfl⟩

/-- All entries of the log, without entry 2. -/
theorem not_slice_holeFree :
    cutShort.storage.HonoursEntries ∧ cutShort.Stitched ∧
      cutShort.allEntries [] =
        some (.errNone, [{ index := 1, term := 1 }, { index := 3, term := 1 }]) ∧
      ¬ cutShort.HoleFree 1 4 10000 := by
  have hread : cutShort.allEntries [] =
      some (.errNone, [{ index := 1, term := 1 }, { index := 3, term := 1 }]) := by decide
  refine ⟨cutShort_honoursEntries, cutShort_stitched, hread, fun hfree => ?_⟩
  have hplace := hfree.allEntries rfl rfl rfl [] _ hread 1 { index := 3, term := 1 } rfl
  revert hplace
  decide

end RaftLog

end Anraft
