import Anraft.Base.Word
import Anraft.Storage

/-!
# `Append` of a batch to the stored log

The batch should replace what the log holds from the batch's first index on. The
code reads `old_last` one index too far, never removes a stored entry, and takes
a batch that ends right after the dummy for an old one.
-/

namespace Anraft

open IteratorRange Segment

/-- `new_last` is the index of the last entry of the batch. -/
theorem Consecutive.toNat_newLast {first : LogEntry} {rest : List LogEntry}
    (hb : Consecutive first.uindex (first :: rest)) :
    (first.uindex + size (first :: rest) - 1).toNat = first.uindex.toNat + rest.length := by
  have hend := hb.add_length_le
  rw [List.length_cons] at hend
  rw [UInt64.toNat_sub, UInt64.toNat_add, size, UInt64.toNat_ofNat', UInt64.toNat_one,
    List.length_cons]
  omega

namespace MemoryStorage

variable {ms : MemoryStorage} {first : LogEntry} {rest : List LogEntry}

/-- The storage with `moved` behind its last entry. -/
def extend (ms : MemoryStorage) (moved : List LogEntry) : MemoryStorage where
  entries_ := ms.entries_ ++ moved
  nonempty := List.append_ne_nil_of_left_ne_nil ms.nonempty moved

theorem entries_extend (ms : MemoryStorage) (moved : List LogEntry) :
    (ms.extend moved).entries_ = ms.dummy :: (ms.entries_.tail ++ moved) := by
  rw [← List.cons_append, ← entries_eq_cons, extend]

/-- `old_last` is one beyond the last index. -/
theorem WellFormed.toNat_oldLast (h : ms.WellFormed) :
    (ms.dummy.uindex + 1 + size ms.entries_ - 1).toNat = ms.lastIndex.1.toNat + 1 := by
  rw [h.lastIndex_add_one, ← h.toNat_add_size]
  congr 1
  grind

/-- The stored entries lie between the first and the last index. -/
theorem WellFormed.lastIndex_eq_tail (h : ms.WellFormed) :
    ms.lastIndex.1.toNat + 1 = ms.firstIndex.1.toNat + ms.entries_.tail.length := by
  rw [h.lastIndex_add_one, h.toNat_firstIndex, ← ms.length_tail, Nat.add_right_comm, Nat.add_assoc]

/-- **What the code does with a batch**, by where the batch lies. -/
theorem append_eq (h : ms.WellFormed) (hb : Consecutive first.uindex (first :: rest)) :
    ms.append (first :: rest) =
      if first.uindex.toNat + rest.length ≤ ms.firstIndex.1.toNat then some (.errNone, ms)
      else if ms.lastIndex.1.toNat + 1 < first.uindex.toNat then some (.errNone, ms)
      else if ms.lastIndex.1.toNat ≤ first.uindex.toNat + rest.length then
        some (.errNone, ms.extend
          ((first :: rest).drop (ms.lastIndex.1.toNat + 1 - first.uindex.toNat)))
      else none := by
  have hold := h.toNat_oldLast
  unfold append
  simp only [UInt64.le_iff_toNat_le, UInt64.lt_iff_toNat_lt, hb.toNat_newLast, hold]
  refine if_congr Iff.rfl rfl ?_
  split
  · rfl
  next hgap =>
  have hoff : (ms.dummy.uindex + 1 + size ms.entries_ - 1 - first.uindex).toNat =
      ms.lastIndex.1.toNat + 1 - first.uindex.toNat := by
    have hle := UInt64.le_iff_toNat_le.mpr ((not_lt.mp hgap).trans_eq hold.symm)
    rw [UInt64.toNat_sub_of_le _ _ hle, hold]
  rw [hoff]
  split
  · next hreach =>
      have hin : ms.lastIndex.1.toNat + 1 - first.uindex.toNat ≤ (first :: rest).length :=
        Nat.sub_le_of_le_add (by rw [List.length_cons]; omega)
      rw [range?_natCast _ hin le_rfl, ← List.length_drop, List.take_length]
      rfl
  · next hreach =>
      rw [range?_eq_none _ _ _ (by rw [List.length_cons]; omega)]
      rfl

/-! ## What the batch should leave behind -/

/-- The stored entries below the batch's first index, then the batch without what
lies at or below the dummy. -/
def overwrittenBy (ms : MemoryStorage) (first : LogEntry) (rest : List LogEntry) :
    List LogEntry :=
  ms.entries_.tail.filter (fun e => e.uindex < first.uindex) ++
    (first :: rest).filter (fun e => ms.dummy.uindex < e.uindex)

/-- `Append` is truncate-and-append for this batch. `first.uindex + rest.length`
is the index of the batch's last entry. -/
structure TruncatesAndAppends (ms : MemoryStorage) (first : LogEntry)
    (rest : List LogEntry) : Prop where
  overwrites : first.uindex.toNat ≤ ms.lastIndex.1.toNat + 1 →
    ms.firstIndex.1.toNat ≤ first.uindex.toNat + rest.length →
      ∃ ms', ms.append (first :: rest) = some (.errNone, ms') ∧
        ms'.entries_ = ms.dummy :: ms.overwrittenBy first rest ∧
        Consecutive ms'.dummy.uindex ms'.entries_
  skips : first.uindex.toNat + rest.length ≤ ms.dummy.uindex.toNat →
    ∃ err, ms.append (first :: rest) = some (err, ms)
  refuses : ms.lastIndex.1.toNat + 1 < first.uindex.toNat →
    ∃ err, ms.append (first :: rest) = some (err, ms) ∧ err ≠ .errNone

/-- Wherever the batch has an index of a stored entry, it has that entry. The
dummy does not count: it stands for an entry that is gone. -/
def AgreesWith (ms : MemoryStorage) (batch : List LogEntry) : Prop :=
  ∀ x ∈ ms.entries_.tail, ∀ y ∈ batch, x.uindex = y.uindex → x = y

/-- The batch reaches the last index, has the stored entries it covers, and is not
the first entry ever put after the dummy. -/
structure Repeats (ms : MemoryStorage) (first : LogEntry) (rest : List LogEntry) : Prop where
  reaches : ms.lastIndex.1.toNat ≤ first.uindex.toNat + rest.length
  agrees : ms.AgreesWith (first :: rest)
  not_fresh : ms.entries_.tail = [] →
    first.uindex.toNat + rest.length ≠ ms.dummy.uindex.toNat + 1

/-- The batch lies at or below the dummy; or it leaves no gap and nothing stored
has to give way to it. -/
def AppendFits (ms : MemoryStorage) (first : LogEntry) (rest : List LogEntry) : Prop :=
  first.uindex.toNat + rest.length ≤ ms.dummy.uindex.toNat ∨
    (first.uindex.toNat ≤ ms.lastIndex.1.toNat + 1 ∧ ms.Repeats first rest)

theorem overwrittenBy_eq (h : ms.WellFormed)
    (hb : Consecutive first.uindex (first :: rest)) :
    ms.overwrittenBy first rest =
      ms.entries_.tail.take (first.uindex.toNat - ms.firstIndex.1.toNat) ++
        (first :: rest).drop (ms.firstIndex.1.toNat - first.uindex.toNat) := by
  rw [h.toNat_firstIndex, overwrittenBy, ← h.tail.filter_lt,
    ← (consecutive_iff_numbered.mp hb).filter_ge]
  rfl

theorem length_overwrittenBy (h : ms.WellFormed)
    (hb : Consecutive first.uindex (first :: rest))
    (hgap : first.uindex.toNat ≤ ms.lastIndex.1.toNat + 1)
    (hlast : ms.firstIndex.1.toNat ≤ first.uindex.toNat + rest.length) :
    (ms.overwrittenBy first rest).length =
      first.uindex.toNat + rest.length + 1 - ms.firstIndex.1.toNat := by
  have hend := h.lastIndex_eq_tail
  rw [overwrittenBy_eq h hb, List.length_append, List.length_take, List.length_drop,
    List.length_cons]
  omega

theorem consecutive_overwrittenBy (h : ms.WellFormed)
    (hb : Consecutive first.uindex (first :: rest))
    (hgap : first.uindex.toNat ≤ ms.lastIndex.1.toNat + 1) :
    Consecutive ms.dummy.uindex (ms.dummy :: ms.overwrittenBy first rest) := by
  rw [h.lastIndex_eq_tail, h.toNat_firstIndex] at hgap
  rw [consecutive_iff_numbered, overwrittenBy_eq h hb, h.toNat_firstIndex,
    ← List.singleton_append]
  apply Numbered.append
  · exact consecutive_singleton ms.dummy
  · exact h.tail.splice (consecutive_iff_numbered.mp hb) hgap

theorem agreesWith_iff {batch : List LogEntry} :
    ms.AgreesWith batch ↔
      ∀ x ∈ ms.entries_.tail, ∀ y ∈ batch, x.uindex.toNat = y.uindex.toNat → x = y := by
  unfold AgreesWith
  simp only [UInt64.toNat_inj]

/-- Where the batch reaches the last index, appending its new part overwrites the
log exactly when the batch repeats what it covers. -/
theorem extend_overwrites_iff (h : ms.WellFormed)
    (hb : Consecutive first.uindex (first :: rest))
    (hgap : first.uindex.toNat ≤ ms.lastIndex.1.toNat + 1)
    (hreach : ms.lastIndex.1.toNat ≤ first.uindex.toNat + rest.length) :
    (ms.extend ((first :: rest).drop
        (ms.lastIndex.1.toNat + 1 - first.uindex.toNat))).entries_ =
        ms.dummy :: ms.overwrittenBy first rest ↔
      ms.AgreesWith (first :: rest) := by
  have hreach' := Nat.succ_le_succ hreach
  rw [Nat.succ_eq_add_one, h.lastIndex_eq_tail, h.toNat_firstIndex] at hreach'
  rw [h.lastIndex_eq_tail, h.toNat_firstIndex] at hgap ⊢
  rw [agreesWith_iff, ← h.tail.append_drop_eq_splice_iff (consecutive_iff_numbered.mp hb) hgap
    hreach', entries_extend, List.cons_inj_right, overwrittenBy_eq h hb, h.toNat_firstIndex]

/-- A batch that overlaps or continues the log and does not lie below it. -/
theorem truncatesAndAppends_iff_of_overlap (h : ms.WellFormed)
    (hb : Consecutive first.uindex (first :: rest))
    (hgap : first.uindex.toNat ≤ ms.lastIndex.1.toNat + 1)
    (hlast : ms.firstIndex.1.toNat ≤ first.uindex.toNat + rest.length) :
    ms.TruncatesAndAppends first rest ↔
      ∃ ms', ms.append (first :: rest) = some (.errNone, ms') ∧
        ms'.entries_ = ms.dummy :: ms.overwrittenBy first rest := by
  constructor
  · intro hlaw
    obtain ⟨ms', happ, hents, -⟩ := hlaw.overwrites hgap hlast
    exact ⟨ms', happ, hents⟩
  · rintro ⟨ms', happ, hents⟩
    refine ⟨fun _ _ => ⟨ms', happ, hents, ?_⟩, fun hskip => ?_, fun hrefuse => ?_⟩
    · have hdummy : ms'.dummy = ms.dummy := by simp only [dummy, hents, List.head_cons]
      rw [hdummy, hents]
      exact consecutive_overwrittenBy h hb hgap
    · rw [h.toNat_firstIndex] at hlast
      exact absurd hskip (Nat.lt_of_succ_le hlast).not_ge
    · exact absurd hrefuse hgap.not_gt

/-- A batch that ends right after the dummy is taken for an old one. -/
theorem overlap_at_first_iff (h : ms.WellFormed)
    (hb : Consecutive first.uindex (first :: rest))
    (hgap : first.uindex.toNat ≤ ms.lastIndex.1.toNat + 1)
    (hlast : first.uindex.toNat + rest.length = ms.firstIndex.1.toNat) :
    (∃ ms', ms.append (first :: rest) = some (.errNone, ms') ∧
        ms'.entries_ = ms.dummy :: ms.overwrittenBy first rest) ↔
      ms.Repeats first rest := by
  have hend := h.lastIndex_eq_tail
  rw [append_eq h hb, if_pos hlast.le]
  simp only [Option.some.injEq, Prod.mk.injEq, true_and, exists_eq_left']
  by_cases hone : ms.entries_.tail.length = 1
  · have hfull : ms.lastIndex.1.toNat = first.uindex.toNat + rest.length := by
      rw [hone, ← hlast] at hend
      exact Nat.succ.inj hend
    -- there is nothing new in the batch
    have hmoved : (first :: rest).drop (ms.lastIndex.1.toNat + 1 - first.uindex.toNat) = [] := by
      rw [hfull, Nat.add_assoc, Nat.add_sub_cancel_left, ← List.length_cons, List.drop_length]
    have hover := extend_overwrites_iff h hb hgap hfull.le
    rw [hmoved, entries_extend, List.append_nil, ← entries_eq_cons] at hover
    have hne : ms.entries_.tail ≠ [] := List.ne_nil_of_length_eq_add_one hone
    rw [hover]
    exact ⟨fun hagree => ⟨hfull.le, hagree, fun hnil => absurd hnil hne⟩, Repeats.agrees⟩
  · apply iff_of_false
    · intro hents
      have hcount := congrArg List.length hents
      rw [List.length_cons, length_overwrittenBy h hb hgap hlast.ge, hlast,
        Nat.add_sub_cancel_left, ← ms.length_tail] at hcount
      exact hone (Nat.succ.inj hcount)
    · rintro ⟨hreach, -, hfresh⟩
      rw [h.toNat_firstIndex] at hlast
      refine hfresh (List.length_eq_zero_iff.mp ?_) hlast
      have hF := h.toNat_firstIndex
      omega

/-- A batch that ends higher is appended as far as it is new, and read outside its
end when it stops short of the last index. -/
theorem overlap_above_first_iff (h : ms.WellFormed)
    (hb : Consecutive first.uindex (first :: rest))
    (hgap : first.uindex.toNat ≤ ms.lastIndex.1.toNat + 1)
    (hlast : ms.firstIndex.1.toNat < first.uindex.toNat + rest.length) :
    (∃ ms', ms.append (first :: rest) = some (.errNone, ms') ∧
        ms'.entries_ = ms.dummy :: ms.overwrittenBy first rest) ↔
      ms.Repeats first rest := by
  rw [append_eq h hb, if_neg hlast.not_ge, if_neg hgap.not_gt]
  split
  · next hreach =>
      simp only [Option.some.injEq, Prod.mk.injEq, true_and, exists_eq_left']
      rw [extend_overwrites_iff h hb hgap hreach]
      rw [h.toNat_firstIndex] at hlast
      exact ⟨fun hagree => ⟨hreach, hagree, fun _ => hlast.ne'⟩, Repeats.agrees⟩
  · next hshort =>
      apply iff_of_false
      · rintro ⟨ms', happ, -⟩
        cases happ
      · intro hrepeats
        exact hshort hrepeats.reaches

/-- **`Append` is truncate-and-append exactly when nothing has to be truncated.**
For a well-formed storage and a batch with consecutive indexes, the call replaces
the log from the batch's first index on, skips a batch below the dummy and refuses
one that leaves a gap if and only if `AppendFits`. -/
theorem append_truncatesAndAppends_iff (h : ms.WellFormed)
    (hb : Consecutive first.uindex (first :: rest)) :
    ms.TruncatesAndAppends first rest ↔ ms.AppendFits first rest := by
  have hF := h.toNat_firstIndex
  have hend := h.lastIndex_eq_tail
  unfold AppendFits
  rcases lt_or_ge (first.uindex.toNat + rest.length) ms.firstIndex.1.toNat with hbelow | habove
  · -- below the dummy the shortcut leaves everything as it is
    refine iff_of_true ⟨?_, ?_, ?_⟩ (.inl (Nat.le_of_lt_succ (hbelow.trans_eq hF)))
    · intro _ hreach
      exact absurd hreach hbelow.not_ge
    · intro _
      exact ⟨.errNone, by rw [append_eq h hb, if_pos hbelow.le]⟩
    · intro hgap
      omega
  have hdummy : ¬ first.uindex.toNat + rest.length ≤ ms.dummy.uindex.toNat :=
    (Nat.lt_of_succ_le (hF.symm.trans_le habove)).not_ge
  rw [or_iff_right hdummy]
  rcases lt_or_ge (ms.lastIndex.1.toNat + 1) first.uindex.toNat with hgap | hgap
  · -- beyond a gap the code reports success
    refine iff_of_false ?_ fun hfits => absurd hfits.1 hgap.not_ge
    intro hlaw
    obtain ⟨err, happ, herr⟩ := hlaw.refuses hgap
    rw [append_eq h hb, if_pos hgap, ite_self] at happ
    cases happ
    exact herr rfl
  rw [and_iff_right hgap, truncatesAndAppends_iff_of_overlap h hb hgap habove]
  rcases habove.eq_or_lt with hnext | hnext
  · exact overlap_at_first_iff h hb hgap hnext.symm
  · exact overlap_above_first_iff h hb hgap hnext

/-- The first two entries of a log, as one batch. -/
theorem append_truncatesAndAppends_firstTwo :
    newMemoryStorage.TruncatesAndAppends { index := 1, term := 1 } [{ index := 2, term := 1 }] :=
  (append_truncatesAndAppends_iff newMemoryStorage_wellFormed
    (Numbered.append (consecutive_singleton { index := 1, term := 1 })
      (consecutive_singleton { index := 2, term := 1 }))).mpr
    (.inr ⟨by decide, by decide, by rintro x ⟨⟩, by decide⟩)

/-- The first entry of a log, as a batch of its own, is reported as stored and is
not. -/
theorem not_append_truncatesAndAppends :
    newMemoryStorage.WellFormed ∧ Consecutive 1 [{ index := 1, term := 1 }] ∧
      ¬ newMemoryStorage.TruncatesAndAppends { index := 1, term := 1 } [] := by
  refine ⟨newMemoryStorage_wellFormed, consecutive_singleton { index := 1, term := 1 }, ?_⟩
  intro hlaw
  obtain ⟨ms', happ, hents, -⟩ := hlaw.overwrites (by decide) (by decide)
  have hkept : newMemoryStorage.append [{ index := 1, term := 1 }] =
      some (.errNone, newMemoryStorage) := rfl
  cases hkept.symm.trans happ
  cases hents

end MemoryStorage

end Anraft
