import Anraft.Base.Overwrite
import Anraft.Log.Calls
import Anraft.Log.Slices

/-!
# A log shows what was last written

A batch that starts right behind the log or inside what storage covers is put over the log
from its first index on. After any run of such batches every read shows, at each index, the
last batch that starts at or below it, wherever the entries ended up.
-/

namespace Anraft

open IteratorRange Segment Overwrite

/-- The batches of the calls as they are written. -/
def LogCall.batches : LogCall → List (ℕ × List LogEntry)
  | .append (first :: rest) => [(first.uindex.toNat, first :: rest)]
  | _ => []

/-- A batch of consecutive entries, the index behind the last one still a `uint64_t`. -/
def LogCall.IsNumbered : LogCall → Prop
  | .append (first :: rest) =>
    Consecutive first.uindex (first :: rest) ∧ first.uindex.toNat + rest.length + 1 < 2 ^ 64
  | _ => True

namespace RaftLog

variable {w : Unwritten} {l l' l'' : RaftLog} {stored : ℕ → LogEntry}
  {bs bs' : List (ℕ × List LogEntry)}

/-- A batch starts right behind the unstable entries, or at or before the first of them. -/
def Lands (l : RaftLog) : LogCall → Prop
  | .append (first :: _) =>
    first.uindex.toNat = l.unstable.offset.toNat + l.unstable.entries.length ∨
      first.uindex ≤ l.unstable.offset
  | _ => True

/-- `l'` is `l` with the batches written over it. -/
structure WrittenOver (stored : ℕ → LogEntry) (l : RaftLog) (bs : List (ℕ × List LogEntry))
    (l' : RaftLog) : Prop where
  stitched : l'.Stitched
  storage : l'.storage = l.storage
  entry : l'.entryOf stored = putAll (l.entryOf stored) bs
  next : l'.lastIndex.toNat + 1 = nextAfter (l.lastIndex.toNat + 1) bs

theorem WrittenOver.refl (h : l.Stitched) : WrittenOver stored l [] l where
  stitched := h
  storage := rfl
  entry := rfl
  next := rfl

theorem WrittenOver.trans (h : WrittenOver stored l bs l') (h' : WrittenOver stored l' bs' l'') :
    WrittenOver stored l (bs ++ bs') l'' where
  stitched := h'.stitched
  storage := h'.storage.trans h.storage
  entry := by rw [h'.entry, h.entry, putAll_append]
  next := by rw [h'.next, h.next, nextAfter_append]

/-- Moving the commit index writes nothing. -/
theorem WrittenOver.of_sameEntries (h : l.Stitched) (hsame : SameEntries l l') :
    WrittenOver stored l [] l' where
  stitched := by
    refine ⟨?_, ?_, ?_, ?_⟩
    · exact hsame.unstable ▸ h.consecutive
    · rw [hsame.storage, hsame.unstable]
      exact h.offset_le
    · rw [hsame.storage, hsame.unstable]
      exact h.offset_eq
    · exact hsame.lastIndex ▸ h.lastIndex_lt
  storage := hsame.storage
  entry := by
    ext1 i
    rw [entryOf, hsame.unstable]
    rfl
  next := by rw [hsame.lastIndex, nextAfter_nil]

/-! ## One batch -/

theorem toNat_lastIndex_with_unstable {u : Unstable} (hne : u.entries ≠ [])
    (hfit : u.offset.toNat + u.entries.length < 2 ^ 64) :
    (RaftLog.lastIndex { l with unstable := u }).toNat + 1 =
      u.offset.toNat + u.entries.length := by
  have hpos := List.length_pos_iff.mpr hne
  rw [lastIndex_with_unstable l u hne, UInt64.toNat_sub, UInt64.toNat_add,
    toNat_size _ (by omega), UInt64.toNat_one]
  omega

/-- The unstable part may be exchanged for one that starts no later. -/
theorem Stitched.with_unstable (h : l.Stitched) {u : Unstable}
    (hconsecutive : Consecutive u.offset u.entries) (hle : u.offset ≤ l.unstable.offset)
    (hne : u.entries ≠ []) (hfit : u.offset.toNat + u.entries.length < 2 ^ 64) :
    Stitched { l with unstable := u } where
  consecutive := hconsecutive
  offset_le := (UInt64.le_iff_toNat_le.mp hle).trans h.offset_le
  offset_eq hnil := absurd hnil hne
  lastIndex_lt := by
    have hlast := toNat_lastIndex_with_unstable (l := l) hne hfit
    omega

/-- The unstable entries end where the log does. -/
theorem Stitched.lastIndex_add_one (h : l.Stitched) :
    l.lastIndex.toNat + 1 = l.unstable.offset.toNat + l.unstable.entries.length := by
  have hlt := h.lastIndex_lt
  by_cases hnil : l.unstable.entries = []
  · rw [lastIndex_of_nil hnil, hnil, List.length_nil, Nat.add_zero, h.offset_eq hnil]
  · have hpos := List.length_pos_iff.mpr hnil
    have hend := h.consecutive.add_length_le
    rw [lastIndex_of_ne_nil hnil, UInt64.toNat_sub, UInt64.toNat_add, size, UInt64.toNat_ofNat',
      UInt64.toNat_one] at hlt ⊢
    omega

variable {first : LogEntry} {rest : List LogEntry}

/-- A batch right behind the log. -/
theorem writtenOver_next (h : l.Stitched) (hb : Consecutive first.uindex (first :: rest))
    (hfit : first.uindex.toNat + rest.length + 1 < 2 ^ 64)
    (hnext : first.uindex.toNat = l.unstable.offset.toNat + l.unstable.entries.length) :
    WrittenOver stored l [(first.uindex.toNat, first :: rest)]
      { l with unstable := { l.unstable with entries := l.unstable.entries ++ first :: rest } } := by
  have hlength : (l.unstable.entries ++ first :: rest).length =
      l.unstable.entries.length + rest.length + 1 := by
    rw [List.length_append, List.length_cons, Nat.add_assoc]
  have hne : l.unstable.entries ++ first :: rest ≠ [] := by simp
  have hfit' : l.unstable.offset.toNat + (l.unstable.entries ++ first :: rest).length < 2 ^ 64 := by
    omega
  have hconsecutive : Consecutive l.unstable.offset (l.unstable.entries ++ first :: rest) := by
    apply Numbered.append (consecutive_iff_numbered.mp h.consecutive)
    rw [← hnext]
    exact hb
  refine ⟨h.with_unstable hconsecutive le_rfl hne hfit', rfl, ?_, ?_⟩
  · ext1 i
    show _ = put (l.entryOf stored) first.uindex.toNat (first :: rest) i
    unfold put entryOf
    dsimp only
    by_cases hlo : i < l.unstable.offset.toNat
    · rw [if_pos hlo, if_pos hlo, if_pos (by omega)]
    rw [if_neg hlo, if_neg hlo, List.getElem?_append]
    split
    · next hlt => rw [if_pos (by omega)]
    · next hge =>
        rw [if_neg (by omega), hnext, Nat.sub_sub]
  · rw [toNat_lastIndex_with_unstable hne hfit']
    show l.unstable.offset.toNat + (l.unstable.entries ++ first :: rest).length =
      first.uindex.toNat + (first :: rest).length
    rw [hlength, List.length_cons]
    omega

/-- A batch that starts at or before the offset replaces the unstable entries. -/
theorem writtenOver_replace (h : l.Stitched) (hb : Consecutive first.uindex (first :: rest))
    (hfit : first.uindex.toNat + rest.length + 1 < 2 ^ 64)
    (hle : first.uindex ≤ l.unstable.offset) :
    WrittenOver stored l [(first.uindex.toNat, first :: rest)]
      { l with unstable := { offset := first.uindex, entries := first :: rest } } := by
  have hle' : first.uindex.toNat ≤ l.unstable.offset.toNat := hle
  have hne : first :: rest ≠ [] := List.cons_ne_nil _ _
  refine ⟨h.with_unstable hb hle hne hfit, rfl, ?_, toNat_lastIndex_with_unstable hne hfit⟩
  ext1 i
  show _ = put (l.entryOf stored) first.uindex.toNat (first :: rest) i
  unfold put entryOf
  dsimp only
  by_cases hlo : i < first.uindex.toNat
  · rw [if_pos hlo, if_pos hlo, if_pos (hlo.trans_le hle')]
  · rw [if_neg hlo, if_neg hlo]

/-- **One call.** It is defined and writes its batch over the log. -/
theorem Stitched.call_writtenOver (h : l.Stitched) {c : LogCall} (hc : c.IsNumbered)
    (hlands : l.Lands c) : ∃ l', l.call w c = some l' ∧ WrittenOver stored l c.batches l' := by
  cases c with
  | maybeAppend index term committed ents =>
      exact ⟨_, rfl, .of_sameEntries h (maybeAppend_sameEntries index term committed ents)⟩
  | maybeCommit index term =>
      exact ⟨_, rfl, .of_sameEntries h (maybeCommit_sameEntries index term)⟩
  | append ents =>
      cases ents with
      | nil => exact ⟨l, rfl, .refl h⟩
      | cons first rest =>
          obtain ⟨hb, hfit⟩ := hc
          have hsize : (l.unstable.offset + size l.unstable.entries).toNat =
              l.unstable.offset.toNat + l.unstable.entries.length := by
            have hend := h.lastIndex_add_one
            have hlt := h.lastIndex_lt
            rw [UInt64.toNat_add, toNat_size _ (by omega)]
            omega
          by_cases hnext : first.uindex = l.unstable.offset + size l.unstable.entries
          · exact ⟨_, call_append_next hnext, writtenOver_next h hb hfit (hnext ▸ hsize)⟩
          · have hle : first.uindex ≤ l.unstable.offset := by
              apply hlands.resolve_left
              intro heq
              exact hnext (UInt64.toNat_inj.mp (heq.trans hsize.symm))
            exact ⟨_, call_append_replace hnext hle, writtenOver_replace h hb hfit hle⟩

/-! ## Runs -/

theorem Stitched.run_writtenOver {calls : List LogCall} (h : l.Stitched)
    (hcalls : ∀ c ∈ calls, c.IsNumbered) (hlands : (machine w).Along Lands l calls) :
    ∃ l', (machine w).run l calls = some l' ∧
      WrittenOver stored l (calls.flatMap LogCall.batches) l' := by
  induction calls generalizing l with
  | nil => exact ⟨l, rfl, .refl h⟩
  | cons c calls ih =>
      obtain ⟨hc, hcalls⟩ := List.forall_mem_cons.mp hcalls
      obtain ⟨t, ht, hwritten⟩ : ∃ t, l.call w c = some t ∧ WrittenOver stored l c.batches t :=
        h.call_writtenOver hc hlands.1
      obtain ⟨l', hrun, hwritten'⟩ := ih hwritten.stitched hcalls (hlands.2 t ht)
      refine ⟨l', ?_, hwritten.trans hwritten'⟩
      rw [Machine.run, show (machine w).step l c = some t from ht]
      exact hrun

/-- `(err, out')` is the right answer to a read of `[lo, hi)` into `out` from a log that covers
the indexes from `first` up to `next` and has `entry i` at index `i`. -/
structure ReadAnswer (first : UInt64) (next : ℕ) (entry : ℕ → Option LogEntry) (lo hi : UInt64)
    (out : List LogEntry) (err : RaftError) (out' : List LogEntry) : Prop where
  errNone_iff : err = .errNone ↔ first ≤ lo ∧ lo ≤ hi ∧ hi.toNat ≤ next
  appended : err = .errNone → ∃ new, out' = out ++ new ∧
    new.map some = (List.range' lo.toNat (hi.toNat - lo.toNat)).map entry
  unchanged : err ≠ .errNone → out' = out

/-- **A log shows what was last written.** Over a storage that reads back what it holds, a run
of batches that land is defined, and every read after it answers, at each index, what the last
batch that starts at or below the index says, and what the log held before where no batch
does. -/
theorem reads_last_written (hst : l.storage.ReadsExactly stored) (h : l.Stitched)
    {calls : List LogCall} (hcalls : ∀ c ∈ calls, c.IsNumbered)
    (hlands : (machine w).Along Lands l calls) :
    ∃ l', (machine w).run l calls = some l' ∧
      ∀ (lo hi maxSize : UInt64) (out : List LogEntry), ∃ err out',
        l'.slice lo hi maxSize out = some (err, out') ∧
          ReadAnswer l.firstIndex
            (nextAfter (l.lastIndex.toNat + 1) (calls.flatMap LogCall.batches))
            (lastWritten (l.entryOf stored) (calls.flatMap LogCall.batches))
            lo hi out err out' := by
  obtain ⟨l', hrun, hwritten⟩ : ∃ l', (machine w).run l calls = some l' ∧
      WrittenOver stored l (calls.flatMap LogCall.batches) l' := h.run_writtenOver hcalls hlands
  refine ⟨l', hrun, fun lo hi maxSize out => ?_⟩
  have hst' : l'.storage.ReadsExactly stored := hwritten.storage ▸ hst
  have hfirst : l'.firstIndex = l.firstIndex := by
    rw [firstIndex_eq, firstIndex_eq, hwritten.storage]
  obtain ⟨err, out', hslice, hanswer⟩ := slice_stitches hst' hwritten.stitched lo hi maxSize out
  refine ⟨err, out', hslice, ?_, ?_, hanswer.unchanged⟩
  · rw [hanswer.errNone_iff, hfirst, hwritten.next]
  · intro herr
    rw [← putAll_eq_lastWritten, ← hwritten.entry]
    exact hanswer.appended herr

/-- Entry 6 behind the log, then new entries from 4 on. -/
def rewritten : List LogCall :=
  [.append [{ index := 6, term := 2 }], .maybeCommit 5 2,
    .append [{ index := 4, term := 3 }, { index := 5, term := 3 }]]

theorem reads_last_written_rewritten :
    ∃ l', (machine .filledIn).run overlapping rewritten = some l' ∧
      ∀ (lo hi maxSize : UInt64) (out : List LogEntry), ∃ err out',
        l'.slice lo hi maxSize out = some (err, out') ∧
          ReadAnswer overlapping.firstIndex
            (nextAfter (overlapping.lastIndex.toNat + 1) (rewritten.flatMap LogCall.batches))
            (lastWritten
              (overlapping.entryOf fun i => { index := Int64.ofNat i, term := 1 })
              (rewritten.flatMap LogCall.batches))
            lo hi out err out' := by
  apply reads_last_written (Storage.holding_readsExactly 2 4 _) overlapping_stitched
  · intro c hc
    simp only [rewritten, List.mem_cons, List.not_mem_nil, or_false] at hc
    rcases hc with rfl | rfl | rfl
    · exact ⟨consecutive_singleton { index := 6, term := 2 }, by decide⟩
    · trivial
    · refine ⟨?_, by decide⟩
      exact Numbered.append (consecutive_singleton { index := 4, term := 3 })
        (consecutive_singleton { index := 5, term := 3 })
  · have happended : overlapping.call .filledIn (.append [{ index := 6, term := 2 }]) =
        some { overlapping with unstable :=
          { overlapping.unstable with
            entries := overlapping.unstable.entries ++ [{ index := 6, term := 2 }] } } :=
      call_append_next (by decide)
    refine ⟨.inl (by decide), fun l₁ h₁ => ?_⟩
    obtain rfl := Option.some.inj (happended.symm.trans h₁)
    refine ⟨trivial, fun l₂ h₂ => ?_⟩
    obtain rfl := Option.some.inj h₂
    exact ⟨.inr (by decide), fun _ _ => trivial⟩

end RaftLog

end Anraft
