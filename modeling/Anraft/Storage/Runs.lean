import Anraft.Base.Ledger
import Anraft.Base.Simulation
import Anraft.Storage.Append
import Anraft.Storage.Compaction

/-!
# Runs of the stored log

`Append` adds what lies beyond the last entry and never replaces one, and `Compact` moves
the dummy up to an entry that was stored. So storage is a ledger of terms: what `Term`
has once told it tells again until the index is compacted away, whatever later batches say.
-/

namespace Anraft

open IteratorRange Segment

namespace MemoryStorage

variable {ms : MemoryStorage} {c : UInt64} {S : ℕ → UInt64 → Prop}

inductive StorageCall where
  | append (ents : List LogEntry)
  | compact (compactIndex : UInt64)
deriving DecidableEq, Repr

/-- A call that reads outside the vector has no next state. -/
abbrev storageMachine : Machine MemoryStorage StorageCall where
  step ms
    | .append ents => (ms.append ents).map Prod.snd
    | .compact compactIndex => (ms.compact compactIndex).map Prod.snd

/-- The batches a log is written in: consecutive indexes that are not negative. -/
def StorageCall.IsNumbered : StorageCall → Prop
  | .append (first :: rest) =>
    Consecutive first.uindex (first :: rest) ∧ first.uindex.toNat + rest.length < 2 ^ 63
  | _ => True

/-- A batch lies below the first index, leaves a gap, or reaches the last index; a compaction is
not at one of the two indexes behind the last one. -/
def StaysInside (ms : MemoryStorage) : StorageCall → Prop
  | .append [] => True
  | .append (first :: rest) =>
    first.uindex.toNat + rest.length ≤ ms.firstIndex.1.toNat ∨
      ms.lastIndex.1.toNat + 1 < first.uindex.toNat ∨
      ms.lastIndex.1.toNat ≤ first.uindex.toNat + rest.length
  | .compact compactIndex =>
    compactIndex.toNat ≠ ms.lastIndex.1.toNat + 1 ∧ compactIndex.toNat ≠ ms.lastIndex.1.toNat + 2

instance (ms : MemoryStorage) : DecidablePred ms.StaysInside
  | .append [] => inferInstanceAs (Decidable True)
  | .append (_ :: _) => inferInstanceAs (Decidable (_ ∨ _ ∨ _))
  | .compact _ => inferInstanceAs (Decidable (_ ∧ _))

/-- A batch of the run says that index `i` has term `t`. -/
def Stores (calls : List StorageCall) (i : ℕ) (t : UInt64) : Prop :=
  ∃ ents, .append ents ∈ calls ∧ ∃ e ∈ ents, e.uindex.toNat = i ∧ e.uterm = t

/-! ## The ledger of a storage -/

/-- The terms that are told, that of the dummy included. -/
def ledger (ms : MemoryStorage) : Ledger UInt64 where
  base := ms.dummy.uindex.toNat
  values := ms.entries_.map (·.uterm)

theorem Indexed.ledger_next (h : ms.Indexed) : ms.ledger.next = ms.lastIndex.1.toNat + 1 := by
  rw [h.wellFormed.lastIndex_add_one, Ledger.next, ledger, List.length_map]

theorem Indexed.ledger_base (h : ms.Indexed) : ms.ledger.base + 1 = ms.firstIndex.1.toNat :=
  h.wellFormed.toNat_firstIndex.symm

theorem Indexed.term_eq_errNone_iff (h : ms.Indexed) {i t : UInt64} :
    ms.term i = some (t, .errNone) ↔ ms.ledger.told i.toNat = some t := by
  have hlength : ∀ e, ms.entries_[i.toNat - ms.dummy.uindex.toNat]? = some e →
      i.toNat - ms.dummy.uindex.toNat < ms.entries_.length :=
    fun e he => (List.getElem?_eq_some_iff.mp he).1
  rw [h.wellFormed.term_eq]
  unfold Ledger.told ledger
  dsimp only
  rcases lt_or_ge i.toNat ms.dummy.uindex.toNat with hlo | hlo
  · rw [if_pos hlo, if_neg hlo.not_ge]
    exact iff_of_false nofun nofun
  rw [if_neg hlo.not_gt, if_pos hlo, List.getElem?_map]
  rcases hget : ms.entries_[i.toNat - ms.dummy.uindex.toNat]? with _ | e
  · split
    · exact iff_of_false nofun nofun
    · exact iff_of_false nofun nofun
  · rw [if_neg]
    · simp
    · have := hlength e hget
      omega

theorem Indexed.term_eq_errCompacted (h : ms.Indexed) {i : UInt64}
    (hi : i.toNat < ms.ledger.base) : ms.term i = some (0, .errCompacted) := by
  have hlo : i.toNat < ms.dummy.uindex.toNat := hi
  rw [h.wellFormed.term_eq, if_pos hlo]

/-! ## One call -/

theorem extend_ledger (moved : List LogEntry) :
    (ms.extend moved).ledger = ms.ledger.write (moved.map (·.uterm)) := by
  have hdummy : (ms.extend moved).dummy = ms.dummy := by
    simp only [dummy, entries_extend, List.head_cons]
  unfold ledger Ledger.write
  rw [hdummy]
  simp only [extend, List.map_append]

/-- Compaction drops the terms before the new dummy, which keeps its own. -/
theorem compactTo_ledger (h : ms.Indexed) {k : ℕ} {e : LogEntry} (he : ms.entries_[k]? = some e) :
    (ms.compactTo k e).ledger = ms.ledger.cut k := by
  have hvalues : (ms.compactTo k e).entries_.map (·.uterm) =
      (ms.entries_.map (·.uterm)).drop k := by
    apply List.ext_getElem?
    intro j
    have hmap := congrArg (Option.map fun p => (p.2 : Int64).toUInt64) (compactTo_getElem? he j)
    rw [Option.map_map, Option.map_map] at hmap
    rw [List.getElem?_map, List.getElem?_drop, List.getElem?_map]
    exact hmap
  have hbase : (ms.compactTo k e).dummy.uindex.toNat = ms.dummy.uindex.toNat + k := by
    change e.uindex.toNat = _
    exact h.toNat_uindex he
  unfold ledger Ledger.cut
  rw [hvalues, hbase]

/-- What is new of a batch that reaches the last index goes behind it. -/
theorem Indexed.extend (h : ms.Indexed) {first : LogEntry} {rest : List LogEntry}
    (hb : Consecutive first.uindex (first :: rest))
    (hbound : first.uindex.toNat + rest.length < 2 ^ 63)
    (hgap : first.uindex.toNat ≤ ms.lastIndex.1.toNat + 1)
    (hreach : ms.lastIndex.1.toNat ≤ first.uindex.toNat + rest.length) :
    (ms.extend ((first :: rest).drop (ms.lastIndex.1.toNat + 1 - first.uindex.toNat))).Indexed := by
  have hnext := h.wellFormed.lastIndex_add_one
  have hdummy : ∀ moved, (ms.extend moved).dummy = ms.dummy := by
    intro moved
    simp only [dummy, entries_extend, List.head_cons]
  have hmoved := (consecutive_iff_numbered.mp hb).drop (ms.lastIndex.1.toNat + 1 - first.uindex.toNat)
  rw [Nat.add_sub_cancel' hgap] at hmoved
  have hlength : (ms.extend ((first :: rest).drop
      (ms.lastIndex.1.toNat + 1 - first.uindex.toNat))).entries_.length =
      ms.entries_.length + (rest.length + 1 - (ms.lastIndex.1.toNat + 1 - first.uindex.toNat)) := by
    rw [MemoryStorage.extend, List.length_append, List.length_drop, List.length_cons]
  have hend : ms.dummy.uindex.toNat + (ms.extend ((first :: rest).drop
      (ms.lastIndex.1.toNat + 1 - first.uindex.toNat))).entries_.length ≤ 2 ^ 63 := by
    rw [hlength]
    omega
  refine WellFormed.indexed ⟨?_, ?_⟩ ?_
  · rw [consecutive_iff_numbered, hdummy]
    refine (consecutive_iff_numbered.mp h.wellFormed.consecutive).append ?_
    rw [← hnext]
    exact hmoved
  · rw [hdummy]
    exact hend.trans_lt (by decide)
  · rw [hdummy]
    exact hend

/-- The call leaves a storage that goes on from the one before. -/
def GoesOn (S : ℕ → UInt64 → Prop) (ms ms' : MemoryStorage) : Prop :=
  Ledger.Continues S ms.ledger ms'.ledger

theorem append_goesOn (h : ms.Indexed) {ents : List LogEntry}
    (hnumbered : (StorageCall.append ents).IsNumbered) (hinside : ms.StaysInside (.append ents))
    (hS : ∀ e ∈ ents, S e.uindex.toNat e.uterm) :
    ∃ ms', storageMachine.step ms (.append ents) = some ms' ∧ ms'.Indexed ∧ GoesOn S ms ms' := by
  cases ents with
  | nil => exact ⟨ms, rfl, h, .refl _⟩
  | cons first rest =>
      obtain ⟨hb, hbound⟩ := hnumbered
      have happend := append_eq h.wellFormed hb
      by_cases hbelow : first.uindex.toNat + rest.length ≤ ms.firstIndex.1.toNat
      · rw [if_pos hbelow] at happend
        exact ⟨ms, congrArg (Option.map Prod.snd) happend, h, .refl _⟩
      by_cases hgap : ms.lastIndex.1.toNat + 1 < first.uindex.toNat
      · rw [if_neg hbelow, if_pos hgap] at happend
        exact ⟨ms, congrArg (Option.map Prod.snd) happend, h, .refl _⟩
      have hreach := (hinside.resolve_left hbelow).resolve_left hgap
      rw [if_neg hbelow, if_neg hgap, if_pos hreach] at happend
      refine ⟨_, congrArg (Option.map Prod.snd) happend, h.extend hb hbound (not_lt.mp hgap) hreach, ?_⟩
      unfold GoesOn
      rw [extend_ledger]
      apply Ledger.write_continues
      intro k t ht
      rw [List.getElem?_map, Option.map_eq_some_iff] at ht
      obtain ⟨e, he, rfl⟩ := ht
      rw [List.getElem?_drop] at he
      have hindex : e.uindex.toNat = ms.ledger.next + k := by
        rw [hb _ e he, h.ledger_next]
        omega
      exact hindex ▸ hS e (List.mem_of_getElem? he)

theorem compact_goesOn (h : ms.Indexed) (hinside : ms.StaysInside (.compact c)) :
    ∃ ms', storageMachine.step ms (.compact c) = some ms' ∧ ms'.Indexed ∧ GoesOn S ms ms' := by
  have hcompact := compact_eq h c
  by_cases hlo : c.toNat ≤ ms.dummy.uindex.toNat
  · rw [if_pos hlo] at hcompact
    exact ⟨ms, congrArg (Option.map Prod.snd) hcompact, h, .refl _⟩
  by_cases hhi : ms.lastIndex.1.toNat + 2 < c.toNat
  · rw [if_neg hlo, if_pos hhi] at hcompact
    exact ⟨ms, congrArg (Option.map Prod.snd) hcompact, h, .refl _⟩
  have hle : c.toNat ≤ ms.lastIndex.1.toNat := by
    have := hinside.1
    have := hinside.2
    omega
  obtain ⟨e, he, hcompact⟩ := compact_of_inside h (not_le.mp hlo) hle
  refine ⟨_, congrArg (Option.map Prod.snd) hcompact, h.compactTo he, ?_⟩
  unfold GoesOn
  rw [compactTo_ledger h he]
  apply Ledger.cut_continues
  rw [ledger, List.length_map]
  exact (List.getElem?_eq_some_iff.mp he).1.le

/-! ## Runs -/

/-- **What storage tells is final.** A run of appends and compactions that stays inside its
vector is defined; its bounds only go up; a term that was told is told again, or its index has
been compacted; and every term that is told has been told before, or stands in a batch of the
run. -/
theorem term_is_final (h : ms.Indexed) {calls : List StorageCall}
    (hnumbered : ∀ call ∈ calls, call.IsNumbered) (hinside : storageMachine.Along StaysInside ms calls) :
    ∃ ms', storageMachine.run ms calls = some ms' ∧ ms'.Indexed ∧
      ms.firstIndex.1 ≤ ms'.firstIndex.1 ∧ ms.lastIndex.1 ≤ ms'.lastIndex.1 ∧
      (∀ i t, ms.term i = some (t, .errNone) →
        ms'.term i = some (t, .errNone) ∨ ms'.term i = some (0, .errCompacted)) ∧
      ∀ i t, ms'.term i = some (t, .errNone) →
        ms.term i = some (t, .errNone) ∨ Stores calls i.toNat t := by
  have hgoes : ∃ ms', storageMachine.run ms calls = some ms' ∧ ms'.Indexed ∧
      GoesOn (Stores calls) ms ms' := by
    refine Machine.exists_run_related (I := Indexed)
      (C := fun ms call => StaysInside ms call ∧ call ∈ calls)
      (fun _ => Ledger.Continues.refl _) Ledger.Continues.trans ?_
      (hinside.and (Machine.along_of_forall ms fun call hcall => hcall)) h
    rintro ms call hms ⟨hin, hcall⟩
    cases call with
    | append ents =>
        apply append_goesOn hms (hnumbered _ hcall) hin
        intro e he
        exact ⟨ents, hcall, e, he, rfl, rfl⟩
    | compact c => exact compact_goesOn hms hin
  obtain ⟨ms', hrun, hindexed, hgoes⟩ := hgoes
  refine ⟨ms', hrun, hindexed, ?_, ?_, fun i t ht => ?_, fun i t ht => ?_⟩
  · rw [UInt64.le_iff_toNat_le, ← h.ledger_base, ← hindexed.ledger_base]
    exact Nat.succ_le_succ hgoes.base
  · have hnext := hgoes.next
    rw [h.ledger_next, hindexed.ledger_next] at hnext
    exact UInt64.le_iff_toNat_le.mpr (Nat.le_of_succ_le_succ hnext)
  · rcases hgoes.told_or_cut (h.term_eq_errNone_iff.mp ht) with htold | hcut
    · exact .inl (hindexed.term_eq_errNone_iff.mpr htold)
    · exact .inr (hindexed.term_eq_errCompacted hcut)
  · rcases hgoes.source _ _ (hindexed.term_eq_errNone_iff.mp ht) with hold | hnew
    · exact .inl (h.term_eq_errNone_iff.mpr hold)
    · exact .inr hnew

/-- A batch that has another term for the second of two entries. -/
def rewrittenSecond : List StorageCall :=
  [.append [{ index := 2, term := 7 }, { index := 3, term := 7 }]]

/-- The second term is not replaced. -/
theorem term_is_final_rewritten :
    ∃ ms ms' : MemoryStorage, ms.term 2 = some (1, .errNone) ∧
      storageMachine.run ms rewrittenSecond = some ms' ∧
      ∀ t, ms'.term 2 = some (t, .errNone) → t = 1 := by
  let two : MemoryStorage :=
    newMemoryStorage.extend [{ index := 1, term := 1 }, { index := 2, term := 1 }]
  have hindexed : two.Indexed :=
    (newMemoryStorage_wellFormed.indexed (by decide)).extend
      (Numbered.append (consecutive_singleton { index := 1, term := 1 })
        (consecutive_singleton { index := 2, term := 1 })) (by decide) (by decide) (by decide)
  have hnumbered : ∀ call ∈ rewrittenSecond, call.IsNumbered := by
    intro call hcall
    obtain rfl := List.mem_singleton.mp hcall
    exact ⟨Numbered.append (consecutive_singleton { index := 2, term := 7 })
      (consecutive_singleton { index := 3, term := 7 }), by decide⟩
  have hinside : storageMachine.Along StaysInside two rewrittenSecond :=
    ⟨by decide, fun _ _ => trivial⟩
  obtain ⟨ms', hrun, -, -, -, hkept, -⟩ := term_is_final hindexed hnumbered hinside
  refine ⟨two, ms', by decide, hrun, fun t ht => ?_⟩
  rcases hkept 2 1 (by decide) with htold | hcut
  · rw [htold] at ht
    cases ht
    rfl
  · rw [hcut] at ht
    cases ht

end MemoryStorage

end Anraft
