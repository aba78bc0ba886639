import Anraft.Log.Slices

/-!
# The first conflicting entry

`FindConflict` returns the index of the first entry that `MatchTerm` refuses, and
`MatchTerm` takes an entry of term zero beyond the log for one the log holds. Up to
such an entry the answer is right.
-/

namespace Anraft

open Segment

namespace RaftLog

variable {w : Unwritten} {l : RaftLog} {ents pre post : List LogEntry} {e : LogEntry}
  {first : UInt64}

/-- The entry is in the log with the same term. -/
abbrev HoldsEntry (l : RaftLog) (e : LogEntry) : Prop := l.Holds e.uindex e.uterm

/-- `e` is the first entry of the batch that is not in the log. -/
structure FirstMissing (l : RaftLog) (ents pre : List LogEntry) (e : LogEntry)
    (post : List LogEntry) : Prop where
  split : ents = pre ++ e :: post
  held : ∀ x ∈ pre, l.HoldsEntry x
  missing : ¬ l.HoldsEntry e

/-- What `FindConflict` promises. -/
structure FindsConflict (w : Unwritten) (l : RaftLog) (ents : List LogEntry) : Prop where
  zero_iff : l.findConflict w ents = 0 ↔ ∀ e ∈ ents, l.HoldsEntry e
  /-- The first entry that is not in the log is beyond it or has a different term in it,
  and its index is the answer. -/
  first : ∀ pre e post, l.FirstMissing ents pre e post →
    l.findConflict w ents = e.uindex ∧
      (l.lastIndex < e.uindex ∨ (l.InRange e.uindex ∧ l.storedTerm e.uindex ≠ e.uterm))
  before : ∀ e ∈ ents, e.uindex < l.findConflict w ents → l.HoldsEntry e

/-- The first entry that is not in the log has an index other than zero, and conflicts
with an entry of the log or lies beyond the log with a term other than zero. -/
def MissingIsVisible (l : RaftLog) (ents : List LogEntry) : Prop :=
  ∀ pre e post, l.FirstMissing ents pre e post →
    e.uindex ≠ 0 ∧ (l.InRange e.uindex ∨ (l.lastIndex < e.uindex ∧ e.uterm ≠ 0))

/-! ## The scan -/

theorem findConflict_append (h : ∀ x ∈ pre, l.matchTerm w x.uindex x.uterm = true)
    (post : List LogEntry) : l.findConflict w (pre ++ post) = l.findConflict w post := by
  induction pre with
  | nil => rfl
  | cons x pre ih =>
      rw [List.cons_append, findConflict, if_pos (h x List.mem_cons_self)]
      exact ih fun y hy => h y (List.mem_cons_of_mem _ hy)

/-- The answer is zero or the index of an entry of the batch. -/
theorem findConflict_cases (w : Unwritten) (l : RaftLog) (ents : List LogEntry) :
    l.findConflict w ents = 0 ∨ ∃ x ∈ ents, l.findConflict w ents = x.uindex := by
  induction ents with
  | nil => exact .inl rfl
  | cons x ents ih =>
      rw [findConflict]
      split
      · rcases ih with hzero | ⟨y, hy, hindex⟩
        · exact .inl hzero
        · exact .inr ⟨y, List.mem_cons_of_mem _ hy, hindex⟩
      · exact .inr ⟨x, List.mem_cons_self, rfl⟩

/-- The log holds the whole batch, or there is a first entry that it misses. -/
theorem holds_or_firstMissing (l : RaftLog) (ents : List LogEntry) :
    (∀ e ∈ ents, l.HoldsEntry e) ∨ ∃ pre e post, l.FirstMissing ents pre e post := by
  induction ents with
  | nil => exact .inl (by simp)
  | cons x ents ih =>
      by_cases hx : l.HoldsEntry x
      · rcases ih with hall | ⟨pre, e, post, hmissing⟩
        · exact .inl (List.forall_mem_cons.mpr ⟨hx, hall⟩)
        · refine .inr ⟨x :: pre, e, post, ?_, ?_, hmissing.missing⟩
          · rw [hmissing.split, List.cons_append]
          · exact List.forall_mem_cons.mpr ⟨hx, hmissing.held⟩
      · exact .inr ⟨[], x, ents, rfl, by simp, hx⟩

theorem HoldsEntry.matchTerm (hw : w.TermIsStored) (h : l.HoldsEntry e) :
    l.matchTerm w e.uindex e.uterm = true :=
  (matchTerm_iff hw).mpr (.inl h)

theorem findConflict_of_holds (hw : w.TermIsStored) (h : ∀ e ∈ ents, l.HoldsEntry e) :
    l.findConflict w ents = 0 := by
  have hscan := findConflict_append (w := w) (fun x hx => (h x hx).matchTerm hw) []
  rwa [List.append_nil] at hscan

namespace FirstMissing

theorem mem (h : l.FirstMissing ents pre e post) : e ∈ ents := by
  rw [h.split]
  exact List.mem_append_right _ List.mem_cons_self

/-- The scan reaches the first missing entry. -/
theorem findConflict_eq (h : l.FirstMissing ents pre e post) (hw : w.TermIsStored) :
    l.findConflict w ents = l.findConflict w (e :: post) := by
  rw [h.split]
  exact findConflict_append (fun x hx => (h.held x hx).matchTerm hw) _

/-- It is overlooked when it has term zero outside the range of `Term`. -/
theorem matchTerm_iff (h : l.FirstMissing ents pre e post) (hw : w.TermIsStored) :
    l.matchTerm w e.uindex e.uterm = true ↔ ¬ l.InRange e.uindex ∧ e.uterm = 0 := by
  rw [RaftLog.matchTerm_iff hw]
  exact or_iff_right h.missing

/-- An entry in the range of `Term` conflicts. -/
theorem storedTerm_ne (h : l.FirstMissing ents pre e post) (hrange : l.InRange e.uindex) :
    l.storedTerm e.uindex ≠ e.uterm := fun hterm => h.missing ⟨hrange, hterm⟩

/-- If it is overlooked, another index is returned. -/
theorem findConflict_ne (h : l.FirstMissing ents pre e post) (hw : w.TermIsStored)
    (hents : Consecutive first ents) (hmatch : l.matchTerm w e.uindex e.uterm = true)
    (hindex : e.uindex ≠ 0) : l.findConflict w ents ≠ e.uindex := by
  rw [h.findConflict_eq hw, findConflict, if_pos hmatch]
  rcases findConflict_cases w l post with hzero | ⟨x, hx, hpost⟩
  · rw [hzero]
    exact hindex.symm
  · rw [hpost]
    have hnumbered := consecutive_iff_numbered.mp hents
    rw [h.split] at hnumbered
    have hlt := hnumbered.lt_of_append_cons hx
    exact fun heq => absurd (congrArg UInt64.toNat heq) hlt.ne'

/-- The entries of lower indexes come before it. -/
theorem mem_of_lt (h : l.FirstMissing ents pre e post) (hents : Consecutive first ents)
    {x : LogEntry} (hx : x ∈ ents) (hlt : x.uindex < e.uindex) : x ∈ pre := by
  rw [h.split, List.mem_append, List.mem_cons] at hx
  rcases hx with hx | rfl | hx
  · exact hx
  · exact absurd hlt (lt_irrefl _)
  · have hnumbered := consecutive_iff_numbered.mp hents
    rw [h.split] at hnumbered
    have hafter := hnumbered.lt_of_append_cons hx
    exact absurd (UInt64.lt_iff_toNat_lt.mp hlt) hafter.not_gt

end FirstMissing

/-! ## The exact condition -/

theorem FindsConflict.missingIsVisible (hw : w.TermIsStored) (hents : Consecutive first ents)
    (h : FindsConflict w l ents) : l.MissingIsVisible ents := by
  intro pre e post hmissing
  obtain ⟨hconflict, hwhere⟩ := h.first pre e post hmissing
  have hindex : e.uindex ≠ 0 := by
    intro hzero
    rw [hzero] at hconflict
    exact hmissing.missing (h.zero_iff.mp hconflict e hmissing.mem)
  refine ⟨hindex, ?_⟩
  rcases hwhere with hbeyond | ⟨hrange, -⟩
  · right
    refine ⟨hbeyond, fun hterm => ?_⟩
    have hout : ¬ l.InRange e.uindex := fun hrange => hrange.2.not_gt hbeyond
    exact hmissing.findConflict_ne hw hents ((hmissing.matchTerm_iff hw).mpr ⟨hout, hterm⟩)
      hindex hconflict
  · exact .inl hrange

theorem MissingIsVisible.findsConflict (hw : w.TermIsStored) (hents : Consecutive first ents)
    (h : l.MissingIsVisible ents) : FindsConflict w l ents := by
  have hfirst : ∀ pre e post, l.FirstMissing ents pre e post →
      l.findConflict w ents = e.uindex := by
    intro pre e post hmissing
    rw [hmissing.findConflict_eq hw, findConflict, if_neg]
    rw [hmissing.matchTerm_iff hw]
    rintro ⟨hout, hterm⟩
    rcases (h pre e post hmissing).2 with hrange | ⟨-, hne⟩
    · exact hout hrange
    · exact hne hterm
  refine ⟨⟨?_, findConflict_of_holds hw⟩, ?_, ?_⟩
  · intro hzero
    rcases holds_or_firstMissing l ents with hall | ⟨pre, e, post, hmissing⟩
    · exact hall
    · rw [hfirst pre e post hmissing] at hzero
      exact absurd hzero (h pre e post hmissing).1
  · intro pre e post hmissing
    refine ⟨hfirst pre e post hmissing, ?_⟩
    rcases (h pre e post hmissing).2 with hrange | ⟨hbeyond, -⟩
    · exact .inr ⟨hrange, hmissing.storedTerm_ne hrange⟩
    · exact .inl hbeyond
  · intro x hx hlt
    rcases holds_or_firstMissing l ents with hall | ⟨pre, e, post, hmissing⟩
    · exact hall x hx
    · rw [hfirst pre e post hmissing] at hlt
      exact hmissing.held x (hmissing.mem_of_lt hents hx hlt)

/-- **The exact condition.** The answer is right for a batch exactly when the first
entry that is not in the log can be seen to be missing. -/
theorem findsConflict_iff (hw : w.TermIsStored) (hents : Consecutive first ents) :
    FindsConflict w l ents ↔ l.MissingIsVisible ents :=
  ⟨FindsConflict.missingIsVisible hw hents, MissingIsVisible.findsConflict hw hents⟩

theorem findsConflict_overlapping :
    FindsConflict .filledIn overlapping [{ index := 5, term := 2 }, { index := 6, term := 3 }] := by
  refine (findsConflict_iff filledIn_termIsStored
    (Numbered.append (consecutive_singleton { index := 5, term := 2 })
      (consecutive_singleton { index := 6, term := 3 }))).mpr ?_
  intro pre e post hmissing
  rcases List.mem_pair.mp hmissing.mem with rfl | rfl
  · exact absurd (by decide) hmissing.missing
  · exact ⟨by decide, .inr ⟨by decide, by decide⟩⟩

/-- Two new entries of term zero are taken for entries of the log. -/
theorem not_findsConflict_zero_term :
    ¬ ∀ (w : Unwritten) (l : RaftLog) (first : UInt64) (ents : List LogEntry), w.TermIsStored →
      l.firstIndex ≤ first → first.toNat ≤ l.lastIndex.toNat + 1 → Consecutive first ents →
        FindsConflict w l ents := by
  intro h
  have hconflict := h .filledIn overlapping 6 [{ index := 6 }, { index := 7 }]
    filledIn_termIsStored (by decide) (by decide)
    (Numbered.append (consecutive_singleton { index := 6 }) (consecutive_singleton { index := 7 }))
  have hall := hconflict.zero_iff.mp (by decide)
  exact absurd (hall _ List.mem_cons_self) (by decide)

/-- In a log that starts at index one or later, a batch that starts in it or right after it
has a hidden entry only beyond the log, of term zero. -/
theorem missingIsVisible_iff (hl : 0 < l.firstIndex) (hfirst : l.firstIndex ≤ first)
    (hents : Consecutive first ents) :
    l.MissingIsVisible ents ↔
      ∀ pre e post, l.FirstMissing ents pre e post → l.lastIndex < e.uindex → e.uterm ≠ 0 := by
  have hpast : ∀ e ∈ ents, l.firstIndex ≤ e.uindex := by
    intro e he
    have hge := ((consecutive_iff_numbered.mp hents).getElem?_of_mem he).1
    exact hfirst.trans (UInt64.le_iff_toNat_le.mpr hge)
  constructor
  · intro h pre e post hmissing hbeyond
    rcases (h pre e post hmissing).2 with hrange | ⟨-, hterm⟩
    · exact absurd hbeyond hrange.2.not_gt
    · exact hterm
  · intro h pre e post hmissing
    have hge := hpast e hmissing.mem
    refine ⟨(hl.trans_le hge).ne', ?_⟩
    rcases lt_or_ge l.lastIndex e.uindex with hbeyond | hle
    · exact .inr ⟨hbeyond, h pre e post hmissing hbeyond⟩
    · have hone : 1 ≤ l.firstIndex := UInt64.le_iff_toNat_le.mpr (UInt64.lt_iff_toNat_lt.mp hl)
      have hdummy : l.firstIndex - 1 ≤ l.firstIndex := by
        rw [UInt64.le_iff_toNat_le, UInt64.toNat_sub_of_le _ _ hone]
        exact Nat.sub_le _ _
      exact .inl ⟨hdummy.trans hge, hle⟩

end RaftLog

end Anraft
