import Anraft.Election.VoteSafety
import Anraft.Log.Slices

/-!
# Which logs are up to date

A log is judged by its last entry: the term first, the index among equal terms.
`IsUpToDate` makes both comparisons strict, so a log accepts exactly what is ahead
of it in this order. An equal log is not ahead, and two nodes with equal logs refuse
each other.
-/

namespace Anraft

namespace RaftLog

variable {w : Unwritten} {a b c l : RaftLog} {p : UInt64 ×ₗ UInt64}

/-- The log takes a log that ends in `p` for up to date. -/
def Accepts (w : Unwritten) (l : RaftLog) (p : UInt64 ×ₗ UInt64) : Prop :=
  l.isUpToDate w (ofLex p).2 (ofLex p).1 = true

instance (w : Unwritten) (l : RaftLog) (p : UInt64 ×ₗ UInt64) : Decidable (l.Accepts w p) :=
  inferInstanceAs (Decidable (_ = _))

/-- The comparison orders logs: a log accepts what is at least as far as itself. So
it accepts itself, one of two logs accepts the other, and acceptance is
transitive. -/
structure OrdersLogs (w : Unwritten) (a b c : RaftLog) : Prop where
  refl : a.Accepts w a.lastPosition
  total : a.Accepts w b.lastPosition ∨ b.Accepts w a.lastPosition
  trans : a.Accepts w b.lastPosition → b.Accepts w c.lastPosition → a.Accepts w c.lastPosition
  accepts_iff : ∀ p, a.Accepts w p ↔ a.lastPosition ≤ p

/-- **What a log accepts**: exactly what is ahead of it. -/
theorem accepts_iff_lt (hw : w.LastTermIsStored) : l.Accepts w p ↔ l.lastPosition < p := by
  have hterm : (l.storedTerm l.lastIndex = (ofLex p).1 ∧ l.lastIndex < (ofLex p).2) ↔
      ((ofLex p).1 = l.storedTerm l.lastIndex ∧ (ofLex p).2 > l.lastIndex) :=
    and_congr_left' eq_comm
  rw [Prod.Lex.lt_iff, lastPosition, ofLex_toLex, hterm]
  simp [Accepts, isUpToDate, hw l]

theorem accepts_iff_le_iff (hw : w.LastTermIsStored) :
    (l.Accepts w p ↔ l.lastPosition ≤ p) ↔ p ≠ l.lastPosition := by
  rw [accepts_iff_lt hw]
  constructor
  · rintro h rfl
    exact lt_irrefl _ (h.mpr le_rfl)
  · intro hne
    exact ⟨le_of_lt, fun hle => lt_of_le_of_ne hle hne.symm⟩

theorem accepts_or_accepts_iff (hw : w.LastTermIsStored) :
    (a.Accepts w b.lastPosition ∨ b.Accepts w a.lastPosition) ↔
      a.lastPosition ≠ b.lastPosition := by
  rw [accepts_iff_lt hw, accepts_iff_lt hw]
  exact ne_iff_lt_or_gt.symm

/-- **How the comparison orders logs.** A log judges every position but its own as the
order of logs does. One of two logs accepts the other unless they end in the same
place, acceptance is transitive, and no log accepts itself. -/
theorem isUpToDate_orders_iff (w : Unwritten) (a b c : RaftLog) (hw : w.LastTermIsStored) :
    (∀ p, (a.Accepts w p ↔ a.lastPosition ≤ p) ↔ p ≠ a.lastPosition) ∧
      ((a.Accepts w b.lastPosition ∨ b.Accepts w a.lastPosition) ↔
        a.lastPosition ≠ b.lastPosition) ∧
      (a.Accepts w b.lastPosition → b.Accepts w c.lastPosition → a.Accepts w c.lastPosition) ∧
      ¬ a.Accepts w a.lastPosition := by
  refine ⟨fun p => accepts_iff_le_iff hw, accepts_or_accepts_iff hw, ?_, ?_⟩
  · intro hab hbc
    rw [accepts_iff_lt hw] at hab hbc ⊢
    exact hab.trans hbc
  · rw [accepts_iff_lt hw]
    exact lt_irrefl _

/-- An empty log, and one that ends with entry 5 of term 2. -/
theorem isUpToDate_orders_iff_overlapping :
    (blank.Accepts .filledIn overlapping.lastPosition ↔
        blank.lastPosition ≤ overlapping.lastPosition) ∧
      (blank.Accepts .filledIn overlapping.lastPosition ∨
        overlapping.Accepts .filledIn blank.lastPosition) := by
  obtain ⟨hexact, htotal, -, -⟩ :=
    isUpToDate_orders_iff .filledIn blank overlapping blank filledIn_lastTermIsStored
  exact ⟨(hexact overlapping.lastPosition).mpr (by decide), htotal.mpr (by decide)⟩

/-- Two empty logs. -/
theorem isUpToDate_orders_fails :
    ¬ ∀ (w : Unwritten) (a b c : RaftLog), w.LastTermIsStored → OrdersLogs w a b c := by
  intro h
  have hself : blank.Accepts .filledIn blank.lastPosition :=
    (h .filledIn blank blank blank filledIn_lastTermIsStored).refl
  revert hself
  decide

end RaftLog

end Anraft
