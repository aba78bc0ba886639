import Anraft.Base.Word

/-!
# Progress of a follower

What the leader knows about one follower: the highest index known to be
replicated on it (`match_`) and the next index to send (`next`).
-/

namespace Anraft

inductive ProgressStateType where
  | progressStateProbe
  | progressStateReplicate
  | progressStateSnapshot
deriving DecidableEq, Repr

/-- The defaults are those of a value-initialised map element. -/
structure Progress where
  match_ : UInt64 := 0
  next : UInt64 := 0
  state : ProgressStateType := .progressStateProbe
  paused : Bool := false
deriving DecidableEq, Repr, Inhabited

namespace Progress

def isPaused (p : Progress) : Bool :=
  match p.state with
  | .progressStateProbe => p.paused
  | .progressStateReplicate => false
  | .progressStateSnapshot => true

def maybeUpdate (p : Progress) (n : UInt64) : Bool × Progress :=
  let isUpdate := decide (p.match_ < n)
  let p := if p.match_ < n then { p with match_ := n, paused := false } else p
  let p := if p.next < n + 1 then { p with next := n + 1 } else p
  (isUpdate, p)

@[simp] theorem maybeUpdate_match (p : Progress) (n : UInt64) :
    (p.maybeUpdate n).2.match_ = max p.match_ n := by
  unfold maybeUpdate
  by_cases hm : p.match_ < n
  · simp only [if_pos hm, max_eq_right hm.le]
    split <;> rfl
  · simp only [if_neg hm, max_eq_left (not_lt.mp hm)]
    split <;> rfl

@[simp] theorem maybeUpdate_next (p : Progress) (n : UInt64) :
    (p.maybeUpdate n).2.next = max p.next (n + 1) := by
  unfold maybeUpdate
  have hnext : (if p.match_ < n then { p with match_ := n, paused := false } else p).next =
      p.next := by
    split <;> rfl
  by_cases hn : p.next < n + 1
  · simp only [hnext, if_pos hn, max_eq_right hn.le]
  · simp only [hnext, if_neg hn, max_eq_left (not_lt.mp hn)]

/-- The progress after `MaybeUpdate(n)`. -/
def updated (p : Progress) (n : UInt64) : Progress := (p.maybeUpdate n).2

@[simp] theorem updated_match (p : Progress) (n : UInt64) :
    (p.updated n).match_ = max p.match_ n := p.maybeUpdate_match n

@[simp] theorem updated_next (p : Progress) (n : UInt64) :
    (p.updated n).next = max p.next (n + 1) := p.maybeUpdate_next n

theorem foldl_updated_match (p : Progress) (ns : List UInt64) :
    (ns.foldl updated p).match_ = ns.foldl max p.match_ := by
  induction ns generalizing p with
  | nil => rfl
  | cons n ns ih => rw [List.foldl_cons, ih, updated_match, List.foldl_cons]

theorem foldl_updated_next (p : Progress) (ns : List UInt64) :
    (ns.foldl updated p).next = (ns.map (· + 1)).foldl max p.next := by
  induction ns generalizing p with
  | nil => rfl
  | cons n ns ih => rw [List.foldl_cons, ih, updated_next, List.map_cons, List.foldl_cons]

end Progress

end Anraft
