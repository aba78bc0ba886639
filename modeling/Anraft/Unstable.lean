import Anraft.Proto
import Anraft.Base.IteratorRange

/-!
# The unstable tail of the log

`entries[i]` has raft log position `i + offset`. `offset` may be less than the
highest log position in storage: the next write to storage might need to
truncate the log before persisting `entries`.
-/

namespace Anraft

open IteratorRange

structure Unstable where
  entries : List LogEntry
  offset : UInt64
deriving DecidableEq, Repr

namespace Unstable

def setOffset (u : Unstable) (offset : UInt64) : Unstable := { u with offset := offset }

def maybeLastIndex (u : Unstable) : UInt64 × Bool :=
  if u.entries ≠ [] then (u.offset + size u.entries - 1, true) else (0, false)

/-- The snapshot case is not written, so there never is a first index. -/
def maybeFirstIndex (_u : Unstable) : UInt64 × Bool := (0, false)

def truncateAndAppend (u : Unstable) (ents : List LogEntry) : Option Unstable :=
  match ents with
  | [] => some u
  | first :: _ =>
    let after := first.uindex
    if after = u.offset + size u.entries then
      some { u with entries := u.entries ++ ents }
    else if after ≤ u.offset then
      some { offset := after, entries := ents }
    else
      -- `temp` takes the iterators `offset_` and `after` themselves, and is
      -- swapped in without the batch
      (range? u.entries u.offset.toNat after.toNat).map fun temp => { u with entries := temp }

/-- The copied range is inserted at the front of `out`. -/
def slice (u : Unstable) (lo hi : UInt64) (out : List LogEntry) : Option (List LogEntry) :=
  (range? u.entries ((lo.toNat : ℤ) - u.offset.toNat) ((hi.toNat : ℤ) - u.offset.toNat)).map
    (· ++ out)

end Unstable

end Anraft
