import Anraft.Base.Word
import Anraft.Storage
import Anraft.Unstable

/-!
# The raft log

`RaftLog` reads as one log what lies in two places: storage below the offset of
the unstable part, the unstable entries from there on.

Some bodies of `raft_log.cpp` are not written. What calling them yields is a
parameter, `RaftLog.Unwritten`; a result that needs one of them to do its job
says so in a hypothesis.
-/

namespace Anraft

open IteratorRange

structure RaftLog where
  storage : Storage
  unstable : Unstable
  committed : UInt64
  applied : UInt64

/-- The functions of the log without a body. -/
structure RaftLog.Unwritten where
  /-- `LastTerm()`. -/
  lastTerm : RaftLog → UInt64
  /-- `Term(index)` for an index between the dummy and the last one. -/
  termInRange : RaftLog → UInt64 → RaftError × UInt64
  /-- `Append(RepeatedPtrField&)`. -/
  appendRepeated : RaftLog → List LogEntry → UInt64 × RaftLog

namespace RaftLog

/-- Initialises the log from `storage` (`none` is the null pointer). The source
ends without a `return` on success, so then there is no value. -/
def newLog (l : RaftLog) (storage : Option Storage) : Option Bool × RaftLog :=
  match storage with
  | none => (some false, l)
  | some st =>
    let l := { l with storage := st }
    let fiRet := st.firstIndex
    if fiRet.2 ≠ .errNone then (some false, l)
    else
      let liRet := st.lastIndex
      if liRet.2 ≠ .errNone then (some false, l)
      else
        (none,
          { l with
            unstable := l.unstable.setOffset (liRet.1 + 1)
            committed := fiRet.1 - 1
            applied := fiRet.1 - 1 })

def lastIndex (l : RaftLog) : UInt64 :=
  let mliRet := l.unstable.maybeLastIndex
  if mliRet.2 then mliRet.1 else l.storage.lastIndex.1

def firstIndex (l : RaftLog) : UInt64 :=
  let mfiRet := l.unstable.maybeFirstIndex
  if mfiRet.2 then mfiRet.1 else l.storage.firstIndex.1

/-- `Append(const std::vector<LogEntry>&)`. -/
def append (l : RaftLog) (ents : List LogEntry) : Option (UInt64 × RaftLog) :=
  match ents with
  | [] => some (l.lastIndex, l)
  | _ :: _ =>
    -- `after < committed_` is compared here and nothing is done about it
    (l.unstable.truncateAndAppend ents).map fun u =>
      let l := { l with unstable := u }
      (l.lastIndex, l)

def setCommited (l : RaftLog) (commited : UInt64) : RaftLog := { l with committed := commited }

def isUpToDate (w : Unwritten) (l : RaftLog) (lastIndex term : UInt64) : Bool :=
  term > w.lastTerm l || (term == w.lastTerm l && lastIndex > l.lastIndex)

/-- The valid term range is from the index of the dummy entry to the last index;
outside of it the answer is term zero without an error. -/
def term (w : Unwritten) (l : RaftLog) (index : UInt64) : RaftError × UInt64 :=
  let dummyIndex := l.firstIndex - 1
  if index < dummyIndex ∨ index > l.lastIndex then (.errNone, 0)
  else w.termInRange l index

def mustCheckOutOfBounds (l : RaftLog) (lo hi : UInt64) : RaftError :=
  if lo > hi then .errParam
  else
    let fi := l.firstIndex
    if lo < fi then .errCompacted
    else
      let length := l.lastIndex + 1 - fi
      if lo < fi ∨ hi > fi + length then .errCompacted else .errNone

/-- Appends the log entries from `lo` through `hi - 1` to `out`. -/
def slice (l : RaftLog) (lo hi maxSize : UInt64) (out : List LogEntry) :
    Option (RaftError × List LogEntry) :=
  let ret := l.mustCheckOutOfBounds lo hi
  if ret ≠ .errNone then some (ret, out)
  else if lo = hi then some (.errNone, out)
  else do
    let (err, out) ←
      if lo < l.unstable.offset then
        (l.storage.entries lo (min hi l.unstable.offset) maxSize).map fun eRet =>
          (eRet.2, if eRet.2 = .errNone then out ++ eRet.1 else out)
      else some (.errNone, out)
    if err ≠ .errNone then some (err, out)
    else if hi > l.unstable.offset then
      (l.unstable.slice (max lo l.unstable.offset) hi []).map fun unstableEntries =>
        (.errNone, out ++ unstableEntries)
    else some (.errNone, out)

def entries (l : RaftLog) (index maxSize : UInt64) (out : List LogEntry) :
    Option (RaftError × List LogEntry) :=
  if index > l.lastIndex then some (.errNone, out)
  else l.slice index (l.lastIndex + 1) maxSize out

def allEntries (l : RaftLog) (out : List LogEntry) : Option (RaftError × List LogEntry) :=
  l.entries l.firstIndex 10000 out

def zeroTermOnErrCompacted (result : RaftError × UInt64) : UInt64 :=
  if result.1 = .errNone then result.2
  else if result.1 = .errCompacted then 0
  else 0

def commitTo (l : RaftLog) (tocommit : UInt64) : RaftLog :=
  -- never decrease commit; `LastIndex() < tocommit` is compared and ignored
  if l.committed < tocommit then { l with committed := tocommit } else l

def maybeCommit (w : Unwritten) (l : RaftLog) (index term : UInt64) : Bool × RaftLog :=
  if index > l.committed ∧ zeroTermOnErrCompacted (l.term w index) = term then
    (true, l.commitTo index)
  else (false, l)

def matchTerm (w : Unwritten) (l : RaftLog) (index term : UInt64) : Bool :=
  let termResult := l.term w index
  if termResult.1 ≠ .errNone then false else termResult.2 == term

/-- The index of the first entry of the batch the log does not match, zero when
it matches them all. -/
def findConflict (w : Unwritten) (l : RaftLog) : List LogEntry → UInt64
  | [] => 0
  | x :: rest =>
    if l.matchTerm w x.uindex x.uterm then l.findConflict w rest else x.uindex

/-- The cases of the source for the conflict index `ci` have no statements in
them, so no entry is appended. The index returned is the argument `committed`. -/
def maybeAppend (w : Unwritten) (l : RaftLog) (index term committed : UInt64)
    (ents : List LogEntry) : (UInt64 × Bool) × RaftLog :=
  if l.matchTerm w index term then
    let lastnewi := index + size ents
    let ci := l.findConflict w ents
    let l :=
      if ci ≤ l.committed then l  -- panic, not written
      else if ci ≠ 0 then l       -- `Append`, not written
      else l
    ((committed, true), l.commitTo (min committed lastnewi))
  else ((0, false), l)

end RaftLog

end Anraft
