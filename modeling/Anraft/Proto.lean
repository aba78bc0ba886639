import Mathlib
import Anraft.Base.Segment

/-!
# Wire types

The messages and log entries of `raft.proto`. A `proto2` field that was never
set reads as its default, so a fresh `Message` is an unset one: its type is
`MsgHup`, the enumerator with value zero, and every number is zero.
-/

namespace Anraft

open Segment

inductive RaftError where
  | errNone
  | errCompacted
  | errSnapOutOfDate
  | errUnavailable
  | errSnapshotTemporarilyUnavailable
  | errProposalDropped
  | errParam
deriving DecidableEq, Repr

inductive EntryType where
  | entryNormal
  | entryConfChange
deriving DecidableEq, Repr

inductive MessageType where
  | msgHup
  | msgBeat
  | msgProp
  | msgApp
  | msgAppResp
  | msgVote
  | msgVoteResp
  | msgSnap
  | msgHeartbeat
  | msgHeartbeatResp
  | msgUnreachable
  | msgSnapStatus
  | msgCheckQuorum
  | msgTransferLeader
  | msgTimeoutNow
  | msgReadIndex
  | msgReadIndexResp
  | msgPreVote
  | msgPreVoteResp
deriving DecidableEq, Repr

abbrev Bytes : Type := List UInt8

/-- `term` and `index` are `int64` on the wire. The log code only ever reads
them through parameters and variables of type `uint64_t` (`uterm`, `uindex`). -/
structure LogEntry where
  term : Int64 := 0
  index : Int64 := 0
  data : Bytes := []
  type : EntryType := .entryNormal
deriving DecidableEq, Repr, Inhabited

/-- `x.term()` converted to `uint64_t`. -/
def LogEntry.uterm (e : LogEntry) : UInt64 := e.term.toUInt64

/-- `x.index()` converted to `uint64_t`. -/
def LogEntry.uindex (e : LogEntry) : UInt64 := e.index.toUInt64

structure Message where
  type : MessageType := .msgHup
  to_ : UInt64 := 0
  from_ : UInt64 := 0
  term : UInt64 := 0
  logTerm : UInt64 := 0
  index : UInt64 := 0
  entries : List LogEntry := []
  commit : UInt64 := 0
  reject : Bool := false
  rejectHint : UInt64 := 0
  context : Bytes := []
deriving DecidableEq, Repr, Inhabited

/-- `ents` carries the log positions `first`, `first + 1`, … without leaving
the range of `uint64_t`. -/
def Consecutive (first : UInt64) (ents : List LogEntry) : Prop :=
  ∀ (k : ℕ) (e : LogEntry), ents[k]? = some e → e.uindex.toNat = first.toNat + k

/-- Consecutive entries are a segment of the log, numbered by their indexes. -/
theorem consecutive_iff_numbered {first : UInt64} {ents : List LogEntry} :
    Consecutive first ents ↔ Numbered (fun e => e.uindex.toNat) first.toNat ents := Iff.rfl

/-- Entries that carry consecutive indexes end before the indexes do. -/
theorem Consecutive.add_length_le {first : UInt64} {ents : List LogEntry}
    (h : Consecutive first ents) : first.toNat + ents.length ≤ 2 ^ 64 := by
  have hfirst := first.toNat_lt
  rcases Nat.eq_zero_or_pos ents.length with hzero | hpos
  · omega
  · have hlast := h _ _ (List.getElem?_eq_getElem (Nat.sub_one_lt_of_lt hpos))
    have htop := (ents[ents.length - 1]).uindex.toNat_lt
    omega

theorem consecutive_singleton (e : LogEntry) : Consecutive e.uindex [e] := by
  intro k e' he
  rcases k with _ | k
  · rw [← Option.some.inj he, Nat.add_zero]
  · cases he

end Anraft
