import Anraft.RaftRun

/-!
# Replies to a `MsgApp`

`HandleAppendEntries` answers a stale message and then handles it like any
other, `MaybeAppend` stores nothing and returns the leader's commit index as the
last new index. The condition below collects what must already be true of the
log for the single reply to be truthful.
-/

namespace Anraft

/-- The positions a `MsgApp` speaks about, each with its term: the previous index
and the entries it carries. -/
def Message.covered (msg : Message) : List (UInt64 × UInt64) :=
  (msg.index, msg.term) :: msg.entries.map fun e => (e.uindex, e.uterm)

namespace Raft

variable {u : Unspecified} {r : Raft} {msg : Message}

/-! ## The replies -/

def staleReply (r : Raft) (msg : Message) : Message :=
  { to_ := msg.from_, from_ := r.id, type := .msgAppResp, index := r.raftlog.committed }

def acceptReply (r : Raft) (msg : Message) : Message :=
  { to_ := msg.from_, from_ := r.id, type := .msgAppResp, index := msg.commit }

def rejectReply (r : Raft) (msg : Message) : Message :=
  { to_ := msg.from_
    from_ := r.id
    type := .msgAppResp
    index := msg.index
    reject := true
    rejectHint := r.raftlog.lastIndex }

theorem handleAppendEntries_raftlog (u : Unspecified) (r : Raft) (msg : Message) :
    (r.handleAppendEntries u msg).raftlog =
      (r.raftlog.maybeAppend u.toUnwritten msg.index msg.term msg.commit msg.entries).2 := by
  obtain ⟨msgs, heq⟩ := handleAppendEntries_eq u r msg
  rw [heq]

/-- Every call queues the reply to the call of `MaybeAppend`, after one more
reply if the message is stale. -/
theorem handleAppendEntries_msgs (u : Unspecified) (r : Raft) (msg : Message) :
    (r.handleAppendEntries u msg).msgs =
      r.msgs ++ (if msg.index < r.raftlog.committed then [r.staleReply msg] else []) ++
        [if r.raftlog.matchTerm u.toUnwritten msg.index msg.term then r.acceptReply msg
          else r.rejectReply msg] := by
  have hlast := (RaftLog.maybeAppend_sameEntries (w := u.toUnwritten) (l := r.raftlog)
    msg.index msg.term msg.commit msg.entries).lastIndex
  have hret : (r.raftlog.maybeAppend u.toUnwritten msg.index msg.term msg.commit msg.entries).1 =
      if r.raftlog.matchTerm u.toUnwritten msg.index msg.term then (msg.commit, true)
      else (0, false) := by
    rw [RaftLog.maybeAppend_eq]
    exact apply_ite Prod.fst _ _ _
  unfold handleAppendEntries
  by_cases hstale : msg.index < r.raftlog.committed
  · by_cases hmatch : r.raftlog.matchTerm u.toUnwritten msg.index msg.term = true
    · simp [hstale, hret, hmatch, send, record, staleReply, acceptReply]
    · simp [hstale, hret, hmatch, send, record, staleReply, rejectReply, hlast]
  · by_cases hmatch : r.raftlog.matchTerm u.toUnwritten msg.index msg.term = true
    · simp [hstale, hret, hmatch, send, record, acceptReply]
    · simp [hstale, hret, hmatch, send, record, rejectReply, hlast]

/-! ## Truthful replies -/

/-- Exactly one reply goes to the sender.
* Without a rejection it carries an index up to which everything covered by the
  message is held after the call; or the message is stale, the index is committed
  and the log is unchanged.
* A message that is not stale and whose previous index the log does not hold is
  rejected with the last index as the hint, and the log is unchanged. -/
def RepliesTruthfully (u : Unspecified) (r : Raft) (msg : Message) : Prop :=
  ∃ resp, (r.handleAppendEntries u msg).msgs = r.msgs ++ [resp] ∧
    resp.type = .msgAppResp ∧ resp.to_ = msg.from_ ∧
    (resp.reject = false →
      (msg.index < r.raftlog.committed ∧
        resp.index ≤ (r.handleAppendEntries u msg).raftlog.committed ∧
        (r.handleAppendEntries u msg).raftlog = r.raftlog) ∨
      ∀ p ∈ msg.covered, p.1 ≤ resp.index →
        (r.handleAppendEntries u msg).raftlog.Holds p.1 p.2) ∧
    (r.raftlog.committed ≤ msg.index → ¬ r.raftlog.Holds msg.index msg.term →
      resp.reject = true ∧ resp.rejectHint = (r.handleAppendEntries u msg).raftlog.lastIndex ∧
        (r.handleAppendEntries u msg).raftlog = r.raftlog)

/-- The message is not stale, does not name term zero outside the log, and if the
log holds its previous index then also every entry up to the leader's commit. -/
structure AlreadyHeld (r : Raft) (msg : Message) : Prop where
  notStale : r.raftlog.committed ≤ msg.index
  noTermZero : msg.term = 0 → r.raftlog.InRange msg.index
  held : r.raftlog.Holds msg.index msg.term →
    ∀ e ∈ msg.entries, e.uindex ≤ msg.commit → r.raftlog.Holds e.uindex e.uterm

/-- What is held after the call was held before. -/
theorem handleAppendEntries_holds_iff (i t : UInt64) :
    (r.handleAppendEntries u msg).raftlog.Holds i t ↔ r.raftlog.Holds i t := by
  rw [handleAppendEntries_raftlog]
  exact (RaftLog.maybeAppend_sameEntries ..).holds i t

/-- Unless it names term zero outside the log, a message is accepted exactly when the
log holds its previous index. -/
theorem matchTerm_iff_holds (hw : u.TermIsStored)
    (hzero : msg.term = 0 → r.raftlog.InRange msg.index) :
    r.raftlog.matchTerm u.toUnwritten msg.index msg.term = true ↔
      r.raftlog.Holds msg.index msg.term := by
  rw [RaftLog.matchTerm_iff hw]
  constructor
  · rintro (hholds | ⟨hout, hz⟩)
    · exact hholds
    · exact absurd (hzero hz) hout
  · intro hholds
    exact .inl hholds

theorem alreadyHeld_of_repliesTruthfully (hw : u.TermIsStored)
    (h : RepliesTruthfully u r msg) : AlreadyHeld r msg := by
  obtain ⟨resp, hresp, -, -, haccept, hreject⟩ := h
  rw [handleAppendEntries_msgs, List.append_assoc] at hresp
  have hresp := List.append_cancel_left hresp
  have hfresh : ¬ msg.index < r.raftlog.committed := by
    intro hstale
    have hlen := congrArg List.length hresp
    simp [hstale] at hlen
  rw [if_neg hfresh, List.nil_append] at hresp
  have hresp := (List.cons.inj hresp).1
  have hmatch := RaftLog.matchTerm_iff hw (l := r.raftlog) (i := msg.index) (t := msg.term)
  refine ⟨not_lt.mp hfresh, ?_, ?_⟩
  · -- a position outside the log would be accepted
    intro hzero
    by_contra hout
    have hnot : ¬ r.raftlog.Holds msg.index msg.term := fun h => hout h.1
    have hrejected := (hreject (not_lt.mp hfresh) hnot).1
    rw [← hresp, if_pos (hmatch.mpr (.inr ⟨hout, hzero⟩))] at hrejected
    cases hrejected
  · intro hholds e he hcommit
    rw [if_pos (hmatch.mpr (.inl hholds))] at hresp
    subst hresp
    rcases haccept rfl with ⟨hstale, -⟩ | hall
    · exact absurd hstale hfresh
    · have hcovered : (e.uindex, e.uterm) ∈ msg.covered :=
        List.mem_cons_of_mem _ (List.mem_map_of_mem he)
      exact (handleAppendEntries_holds_iff _ _).mp (hall _ hcovered hcommit)

theorem AlreadyHeld.repliesTruthfully (hw : u.TermIsStored) (h : AlreadyHeld r msg) :
    RepliesTruthfully u r msg := by
  have hmsgs := handleAppendEntries_msgs u r msg
  have hmatch := matchTerm_iff_holds hw h.noTermZero
  rw [if_neg (not_lt.mpr h.notStale), List.append_nil] at hmsgs
  refine ⟨_, hmsgs, ?_⟩
  by_cases hholds : r.raftlog.Holds msg.index msg.term
  · rw [if_pos (hmatch.mpr hholds)]
    refine ⟨rfl, rfl, ?_, ?_⟩
    · intro _
      right
      intro p hp hle
      rw [handleAppendEntries_holds_iff]
      rcases List.mem_cons.mp hp with rfl | hp
      · exact hholds
      · obtain ⟨e, he, rfl⟩ := List.mem_map.mp hp
        exact h.held hholds e he hle
    · intro _ hnot
      exact absurd hholds hnot
  · have hm : ¬ r.raftlog.matchTerm u.toUnwritten msg.index msg.term = true :=
      fun hm => hholds (hmatch.mp hm)
    have hlog : (r.handleAppendEntries u msg).raftlog = r.raftlog := by
      rw [handleAppendEntries_raftlog, RaftLog.maybeAppend_eq, if_neg hm]
    rw [if_neg hm, hlog]
    refine ⟨rfl, rfl, ?_, ?_⟩
    · intro haccept
      cases haccept
    · intro _ _
      exact ⟨rfl, rfl, rfl⟩

/-- **When the reply is truthful.** Exactly when what the reply will say is already
true of the log. -/
theorem replies_truthfully_iff (u : Unspecified) (r : Raft) (msg : Message)
    (hw : u.TermIsStored) : RepliesTruthfully u r msg ↔ AlreadyHeld r msg := by
  constructor
  · intro h
    exact alreadyHeld_of_repliesTruthfully hw h
  · intro h
    exact h.repliesTruthfully hw

/-- The second entry is sent again, behind the first one, and acknowledged again. -/
theorem replies_truthfully_iff_repeated :
    let r := (started 2 [1, 2]).holding [{ term := 1, index := 1 }, { term := 1, index := 2 }]
    let msg : Message :=
      { type := .msgApp, from_ := 1, index := 1, term := 1,
        entries := [{ term := 1, index := 2 }], commit := 2 }
    RepliesTruthfully .filledIn r msg ∧
      (r.handleAppendEntries .filledIn msg).msgs.map Message.index = [2] :=
  ⟨(replies_truthfully_iff .filledIn _ _ RaftLog.filledIn_termIsStored).mpr
    ⟨by decide, by decide, fun _ => by decide⟩, by decide⟩

/-- The first entry reaches an empty follower together with the news that it is
committed: the follower acknowledges index 1 and stores nothing. -/
theorem replies_truthfully_fails :
    ¬ ∀ (u : Unspecified) (r : Raft) (msg : Message), u.TermIsStored →
      msg.type = .msgApp → RepliesTruthfully u r msg := by
  intro h
  obtain ⟨resp, hresp, -, -, haccept, -⟩ := h .filledIn (started 2 [1, 2])
    { type := .msgApp, from_ := 1, entries := [{ term := 1, index := 1 }], commit := 1 }
    RaftLog.filledIn_termIsStored rfl
  obtain rfl : resp = { to_ := 1, from_ := 2, type := .msgAppResp, index := 1 } :=
    List.singleton_inj.mp (hresp.symm.trans (by decide))
  rcases haccept rfl with ⟨hstale, -⟩ | hall
  · exact absurd hstale (by decide)
  · exact absurd (hall (1, 1) (by decide) (by decide)) (by decide)

end Raft

end Anraft
