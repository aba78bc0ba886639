import Anraft.Log.Extension
import Anraft.Replication.Transmission

/-!
# Proposals of a leader

`AppendEntry` numbers the entries of a proposal from the last index on, appends them and
raises the leader's own progress. What it appends starts right behind the log, the one
place where `Append` cannot lose anything, so proposals pile up one behind the other.
-/

namespace Anraft

open IteratorRange Segment

namespace Raft

variable {u : Unspecified} {r : Raft} {msg : Message} {entries : List LogEntry}

/-- `Append` for repeated fields does what the overload for vectors does. -/
def Unspecified.AppendIsWritten (u : Unspecified) : Prop :=
  ∀ l ents res, RaftLog.append l ents = some res → u.appendRepeated l ents = res

/-- Entry number `i` of a proposal with the leader's term and its index. -/
def stampEntry (r : Raft) (i : ℕ) (e : LogEntry) : LogEntry :=
  { e with
    term := r.term.toInt64
    index := (r.raftlog.lastIndex + 1 + UInt64.ofNat i).toInt64 }

def stamp (r : Raft) (entries : List LogEntry) : List LogEntry := entries.mapIdx r.stampEntry

/-- A proposal the leader takes: it is a member and not handing its office on, the
proposal is its own, and the indexes of the entries stay below `2 ^ 63`. -/
structure TakesProposal (u : Unspecified) (r : Raft) (msg : Message) : Prop where
  member : r.id ∈ r.prs
  noTransfer : r.leadTransferee = 0
  own : msg.from_ = r.id
  extendable : r.raftlog.Extendable
  fits : r.raftlog.lastIndex.toNat + msg.entries.length < 2 ^ 63
  appendIsWritten : u.AppendIsWritten

/-- `r'` is `r` with the log longer by the entries of a proposal. -/
structure Proposed (r : Raft) (entries : List LogEntry) (r' : Raft) : Prop where
  lastIndex : r'.raftlog.lastIndex.toNat = r.raftlog.lastIndex.toNat + entries.length
  new : ∀ i e, entries[i]? = some e →
    ∃ e', r'.raftlog.unstable.entryAt (r.raftlog.lastIndex + 1 + UInt64.ofNat i) = some e' ∧
      e'.data = e.data ∧ e'.type = e.type ∧ e'.uterm = r.term ∧
        e'.uindex.toNat = r.raftlog.lastIndex.toNat + 1 + i
  earlier : r'.raftlog.storage = r.raftlog.storage ∧
    ∀ i, i ≤ r.raftlog.lastIndex →
      r'.raftlog.unstable.entryAt i = r.raftlog.unstable.entryAt i
  reads : ∀ lo hi maxSize out, r.raftlog.mustCheckOutOfBounds lo hi = .errNone →
    r'.raftlog.slice lo hi maxSize out = r.raftlog.slice lo hi maxSize out
  matched : r'.raftlog.lastIndex ≤ (r'.progressOf r.id).match_
  extendable : r'.raftlog.Extendable

/-! ## The stamped entries -/

@[simp] theorem length_stamp (r : Raft) (entries : List LogEntry) :
    (r.stamp entries).length = entries.length := List.length_mapIdx

theorem getElem?_stamp (i : ℕ) :
    (r.stamp entries)[i]? = entries[i]?.map (r.stampEntry i) := List.getElem?_mapIdx

/-- The index stamped on the entry number `i`. -/
theorem toNat_stamped_index {i : ℕ} (h : r.raftlog.lastIndex.toNat + 1 + i < 2 ^ 64) :
    (r.raftlog.lastIndex + 1 + UInt64.ofNat i).toNat = r.raftlog.lastIndex.toNat + 1 + i := by
  rw [UInt64.toNat_add, UInt64.toNat_add_one_of_lt (by omega), UInt64.toNat_ofNat']
  omega

theorem stamp_startsAfter (h : r.raftlog.lastIndex.toNat + 1 + entries.length < 2 ^ 64) :
    r.raftlog.StartsAfter (r.stamp entries) := by
  intro i e' he'
  rw [getElem?_stamp, Option.map_eq_some_iff] at he'
  obtain ⟨e, he, rfl⟩ := he'
  have hlen := (List.getElem?_eq_some_iff.mp he).1
  rw [UInt64.toNat_add_one_of_lt (by omega)]
  exact toNat_stamped_index (by omega)

/-! ## The leader's step -/

theorem updateProgress_of_mem {id : UInt64} (h : id ∈ r.prs) (f : Progress → Progress) :
    r.updateProgress id f = { r with prs := r.prs.modify id f } := by
  unfold updateProgress getProgress
  rw [if_pos h]
  rfl

theorem appendEntry_eq_stamp (u : Unspecified) (r : Raft) (entries : List LogEntry) :
    r.appendEntry u entries =
      ((updateProgress { r with raftlog := (u.appendRepeated r.raftlog (r.stamp entries)).2 } r.id
        fun p => (p.maybeUpdate (u.appendRepeated r.raftlog (r.stamp entries)).1).2).maybeCommit
          u).2 := rfl

/-- The leader with the batch `new` behind its log, before it commits. -/
def extended (r : Raft) (new : List LogEntry) : Raft :=
  { r with
    raftlog := r.raftlog.extend new
    prs := r.prs.modify r.id fun p => (p.maybeUpdate (r.raftlog.extend new).lastIndex).2 }

theorem appendEntry_eq_extended (happend : u.AppendIsWritten) (hmember : r.id ∈ r.prs)
    (hlog : r.raftlog.Extendable)
    (hfits : r.raftlog.lastIndex.toNat + 1 + entries.length < 2 ^ 64) :
    r.appendEntry u entries = ((r.extended (r.stamp entries)).maybeCommit u).2 := by
  have hcall := happend _ _ _ (RaftLog.append_eq_extend hlog (stamp_startsAfter hfits))
  rw [appendEntry_eq_stamp, hcall, updateProgress_of_mem (by exact hmember)]
  rfl

/-- After the entries are appended, a proposal of the node itself only sends. -/
theorem stepLeader_msgProp (htype : msg.type = .msgProp) (hmember : r.id ∈ r.prs)
    (htransfer : r.leadTransferee = 0) (hown : msg.from_ = r.id) :
    ∃ msgs, (r.stepLeader u msg).2 = { r.appendEntry u msg.entries with msgs := msgs } := by
  have hsame := (appendEntry_noElection u r msg.entries).toSameConfig
  have hmember' : (r.appendEntry u msg.entries).id ∈ (r.appendEntry u msg.entries).prs := by
    rw [hsame.mem_prs, hsame.id]
    exact hmember
  obtain ⟨msgs, hbcast⟩ := bcastAppend_of_mem (u := u) hmember'
  have hfound : msg.from_ ∈ (r.appendEntry u msg.entries).prs := by
    rw [hown, hsame.mem_prs]
    exact hmember
  refine ⟨msgs, ?_⟩
  rw [stepLeader_taken htype hmember htransfer, hbcast]
  simp only [stepLeaderProgress, getProgress, htype, if_pos hfound]

theorem extended_proposed (hmember : r.id ∈ r.prs) (hlog : r.raftlog.Extendable)
    (hfits : r.raftlog.lastIndex.toNat + entries.length < 2 ^ 63) {r' : Raft}
    (hsame : (r.raftlog.extend (r.stamp entries)).SameEntries r'.raftlog)
    (hprs : r'.prs = (r.extended (r.stamp entries)).prs) : Proposed r entries r' := by
  have hfits' : r.raftlog.lastIndex.toNat + 1 + entries.length < 2 ^ 64 := by omega
  have hstart := stamp_startsAfter hfits'
  have hlast : (r.raftlog.extend (r.stamp entries)).lastIndex =
      r.raftlog.lastIndex + size (r.stamp entries) := RaftLog.extend_lastIndex hlog
  rw [← length_stamp r entries] at hfits'
  refine ⟨?_, ?_, ⟨hsame.storage, ?_⟩, ?_, ?_, ?_⟩
  · rw [hsame.lastIndex, hlast, UInt64.toNat_add, toNat_size _ (by omega), length_stamp]
    omega
  · intro i e he
    have hlen := (List.getElem?_eq_some_iff.mp he).1
    have hstamped : (r.stamp entries)[i]? = some (r.stampEntry i e) := by
      rw [getElem?_stamp, he, Option.map_some]
    refine ⟨r.stampEntry i e, ?_, rfl, rfl, rfl, toNat_stamped_index (by omega)⟩
    rw [hsame.unstable]
    exact RaftLog.extend_entryAt_new hlog hfits' hstamped
  · intro i hi
    rw [hsame.unstable]
    exact RaftLog.extend_entryAt_of_le hlog (by omega) hi
  · intro lo hi maxSize out hbounds
    rw [hsame.slice]
    exact RaftLog.extend_slice hlog hfits' hbounds
  · have hfound : r.id ∈ (r.extended (r.stamp entries)).prs := Std.TreeMap.mem_modify.mpr hmember
    rw [hsame.lastIndex, progressOf, hprs, if_pos hfound]
    obtain ⟨p, hp⟩ := Option.isSome_iff_exists.mp (Std.TreeMap.mem_iff_isSome_getElem?.mp hmember)
    unfold extended
    rw [Std.TreeMap.getD_modify_self, hp, Option.map_some, Option.getD_some,
      Progress.maybeUpdate_match]
    exact le_max_right _ _
  · exact (RaftLog.extend_extendable hlog (by omega) hstart).of_sameEntries hsame

/-- The whole step. -/
theorem TakesProposal.stepLeader_eq (h : TakesProposal u r msg) (htype : msg.type = .msgProp) :
    ∃ msgs, (r.stepLeader u msg).2 =
      { ((r.extended (r.stamp msg.entries)).maybeCommit u).2 with msgs := msgs } := by
  obtain ⟨msgs, heq⟩ := stepLeader_msgProp (u := u) htype h.member h.noTransfer h.own
  have hfits := h.fits
  rw [appendEntry_eq_extended h.appendIsWritten h.member h.extendable (by omega)] at heq
  exact ⟨msgs, heq⟩

theorem TakesProposal.proposed (h : TakesProposal u r msg) (htype : msg.type = .msgProp) :
    Proposed r msg.entries (r.stepLeader u msg).2 := by
  obtain ⟨msgs, heq⟩ := h.stepLeader_eq htype
  rw [heq]
  exact extended_proposed h.member h.extendable h.fits
    (RaftLog.maybeCommit_sameEntries (w := u.toUnwritten) _ _) rfl

/-- **Proposals.** One that is refused leaves the leader as it was; any other makes the log
longer by its entries and changes nothing that was there. -/
theorem stepLeader_proposal (u : Unspecified) (r : Raft) (msg : Message)
    (htype : msg.type = .msgProp) :
    ((r.id ∉ r.prs ∨ r.leadTransferee ≠ 0) → r.stepLeader u msg = (.errProposalDropped, r)) ∧
      (TakesProposal u r msg → Proposed r msg.entries (r.stepLeader u msg).2) :=
  ⟨stepLeader_dropped htype, fun h => h.proposed htype⟩

theorem leaderOfThree_extendable : leaderOfThree.raftlog.Extendable where
  consecutive := Numbered.append (consecutive_singleton { index := 1, term := 1 })
    (consecutive_singleton { index := 2, term := 1 })
  offset_eq := nofun

theorem filledIn_appendIsWritten : Unspecified.filledIn.AppendIsWritten := by
  intro l ents res h
  show (l.append ents).getD _ = res
  rw [h, Option.getD_some]

/-- One entry is proposed to the leader of three nodes, and once more after it has begun to
hand its office to node 2. -/
theorem stepLeader_proposal_leaderOfThree :
    Proposed leaderOfThree [{ data := [7] }]
        (leaderOfThree.stepLeader .filledIn
          { type := .msgProp, from_ := 1, entries := [{ data := [7] }] }).2 ∧
      { leaderOfThree with leadTransferee := 2 }.stepLeader .filledIn
          { type := .msgProp, from_ := 1, entries := [{ data := [7] }] } =
        (.errProposalDropped, { leaderOfThree with leadTransferee := 2 }) := by
  constructor
  · exact (stepLeader_proposal .filledIn leaderOfThree
      { type := .msgProp, from_ := 1, entries := [{ data := [7] }] } rfl).2
      ⟨by decide, rfl, rfl, leaderOfThree_extendable, by decide, filledIn_appendIsWritten⟩
  · exact (stepLeader_proposal .filledIn { leaderOfThree with leadTransferee := 2 }
      { type := .msgProp, from_ := 1, entries := [{ data := [7] }] } rfl).1 (.inr (by decide))

/-! ## Proposal after proposal -/

/-- The leader after proposals. -/
def propose (r : Raft) (props : List (Unspecified × Message)) : Raft :=
  props.foldl (fun r x => (r.stepLeader x.1 x.2).2) r

/-- The number of entries proposed. -/
def proposedLength (props : List (Unspecified × Message)) : ℕ :=
  (props.map fun x => x.2.entries.length).sum

/-- What a leader needs to take proposals of its own, one after the other. -/
structure ReadyToPropose (r : Raft) : Prop where
  member : r.id ∈ r.prs
  noTransfer : r.leadTransferee = 0
  extendable : r.raftlog.Extendable

/-- The bounds only widen. -/
theorem Proposed.mustCheckOutOfBounds {r' : Raft} (h : Proposed r entries r')
    (hfits : r.raftlog.lastIndex.toNat + entries.length < 2 ^ 63) {lo hi : UInt64}
    (hbounds : r.raftlog.mustCheckOutOfBounds lo hi = .errNone) :
    r'.raftlog.mustCheckOutOfBounds lo hi = .errNone := by
  obtain ⟨hle, hlo, hhi⟩ := RaftLog.mustCheckOutOfBounds_eq_errNone_iff.mp hbounds
  have hlast := h.lastIndex
  have hgrown : r.raftlog.lastIndex + 1 ≤ r'.raftlog.lastIndex + 1 := by
    rw [UInt64.le_iff_toNat_le, UInt64.toNat_add_one_of_lt (by omega),
      UInt64.toNat_add_one_of_lt (by omega), hlast]
    omega
  have hfirst : r'.raftlog.firstIndex = r.raftlog.firstIndex := by
    rw [RaftLog.firstIndex_eq, RaftLog.firstIndex_eq, h.earlier.1]
  rw [RaftLog.mustCheckOutOfBounds_eq_errNone_iff, hfirst]
  exact ⟨hle, hlo, hhi.trans hgrown⟩

/-- **Proposals pile up.** The log grows by all their entries, and a read inside the bounds
it had at the start still returns what it returned. -/
theorem propose_grows {props : List (Unspecified × Message)} (hr : ReadyToPropose r)
    (hprops : ∀ x ∈ props, x.2.type = .msgProp ∧ x.2.from_ = r.id ∧ x.1.AppendIsWritten)
    (hfits : r.raftlog.lastIndex.toNat + proposedLength props < 2 ^ 63) :
    (r.propose props).raftlog.lastIndex.toNat =
        r.raftlog.lastIndex.toNat + proposedLength props ∧
      ∀ lo hi maxSize out, r.raftlog.mustCheckOutOfBounds lo hi = .errNone →
        (r.propose props).raftlog.slice lo hi maxSize out =
          r.raftlog.slice lo hi maxSize out := by
  induction props generalizing r with
  | nil => exact ⟨rfl, fun _ _ _ _ _ => rfl⟩
  | cons x props ih =>
      obtain ⟨htype, hown, happend⟩ := hprops x List.mem_cons_self
      have hsum : proposedLength (x :: props) =
          x.2.entries.length + proposedLength props := List.sum_cons
      rw [hsum, ← add_assoc] at hfits
      have htake : TakesProposal x.1 r x.2 := ⟨hr.member, hr.noTransfer, hown, hr.extendable,
        (Nat.le_add_right _ _).trans_lt hfits, happend⟩
      have hfirst := htake.proposed htype
      have hsame := (stepLeader_noElection x.1 r x.2).toSameConfig
      have hready : ReadyToPropose (r.stepLeader x.1 x.2).2 := by
        refine ⟨?_, ?_, hfirst.extendable⟩
        · rw [hsame.id, hsame.mem_prs]
          exact hr.member
        · obtain ⟨msgs, heq⟩ := htake.stepLeader_eq htype
          rw [heq]
          exact hr.noTransfer
      obtain ⟨hlast, hreads⟩ := ih hready
        (fun y hy => by
          rw [hsame.id]
          exact hprops y (List.mem_cons_of_mem x hy))
        (by
          rw [hfirst.lastIndex]
          exact hfits)
      have hrun : r.propose (x :: props) = (r.stepLeader x.1 x.2).2.propose props := rfl
      rw [hrun, hlast, hfirst.lastIndex, hsum, add_assoc]
      refine ⟨rfl, fun lo hi maxSize out hbounds => ?_⟩
      rw [hreads lo hi maxSize out (hfirst.mustCheckOutOfBounds htake.fits hbounds)]
      exact hfirst.reads lo hi maxSize out hbounds

end Raft

end Anraft
