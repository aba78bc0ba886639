import Anraft.Base.TreeMap
import Anraft.Base.Watermark
import Anraft.Replication.CommitRule

/-!
# Acknowledgements commute

A `MsgAppResp` raises the progress of its sender and then runs the commit rule.
Raising takes a maximum, and the quorum index never falls while acknowledgements
come in; with terms that do not fall along the log, the commit index at the end
is decided by the last quorum index alone.
-/

namespace Anraft

open TreeMap Watermark

namespace Raft

variable {u : Unspecified} {r r' : Raft} {msg : Message}

/-! ## One acknowledgement -/

/-- What the acknowledgement `msg` makes of the progress `p` of node `i`. -/
def ackedBy (i : UInt64) (p : Progress) (msg : Message) : Progress :=
  if msg.from_ = i then (p.maybeUpdate msg.index).2 else p

/-- A non-rejecting `MsgAppResp` of a member, for an index of the log. -/
structure IsAck (r : Raft) (msg : Message) : Prop where
  type : msg.type = .msgAppResp
  accepted : msg.reject = false
  known : msg.from_ ∈ r.prs ∨ msg.from_ ∈ r.learnerPrs
  index_le : msg.index ≤ r.raftlog.lastIndex

/-- A leader among its members whose matches lie in the log, with terms that do not
fall along the log and do not pass its own. -/
structure LeaderReady (r : Raft) : Prop where
  member : r.id ∈ r.prs
  term_pos : 1 ≤ r.term
  match_le : ∀ (i : UInt64) (p : Progress), r.prs[i]? = some p → p.match_ ≤ r.raftlog.lastIndex
  terms_mono : ∀ i j, r.raftlog.InRange i → r.raftlog.InRange j → i ≤ j →
    r.raftlog.storedTerm i ≤ r.raftlog.storedTerm j
  terms_le : ∀ i, r.raftlog.InRange i → r.raftlog.storedTerm i ≤ r.term

theorem sendAppend_of_mem {dst : UInt64} (h : dst ∈ r.prs) :
    ∃ msgs, r.sendAppend u dst = { r with msgs := msgs } := by
  unfold sendAppend
  rw [getProgress, if_pos h]
  dsimp only
  split
  · exact ⟨_, rfl⟩
  · exact ⟨_, rfl⟩

theorem bcastAppend_of_mem (h : r.id ∈ r.prs) :
    ∃ msgs, r.bcastAppend u = { r with msgs := msgs } := by
  refine forEachProgress_rel (R := fun r r' => r.id ∈ r.prs → ∃ msgs, r' = { r with msgs := msgs })
    (fun r _ => ⟨_, rfl⟩) ?_ ?_ r h
  · intro r r' r'' h h' hmem
    obtain ⟨_, rfl⟩ := h hmem
    obtain ⟨_, rfl⟩ := h' hmem
    exact ⟨_, rfl⟩
  · intro r id p hmem
    dsimp only
    split
    · exact ⟨_, rfl⟩
    · exact sendAppend_of_mem hmem

/-- The node after the update of the sender's progress. -/
def raised (r : Raft) (msg : Message) : Raft :=
  if msg.from_ ∈ r.prs then
    { r with prs := r.prs.modify msg.from_ fun p => (p.maybeUpdate msg.index).2 }
  else
    { r with learnerPrs :=
      (r.learnerPrs.insertIfNew msg.from_ {}).modify msg.from_ fun p =>
        (p.maybeUpdate msg.index).2 }

/-- An acknowledgement raises the progress, runs the commit rule, and broadcasts if
the commit index has moved. -/
theorem stepLeader_ack_eq (htype : msg.type = .msgAppResp) (haccept : msg.reject = false) :
    (r.stepLeader u msg).2 =
      if ((r.raised msg).maybeCommit u).1 then ((r.raised msg).maybeCommit u).2.bcastAppend u
      else ((r.raised msg).maybeCommit u).2 := by
  unfold stepLeader stepLeaderProgress getProgress raised
  by_cases hmem : msg.from_ ∈ r.prs
  · simp only [htype, haccept, hmem, if_true, modifyProgress, Bool.false_eq_true, if_false]
    rfl
  · simp only [htype, haccept, hmem, modifyProgress, Bool.false_eq_true, if_false]
    rfl

theorem stepLeader_ack (htype : msg.type = .msgAppResp) (haccept : msg.reject = false)
    (hmember : r.id ∈ r.prs) :
    ∃ msgs, (r.stepLeader u msg).2 = { ((r.raised msg).maybeCommit u).2 with msgs := msgs } := by
  have hraised : (r.raised msg).id ∈ (r.raised msg).prs := by
    unfold raised
    split
    · exact Std.TreeMap.mem_modify.mpr hmember
    · exact hmember
  have hcommit : ((r.raised msg).maybeCommit u).2.id ∈ ((r.raised msg).maybeCommit u).2.prs := by
    -- the commit rule writes the log alone
    generalize r.raised msg = r₁ at hraised ⊢
    exact hraised
  rw [stepLeader_ack_eq htype haccept]
  generalize ((r.raised msg).maybeCommit u).2 = r₂ at hcommit ⊢
  split
  · exact bcastAppend_of_mem hcommit
  · exact ⟨_, rfl⟩

/-! ## The progress of a member -/

/-- The indexes node `i` has acknowledged. -/
def indexesOf (i : UInt64) (acks : List Message) : List UInt64 :=
  (acks.filter (·.from_ = i)).map Message.index

/-- Acknowledgements update a progress with the indexes of its own node. -/
theorem foldl_ackedBy_eq (i : UInt64) (acks : List Message) (p : Progress) :
    acks.foldl (ackedBy i) p = (indexesOf i acks).foldl Progress.updated p := by
  induction acks generalizing p with
  | nil => rfl
  | cons msg acks ih =>
      rw [List.foldl_cons, ih]
      by_cases hfrom : msg.from_ = i
      · simp [ackedBy, indexesOf, hfrom, Progress.updated]
      · simp [ackedBy, indexesOf, hfrom]

theorem foldl_ackedBy_match (i : UInt64) (acks : List Message) (p : Progress) :
    (acks.foldl (ackedBy i) p).match_ = (indexesOf i acks).foldl max p.match_ := by
  rw [foldl_ackedBy_eq, Progress.foldl_updated_match]

theorem foldl_ackedBy_next (i : UInt64) (acks : List Message) (p : Progress) :
    (acks.foldl (ackedBy i) p).next =
      ((indexesOf i acks).map (· + 1)).foldl max p.next := by
  rw [foldl_ackedBy_eq, Progress.foldl_updated_next]

theorem mem_indexesOf_congr {acks acks' : List Message} (h : ∀ m, m ∈ acks ↔ m ∈ acks')
    (i n : UInt64) : n ∈ indexesOf i acks ↔ n ∈ indexesOf i acks' := by
  simp [indexesOf, h]

/-- Match and Next depend only on which acknowledgements there are. -/
theorem foldl_ackedBy_congr {acks acks' : List Message} (h : ∀ m, m ∈ acks ↔ m ∈ acks')
    (i : UInt64) (p : Progress) :
    (acks.foldl (ackedBy i) p).match_ = (acks'.foldl (ackedBy i) p).match_ ∧
      (acks.foldl (ackedBy i) p).next = (acks'.foldl (ackedBy i) p).next := by
  constructor
  · rw [foldl_ackedBy_match, foldl_ackedBy_match]
    exact foldl_max_congr (mem_indexesOf_congr h i) _
  · rw [foldl_ackedBy_next, foldl_ackedBy_next]
    apply foldl_max_congr
    intro n
    simp only [List.mem_map, mem_indexesOf_congr h i]

/-! ## The effect of acknowledgements -/

/-- The effect of the acknowledgements `acks`, at least one, from `r` to `r'`. -/
structure Acked (r : Raft) (acks : List Message) (r' : Raft) : Prop where
  id : r'.id = r.id
  term : r'.term = r.term
  prs : ∀ i : UInt64, r'.prs[i]? = r.prs[i]?.map fun p => acks.foldl (ackedBy i) p
  learnerPrs : ∀ i : UInt64, r'.learnerPrs[i]? =
    r.learnerPrs[i]?.map fun p => if i ∈ r.prs then p else acks.foldl (ackedBy i) p
  log : r.raftlog.SameEntries r'.raftlog
  committed : ∃ q, IsGreatest r'.majorityMatched q ∧
    r'.raftlog.committed = advance (r.raftlog.Holds · r.term) r.raftlog.committed q

namespace Acked

variable {acks : List Message}

theorem mem_prs_iff (h : Acked r acks r') (i : UInt64) : i ∈ r'.prs ↔ i ∈ r.prs := by
  rw [Std.TreeMap.mem_iff_isSome_getElem?, Std.TreeMap.mem_iff_isSome_getElem?, h.prs,
    Option.isSome_map]

theorem mem_learnerPrs_iff (h : Acked r acks r') (i : UInt64) :
    i ∈ r'.learnerPrs ↔ i ∈ r.learnerPrs := by
  rw [Std.TreeMap.mem_iff_isSome_getElem?, Std.TreeMap.mem_iff_isSome_getElem?, h.learnerPrs,
    Option.isSome_map]

theorem matching_eq (h : Acked r acks r') (n : UInt64) :
    r'.matching n = r.prs.toList.countP fun x =>
      decide (n ≤ (acks.foldl (ackedBy x.1) x.2).match_) := by
  unfold matching
  rw [toList_eq_map_of_getElem? (f := fun i p => acks.foldl (ackedBy i) p) h.prs, List.countP_map]
  rfl

theorem quorum (h : Acked r acks r') : r'.quorum = r.quorum := by
  unfold Raft.quorum
  rw [← Std.TreeMap.length_toList, ← Std.TreeMap.length_toList,
    toList_eq_map_of_getElem? (f := fun i p => acks.foldl (ackedBy i) p) h.prs, List.length_map]

/-- The indexes reached by a majority only grow. -/
theorem majorityMatched_subset (h : Acked r acks r') : r.majorityMatched ⊆ r'.majorityMatched := by
  intro n hn
  have hle : r.matching n ≤ r'.matching n := by
    rw [h.matching_eq]
    apply List.countP_mono_left
    intro x _ hx
    rw [decide_eq_true_eq] at hx ⊢
    rw [foldl_ackedBy_match]
    exact hx.trans (le_foldl_max _ _)
  have hn : r.quorum ≤ r.matching n := hn
  exact (h.quorum ▸ hn).trans hle

theorem leaderReady (h : Acked r acks r') (hr : LeaderReady r) (hacks : ∀ m ∈ acks, IsAck r m) :
    LeaderReady r' where
  member := by
    rw [h.id, h.mem_prs_iff]
    exact hr.member
  term_pos := h.term ▸ hr.term_pos
  match_le := by
    intro i p' hp'
    rw [h.prs, Option.map_eq_some_iff] at hp'
    obtain ⟨p, hp, rfl⟩ := hp'
    rw [foldl_ackedBy_match, foldl_max_le_iff, h.log.lastIndex]
    refine ⟨hr.match_le i p hp, fun n hn => ?_⟩
    obtain ⟨m, hm, rfl⟩ := List.mem_map.mp hn
    exact (hacks m (List.mem_of_mem_filter hm)).index_le
  terms_mono := by
    intro i j hi hj hij
    rw [h.log.inRange] at hi hj
    rw [h.log.storedTerm, h.log.storedTerm]
    exact hr.terms_mono i j hi hj hij
  terms_le := by
    intro i hi
    rw [h.log.inRange] at hi
    rw [h.log.storedTerm, h.term]
    exact hr.terms_le i hi

theorem isAck (h : Acked r acks r') (hm : IsAck r msg) : IsAck r' msg where
  type := hm.type
  accepted := hm.accepted
  known := by
    rw [h.mem_prs_iff, h.mem_learnerPrs_iff]
    exact hm.known
  index_le := by
    rw [h.log.lastIndex]
    exact hm.index_le

end Acked

/-- A majority index is the match of some member, so it lies in the log. -/
theorem LeaderReady.quorumIndex_le (hr : LeaderReady r) {q : UInt64}
    (hq : q ∈ r.majorityMatched) : q ≤ r.raftlog.lastIndex := by
  have hpos : 0 < r.matching q := by
    have hq : r.prs.size / 2 + 1 ≤ r.matching q := hq
    omega
  obtain ⟨x, hx, hle⟩ := List.countP_pos_iff.mp hpos
  rw [decide_eq_true_eq] at hle
  exact hle.trans (hr.match_le x.1 x.2 (Std.TreeMap.mem_toList_iff_getElem?_eq_some.mp hx))

/-- Above an entry of the leader's term there are only entries of that term. -/
theorem LeaderReady.holds_of_le (hr : LeaderReady r) {q q' : UInt64} (hle : q ≤ q')
    (hlast : q' ≤ r.raftlog.lastIndex) (h : r.raftlog.Holds q r.term) :
    r.raftlog.Holds q' r.term := by
  have hrange : r.raftlog.InRange q' := ⟨h.1.1.trans hle, hlast⟩
  refine ⟨hrange, le_antisymm (hr.terms_le q' hrange) ?_⟩
  calc r.term = r.raftlog.storedTerm q := h.2.symm
    _ ≤ r.raftlog.storedTerm q' := hr.terms_mono q q' h.1 hrange hle

/-- The entry of a map that was modified at `k`. -/
theorem getElem?_modify_ackedBy (t : Std.TreeMap UInt64 Progress) (msg : Message) (i : UInt64) :
    (t.modify msg.from_ fun p => (p.maybeUpdate msg.index).2)[i]? =
      t[i]?.map fun p => ackedBy i p msg := by
  rw [Std.TreeMap.getElem?_modify]
  by_cases hfrom : msg.from_ = i
  · subst hfrom
    simp [ackedBy]
  · simp [ackedBy, hfrom]

theorem raised_prs (r : Raft) (msg : Message) (i : UInt64) :
    (r.raised msg).prs[i]? = r.prs[i]?.map fun p => ackedBy i p msg := by
  unfold raised
  split
  · exact getElem?_modify_ackedBy r.prs msg i
  · next hmem =>
      by_cases hfrom : msg.from_ = i
      · subst hfrom
        have hnone : r.prs[msg.from_]? = none := Std.TreeMap.getElem?_eq_none hmem
        simp [hnone]
      · simp [ackedBy, hfrom]

theorem raised_learnerPrs (hknown : msg.from_ ∈ r.prs ∨ msg.from_ ∈ r.learnerPrs) (i : UInt64) :
    (r.raised msg).learnerPrs[i]? =
      r.learnerPrs[i]?.map fun p => if i ∈ r.prs then p else ackedBy i p msg := by
  unfold raised
  split
  · next hmem =>
      by_cases hfrom : msg.from_ = i
      · subst hfrom
        simp [hmem]
      · simp [ackedBy, hfrom]
  · next hmem =>
      have hlearner := hknown.resolve_left hmem
      show ((r.learnerPrs.insertIfNew msg.from_ {}).modify msg.from_ fun p =>
        (p.maybeUpdate msg.index).2)[i]? = _
      rw [getElem?_modify_ackedBy, Std.TreeMap.getElem?_insertIfNew,
        if_neg fun h => h.2 hlearner]
      by_cases hfrom : msg.from_ = i
      · subst hfrom
        simp [hmem]
      · simp [ackedBy, hfrom]

/-- **One acknowledgement.** -/
theorem stepLeader_acked (hw : u.TermIsStored) (hr : LeaderReady r) (hm : IsAck r msg) :
    Acked r [msg] (r.stepLeader u msg).2 := by
  obtain ⟨msgs, heq⟩ := stepLeader_ack (u := u) hm.type hm.accepted hr.member
  have hid : (r.raised msg).id = r.id := by
    unfold raised
    split <;> rfl
  have hterm : (r.raised msg).term = r.term := by
    unfold raised
    split <;> rfl
  have hlog : (r.raised msg).raftlog = r.raftlog := by
    unfold raised
    split <;> rfl
  have hprs := raised_prs r msg
  have hnonempty : (r.raised msg).prs.isEmpty = false := by
    refine Std.TreeMap.isEmpty_eq_false_iff_exists_mem.mpr ⟨r.id, ?_⟩
    rw [Std.TreeMap.mem_iff_isSome_getElem?, hprs, Option.isSome_map,
      ← Std.TreeMap.mem_iff_isSome_getElem?]
    exact hr.member
  obtain ⟨q, hq, hgreatest⟩ := exists_quorumIndex hnonempty
  have hcommit := maybeCommit_of_quorumIndex hw (hterm ▸ hr.term_pos) hq
  rw [hterm, hlog] at hcommit
  rw [heq, hcommit]
  by_cases h : r.raftlog.committed < q ∧ r.raftlog.Holds q r.term
  · rw [if_pos h]
    exact {
      id := hid
      term := rfl
      prs := hprs
      learnerPrs := raised_learnerPrs hm.known
      log := ⟨rfl, rfl⟩
      committed := ⟨q, hgreatest, (if_pos h).symm⟩ }
  · rw [if_neg h]
    exact {
      id := hid
      term := hterm
      prs := hprs
      learnerPrs := raised_learnerPrs hm.known
      log := ⟨congrArg RaftLog.storage hlog, congrArg RaftLog.unstable hlog⟩
      committed := ⟨q, hgreatest, (congrArg RaftLog.committed hlog).trans (if_neg h).symm⟩ }

/-! ## Runs of acknowledgements -/

theorem Acked.cons {r₁ r₂ : Raft} {acks : List Message} (hr : LeaderReady r)
    (h₁ : Acked r [msg] r₁) (h₂ : Acked r₁ acks r₂) (hr₂ : LeaderReady r₂) :
    Acked r (msg :: acks) r₂ where
  id := h₂.id.trans h₁.id
  term := h₂.term.trans h₁.term
  prs i := by
    rw [h₂.prs, h₁.prs, Option.map_map]
    rfl
  learnerPrs i := by
    rw [h₂.learnerPrs, h₁.learnerPrs, Option.map_map]
    simp only [h₁.mem_prs_iff]
    congr 1
    funext p
    by_cases hi : i ∈ r.prs
    · simp [hi]
    · simp [hi]
  log := ⟨h₂.log.storage.trans h₁.log.storage, h₂.log.unstable.trans h₁.log.unstable⟩
  committed := by
    obtain ⟨q₁, hq₁, hc₁⟩ := h₁.committed
    obtain ⟨q₂, hq₂, hc₂⟩ := h₂.committed
    have hle : q₁ ≤ q₂ := hq₂.2 (h₂.majorityMatched_subset hq₁.1)
    have hlast : q₂ ≤ r.raftlog.lastIndex := by
      rw [← h₁.log.lastIndex, ← h₂.log.lastIndex]
      exact hr₂.quorumIndex_le hq₂.1
    have hholds : ∀ i, r₁.raftlog.Holds i r₁.term ↔ r.raftlog.Holds i r.term := by
      intro i
      rw [h₁.term, h₁.log.holds]
    refine ⟨q₂, hq₂, ?_⟩
    rw [hc₂, advance_congr hholds, hc₁]
    exact advance_advance hle (hr.holds_of_le hle hlast) _

/-- The acknowledgements of a list, stepped in order. -/
def stepAcks (r : Raft) (acks : List (Unspecified × Message)) : Raft :=
  acks.foldl (fun r x => (r.stepLeader x.1 x.2).2) r

theorem stepAcks_acked {acks : List (Unspecified × Message)} (hne : acks ≠ [])
    (hr : LeaderReady r) (hacks : ∀ x ∈ acks, x.1.TermIsStored ∧ IsAck r x.2) :
    LeaderReady (r.stepAcks acks) ∧ Acked r (acks.map Prod.snd) (r.stepAcks acks) := by
  induction acks generalizing r with
  | nil => exact absurd rfl hne
  | cons x acks ih =>
      obtain ⟨hw, hm⟩ := hacks x List.mem_cons_self
      have h₁ := stepLeader_acked hw hr hm
      have hr₁ : LeaderReady (r.stepLeader x.1 x.2).2 :=
        h₁.leaderReady hr fun m hmem => List.mem_singleton.mp hmem ▸ hm
      rcases eq_or_ne acks [] with rfl | hacks'
      · exact ⟨hr₁, h₁⟩
      · obtain ⟨hr₂, h₂⟩ := ih hacks' hr₁ fun y hy =>
          ⟨(hacks y (List.mem_cons_of_mem _ hy)).1,
            h₁.isAck (hacks y (List.mem_cons_of_mem _ hy)).2⟩
        exact ⟨hr₂, h₁.cons hr h₂ hr₂⟩

/-- Match and Next of every member, and the commit index. -/
structure SameProgress (r r' : Raft) : Prop where
  prs : ∀ i : UInt64, (r.prs[i]?.map fun p => (p.match_, p.next)) =
    r'.prs[i]?.map fun p => (p.match_, p.next)
  learnerPrs : ∀ i : UInt64, (r.learnerPrs[i]?.map fun p => (p.match_, p.next)) =
    r'.learnerPrs[i]?.map fun p => (p.match_, p.next)
  committed : r.raftlog.committed = r'.raftlog.committed

theorem Acked.sameProgress {r₁ r₂ : Raft} {acks acks' : List Message} (h₁ : Acked r acks r₁)
    (h₂ : Acked r acks' r₂) (hsame : ∀ m, m ∈ acks ↔ m ∈ acks') : SameProgress r₁ r₂ where
  prs i := by
    rw [h₁.prs, h₂.prs, Option.map_map, Option.map_map]
    congr 1
    funext p
    obtain ⟨hmatch, hnext⟩ := foldl_ackedBy_congr hsame i p
    simp [hmatch, hnext]
  learnerPrs i := by
    rw [h₁.learnerPrs, h₂.learnerPrs, Option.map_map, Option.map_map]
    congr 1
    funext p
    obtain ⟨hmatch, hnext⟩ := foldl_ackedBy_congr hsame i p
    by_cases hi : i ∈ r.prs
    · simp [hi]
    · simp [hi, hmatch, hnext]
  committed := by
    have hmajority : r₁.majorityMatched = r₂.majorityMatched := by
      ext n
      show r₁.quorum ≤ r₁.matching n ↔ r₂.quorum ≤ r₂.matching n
      rw [h₁.quorum, h₂.quorum, h₁.matching_eq, h₂.matching_eq]
      simp only [(foldl_ackedBy_congr hsame _ _).1]
    obtain ⟨q₁, hq₁, hc₁⟩ := h₁.committed
    obtain ⟨q₂, hq₂, hc₂⟩ := h₂.committed
    rw [hmajority] at hq₁
    rw [hc₁, hc₂, hq₁.unique hq₂]

/-- **Acknowledgements commute.** Two lists with the same acknowledgements, in any
order and with any repetitions, leave the same Match and Next for every member
and the same commit index. -/
theorem acks_commute (r : Raft) (acks acks' : List (Unspecified × Message))
    (hr : LeaderReady r) (hacks : ∀ x ∈ acks, x.1.TermIsStored ∧ IsAck r x.2)
    (hacks' : ∀ x ∈ acks', x.1.TermIsStored ∧ IsAck r x.2)
    (hsame : ∀ m, m ∈ acks.map Prod.snd ↔ m ∈ acks'.map Prod.snd) :
    SameProgress (r.stepAcks acks) (r.stepAcks acks') := by
  rcases eq_or_ne acks [] with rfl | hne
  · have hnil : acks'.map Prod.snd = [] :=
      List.eq_nil_iff_forall_not_mem.mpr fun m hm => List.not_mem_nil ((hsame m).mpr hm)
    rw [List.map_eq_nil_iff.mp hnil]
    exact ⟨fun _ => rfl, fun _ => rfl, rfl⟩
  · have hne' : acks' ≠ [] := by
      rintro rfl
      obtain ⟨x, hx⟩ := List.exists_mem_of_ne_nil acks hne
      exact List.not_mem_nil ((hsame x.2).mp (List.mem_map_of_mem hx))
    exact (stepAcks_acked hne hr hacks).2.sameProgress (stepAcks_acked hne' hr hacks').2 hsame

theorem leaderOfThree_inRange {i : UInt64} (h : leaderOfThree.raftlog.InRange i) :
    i = 0 ∨ i = 1 ∨ i = 2 := by
  have hlast : leaderOfThree.raftlog.lastIndex = 2 := by decide
  have hle : i.toNat ≤ 2 := UInt64.le_iff_toNat_le.mp (hlast ▸ h.2)
  rw [← UInt64.toNat_inj, ← UInt64.toNat_inj, ← UInt64.toNat_inj]
  show i.toNat = 0 ∨ i.toNat = 1 ∨ i.toNat = 2
  omega

theorem leaderOfThree_leaderReady : LeaderReady leaderOfThree where
  member := by decide
  term_pos := by decide
  match_le := by
    intro i p hp
    have hmem := Std.TreeMap.mem_toList_iff_getElem?_eq_some.mpr hp
    have hlist : leaderOfThree.prs.toList =
        [(1, { match_ := 2, next := 3 }), (2, { match_ := 1, next := 2 }), (3, { next := 1 })] := by
      decide
    rw [hlist] at hmem
    simp only [List.mem_cons, Prod.mk.injEq, List.not_mem_nil, or_false] at hmem
    rcases hmem with ⟨-, rfl⟩ | ⟨-, rfl⟩ | ⟨-, rfl⟩ <;> decide
  terms_mono := by
    intro i j hi hj
    rcases leaderOfThree_inRange hi with rfl | rfl | rfl <;>
      rcases leaderOfThree_inRange hj with rfl | rfl | rfl <;> decide
  terms_le := by
    intro i hi
    rcases leaderOfThree_inRange hi with rfl | rfl | rfl <;> decide

/-- Node `id` acknowledges `index`. -/
def ack (id index : UInt64) : Unspecified × Message :=
  (.filledIn, { type := .msgAppResp, from_ := id, index := index })

/-- Node 2 acknowledges index 2 and node 3 index 1: in this order, or the other way
round with one of them repeated. -/
theorem acks_commute_leaderOfThree :
    SameProgress (leaderOfThree.stepAcks [ack 2 2, ack 3 1])
      (leaderOfThree.stepAcks [ack 3 1, ack 2 2, ack 3 1]) := by
  have hack₂ : (ack 2 2).1.TermIsStored ∧ IsAck leaderOfThree (ack 2 2).2 :=
    ⟨RaftLog.filledIn_termIsStored, rfl, rfl, by decide, by decide⟩
  have hack₃ : (ack 3 1).1.TermIsStored ∧ IsAck leaderOfThree (ack 3 1).2 :=
    ⟨RaftLog.filledIn_termIsStored, rfl, rfl, by decide, by decide⟩
  refine acks_commute leaderOfThree _ _ leaderOfThree_leaderReady ?_ ?_ ?_
  · intro x hx
    simp only [List.mem_cons, List.not_mem_nil, or_false] at hx
    rcases hx with rfl | rfl
    · exact hack₂
    · exact hack₃
  · intro x hx
    simp only [List.mem_cons, List.not_mem_nil, or_false] at hx
    rcases hx with rfl | rfl | rfl
    · exact hack₃
    · exact hack₂
    · exact hack₃
  · intro m
    simp only [List.map_cons, List.map_nil, List.mem_cons, List.not_mem_nil, or_false]
    tauto

end Raft

end Anraft
