import Anraft.Replication.AckOrder

/-!
# The two progress maps and the lookups in them

`GetProgress` reads `learner_prs_` with `operator[]`, so a lookup of an id in
neither map makes it a learner. The maps therefore change exactly by the ids
that are looked up: `lookups` lists them for each call, `LooksUp` says what they
do to the two key sets, and the calls compose by appending their lists.
-/

namespace Anraft

namespace Raft

variable {u : Unspecified} {r r' r'' : Raft} {ids ids' : List UInt64}

/-- A member, voting or learning. -/
def IsMember (r : Raft) (id : UInt64) : Prop := id ∈ r.prs ∨ id ∈ r.learnerPrs

instance (r : Raft) (id : UInt64) : Decidable (r.IsMember id) :=
  inferInstanceAs (Decidable (_ ∨ _))

/-- Both maps have the keys they had. -/
structure SameMembers (r r' : Raft) : Prop where
  prs : ∀ i, i ∈ r'.prs ↔ i ∈ r.prs
  learnerPrs : ∀ i, i ∈ r'.learnerPrs ↔ i ∈ r.learnerPrs

theorem SameMembers.refl (r : Raft) : SameMembers r r := ⟨fun _ => Iff.rfl, fun _ => Iff.rfl⟩

theorem SameMembers.trans (h : SameMembers r r') (h' : SameMembers r' r'') :
    SameMembers r r'' where
  prs i := (h'.prs i).trans (h.prs i)
  learnerPrs i := (h'.learnerPrs i).trans (h.learnerPrs i)

theorem SameMembers.symm (h : SameMembers r r') : SameMembers r' r where
  prs i := (h.prs i).symm
  learnerPrs i := (h.learnerPrs i).symm

/-- The effect of looking up `ids` on the keys: the strangers become learners. -/
structure LooksUp (r : Raft) (ids : List UInt64) (r' : Raft) : Prop where
  prs : ∀ i, i ∈ r'.prs ↔ i ∈ r.prs
  learnerPrs : ∀ i, i ∈ r'.learnerPrs ↔ i ∈ r.learnerPrs ∨ (i ∈ ids ∧ i ∉ r.prs)

namespace LooksUp

/-- A call that leaves both maps alone looks nothing up. -/
theorem of_eq (hprs : r'.prs = r.prs) (hlearner : r'.learnerPrs = r.learnerPrs) :
    LooksUp r [] r' where
  prs i := by rw [hprs]
  learnerPrs i := by simp [hlearner]

theorem refl (r : Raft) : LooksUp r [] r := of_eq rfl rfl

theorem of_sameMembers (h : SameMembers r r') : LooksUp r [] r' where
  prs := h.prs
  learnerPrs i := by simp [h.learnerPrs i]

theorem trans (h : LooksUp r ids r') (h' : LooksUp r' ids' r'') :
    LooksUp r (ids ++ ids') r'' where
  prs i := (h'.prs i).trans (h.prs i)
  learnerPrs i := by
    rw [h'.learnerPrs, h.learnerPrs, h.prs, List.mem_append]
    tauto

/-- Only the set of ids matters. -/
theorem congr_ids (hids : ∀ i, i ∈ ids ↔ i ∈ ids') (h : LooksUp r ids r') :
    LooksUp r ids' r' where
  prs := h.prs
  learnerPrs i := by rw [h.learnerPrs, hids]

theorem nil_trans (h : LooksUp r [] r') (h' : LooksUp r' ids r'') : LooksUp r ids r'' :=
  h.trans h'

/-- A call made after both maps were left alone. -/
theorem after_eq (h : LooksUp r' ids r'') (hprs : r'.prs = r.prs)
    (hlearner : r'.learnerPrs = r.learnerPrs) : LooksUp r ids r'' :=
  (of_eq hprs hlearner).nil_trans h

theorem trans_nil (h : LooksUp r ids r') (h' : LooksUp r' [] r'') : LooksUp r ids r'' :=
  List.append_nil ids ▸ h.trans h'

/-- Voting members are found in the first map. -/
theorem of_mem_prs {id : UInt64} (hid : id ∈ r.prs) (h : LooksUp r ids r') :
    LooksUp r (id :: ids) r' where
  prs := h.prs
  learnerPrs i := by
    rw [h.learnerPrs, List.mem_cons]
    constructor
    · rintro (hi | ⟨hi, hne⟩)
      · exact .inl hi
      · exact .inr ⟨.inr hi, hne⟩
    · rintro (hi | ⟨rfl | hi, hne⟩)
      · exact .inl hi
      · exact absurd hid hne
      · exact .inr ⟨hi, hne⟩

/-- The keys stay the same exactly when every id looked up is a member. -/
theorem sameMembers_iff (h : LooksUp r ids r') :
    SameMembers r r' ↔ ∀ id ∈ ids, r.IsMember id := by
  constructor
  · intro hsame id hid
    by_cases hprs : id ∈ r.prs
    · exact .inl hprs
    · exact .inr ((hsame.learnerPrs id).mp ((h.learnerPrs id).mpr (.inr ⟨hid, hprs⟩)))
  · intro hmem
    refine ⟨h.prs, fun i => ?_⟩
    rw [h.learnerPrs]
    constructor
    · rintro (hi | ⟨hi, hne⟩)
      · exact hi
      · exact (hmem i hi).resolve_left hne
    · intro hi
      exact .inl hi

/-- No lookup removes a learner. -/
theorem mem_learnerPrs (h : LooksUp r ids r') {i : UInt64} (hi : i ∈ r.learnerPrs) :
    i ∈ r'.learnerPrs :=
  (h.learnerPrs i).mpr (.inl hi)

end LooksUp

/-! ## Single lookups and messages to one node -/

theorem getProgress_looksUp (r : Raft) (id : UInt64) : LooksUp r [id] (r.getProgress id).2 := by
  unfold getProgress
  split
  · next hmem => exact .of_mem_prs hmem (.refl r)
  · next hmem =>
      refine ⟨fun _ => Iff.rfl, fun i => ?_⟩
      show i ∈ r.learnerPrs.insertIfNew id {} ↔ _
      rw [Std.TreeMap.mem_insertIfNew, compare_eq_iff_eq, List.mem_singleton]
      constructor
      · rintro (rfl | hi)
        · exact .inr ⟨rfl, hmem⟩
        · exact .inl hi
      · rintro (hi | ⟨rfl, -⟩)
        · exact .inr hi
        · exact .inl rfl

/-- The pointer is never null: a stranger is not reported as one. -/
theorem getProgress_ne_none (r : Raft) (id : UInt64) : (r.getProgress id).1 ≠ none := by
  unfold getProgress
  split <;> exact Option.some_ne_none _

theorem modifyProgress_looksUp (r : Raft) (ptr : ProgressPtr) (f : Progress → Progress) :
    LooksUp r [] (r.modifyProgress ptr f) := by
  cases ptr with
  | prs id => exact .of_sameMembers ⟨fun _ => Std.TreeMap.mem_modify, fun _ => Iff.rfl⟩
  | learnerPrs id => exact .of_sameMembers ⟨fun _ => Iff.rfl, fun _ => Std.TreeMap.mem_modify⟩

theorem sendAppend_looksUp (u : Unspecified) (r : Raft) (dst : UInt64) :
    LooksUp r [dst] (r.sendAppend u dst) := by
  have hget := getProgress_looksUp r dst
  unfold sendAppend
  split
  · next heq => rwa [heq] at hget
  · next heq =>
      rw [heq] at hget
      dsimp only
      split
      · exact hget
      · exact ⟨hget.prs, hget.learnerPrs⟩

/-! ## Broadcasts -/

/-- A broadcast of a node with id zero looks that id up once for each member; with any
other id the assignment in its test makes it return at once. -/
def bcastLookups (r : Raft) : List UInt64 :=
  if r.id ≠ 0 ∨ (r.prs.toList = [] ∧ r.learnerPrs.toList = []) then [] else [r.id]

theorem bcastLookups_congr (hid : r'.id = r.id) (hprs : r'.prs = r.prs)
    (hlearner : r'.learnerPrs = r.learnerPrs) : r'.bcastLookups = r.bcastLookups := by
  unfold bcastLookups
  rw [hid, hprs, hlearner]

/-- What the loop of a broadcast does for one member. -/
def bcastVisit (u : Unspecified) (r : Raft) : Raft :=
  if r.id ≠ 0 then r else r.sendAppend u r.id

theorem bcastVisit_id (u : Unspecified) (r : Raft) : (r.bcastVisit u).id = r.id := by
  unfold bcastVisit
  split
  · rfl
  · exact (sendAppend_sendsOnly u r r.id).noElection.id

theorem bcastVisit_looksUp (u : Unspecified) (r : Raft) :
    LooksUp r (if r.id ≠ 0 then [] else [r.id]) (r.bcastVisit u) := by
  unfold bcastVisit
  split
  · exact .refl r
  · exact sendAppend_looksUp u r r.id

theorem bcastVisits_id (u : Unspecified) (xs : List (UInt64 × Progress)) (r : Raft) :
    (xs.foldl (fun r _ => r.bcastVisit u) r).id = r.id := by
  induction xs generalizing r with
  | nil => rfl
  | cons x xs ih => exact (ih _).trans (bcastVisit_id u r)

theorem bcastVisits_looksUp (u : Unspecified) (xs : List (UInt64 × Progress)) (r : Raft) :
    LooksUp r (if r.id ≠ 0 ∨ xs = [] then [] else [r.id])
      (xs.foldl (fun r _ => r.bcastVisit u) r) := by
  induction xs generalizing r with
  | nil => simpa using LooksUp.refl r
  | cons x xs ih =>
      have htail := ih (r.bcastVisit u)
      rw [bcastVisit_id] at htail
      refine .congr_ids (fun i => ?_) ((bcastVisit_looksUp u r).trans htail)
      by_cases hzero : r.id = 0 <;> by_cases hxs : xs = [] <;> simp [hzero, hxs]

theorem bcastAppend_looksUp (u : Unspecified) (r : Raft) :
    LooksUp r r.bcastLookups (r.bcastAppend u) := by
  let r₁ := r.prs.toList.foldl (fun r _ => r.bcastVisit u) r
  have hprs : LooksUp r (if r.id ≠ 0 ∨ r.prs.toList = [] then [] else [r.id]) r₁ :=
    bcastVisits_looksUp u r.prs.toList r
  have hlearner := bcastVisits_looksUp u r₁.learnerPrs.toList r₁
  rw [bcastVisits_id u r.prs.toList r] at hlearner
  refine .congr_ids (fun i => ?_) (hprs.trans hlearner)
  unfold bcastLookups
  by_cases hzero : r.id = 0
  · by_cases hnil : r.prs.toList = []
    · -- nothing was sent to the voters, so the learners are those of the start
      have hsame : r₁ = r := by
        show r.prs.toList.foldl _ r = r
        rw [hnil]
        rfl
      simp [hsame, hzero, hnil]
    · by_cases hlearners : r₁.learnerPrs.toList = [] <;> simp [hzero, hnil, hlearners]
  · simp [hzero]

/-! ## The step functions -/

theorem maybeCommit_looksUp (u : Unspecified) (r : Raft) : LooksUp r [] (r.maybeCommit u).2 :=
  .of_eq rfl rfl

theorem raised_looksUp (r : Raft) (msg : Message) : LooksUp r [msg.from_] (r.raised msg) := by
  have hget := getProgress_looksUp r msg.from_
  unfold getProgress at hget
  unfold raised
  split
  · next hmem =>
      rw [if_pos hmem] at hget
      exact hget.trans_nil (modifyProgress_looksUp r (.prs msg.from_) _)
  · next hmem =>
      rw [if_neg hmem] at hget
      exact hget.trans_nil (modifyProgress_looksUp _ (.learnerPrs msg.from_) _)

theorem updateProgress_looksUp (r : Raft) (id : UInt64) (f : Progress → Progress) :
    LooksUp r [id] (r.updateProgress id f) := by
  have hget := getProgress_looksUp r id
  unfold updateProgress
  split
  · next heq => rwa [heq] at hget
  · next heq =>
      rw [heq] at hget
      exact hget.trans_nil (modifyProgress_looksUp _ _ _)

theorem appendEntry_looksUp (u : Unspecified) (r : Raft) (entries : List LogEntry) :
    LooksUp r [r.id] (r.appendEntry u entries) := by
  obtain ⟨ents, heq⟩ := appendEntry_eq u r entries
  rw [heq]
  refine .trans_nil ?_ (maybeCommit_looksUp u _)
  exact .after_eq (updateProgress_looksUp _ r.id _) rfl rfl

theorem handleAppendEntries_looksUp (u : Unspecified) (r : Raft) (msg : Message) :
    LooksUp r [] (r.handleAppendEntries u msg) := by
  obtain ⟨msgs, heq⟩ := handleAppendEntries_eq u r msg
  rw [heq]
  exact .of_eq rfl rfl

/-- Without an acknowledgement only the sender is looked up. -/
theorem stepLeaderProgress_looksUp (u : Unspecified) (r : Raft) (msg : Message)
    (hack : msg.type = .msgAppResp → msg.reject = true) :
    LooksUp r [msg.from_] (r.stepLeaderProgress u msg).2 := by
  have hget := getProgress_looksUp r msg.from_
  unfold stepLeaderProgress
  split
  · next heq => rwa [heq] at hget
  · next heq =>
      rw [heq] at hget
      split
      · next happ =>
          rw [if_pos (hack happ)]
          exact hget
      · exact hget

/-- The ids `StepLeader` passes to `GetProgress`. -/
def leaderLookups (u : Unspecified) (r : Raft) (msg : Message) : List UInt64 :=
  match msg.type with
  | .msgProp => if r.id ∉ r.prs ∨ r.leadTransferee ≠ 0 then [] else [r.id, msg.from_]
  | .msgAppResp =>
    msg.from_ ::
      if msg.reject = false ∧ ((r.raised msg).maybeCommit u).1 then (r.raised msg).bcastLookups
      else []
  | _ => [msg.from_]

theorem stepLeader_looksUp_msgProp {msg : Message} (htype : msg.type = .msgProp) :
    LooksUp r (r.leaderLookups u msg) (r.stepLeader u msg).2 := by
  unfold leaderLookups
  simp only [htype]
  by_cases hdropped : r.id ∉ r.prs ∨ r.leadTransferee ≠ 0
  · rw [if_pos hdropped, stepLeader_dropped htype hdropped]
    exact .refl r
  · obtain ⟨hmember, htransfer⟩ := not_or.mp hdropped
    rw [if_neg hdropped, stepLeader_taken htype (not_not.mp hmember) (not_not.mp htransfer)]
    have happend := appendEntry_looksUp u r msg.entries
    have hid : (r.appendEntry u msg.entries).id = r.id := (appendEntry_noElection u r _).id
    generalize r.appendEntry u msg.entries = r₁ at happend hid ⊢
    have hbcast := happend.trans (bcastAppend_looksUp u r₁)
    refine .congr_ids (fun i => ?_)
      (hbcast.trans (stepLeaderProgress_looksUp u _ msg (by simp [htype])))
    -- the broadcast of the node looks up nothing but the node itself
    have hself : i ∈ r₁.bcastLookups → i = r.id := by
      unfold bcastLookups
      rw [hid]
      split
      · exact fun h => absurd h List.not_mem_nil
      · exact List.mem_singleton.mp
    simp only [List.mem_append, List.mem_cons, List.not_mem_nil, or_false]
    tauto

theorem stepLeader_looksUp_ack {msg : Message} (htype : msg.type = .msgAppResp)
    (haccept : msg.reject = false) :
    LooksUp r (r.leaderLookups u msg) (r.stepLeader u msg).2 := by
  have hcommit := (raised_looksUp r msg).trans_nil (maybeCommit_looksUp u _)
  simp only [leaderLookups, htype, haccept, true_and]
  rw [stepLeader_ack_eq htype haccept]
  split
  · -- the commit rule writes the log alone
    have hsame : ∀ r : Raft, (r.maybeCommit u).2.bcastLookups = r.bcastLookups :=
      fun _ => bcastLookups_congr rfl rfl rfl
    rw [← hsame]
    exact hcommit.trans (bcastAppend_looksUp u _)
  · exact hcommit

theorem stepLeader_looksUp (u : Unspecified) (r : Raft) (msg : Message) :
    LooksUp r (r.leaderLookups u msg) (r.stepLeader u msg).2 := by
  by_cases hprop : msg.type = .msgProp
  · exact stepLeader_looksUp_msgProp hprop
  by_cases hack : msg.type = .msgAppResp ∧ msg.reject = false
  · exact stepLeader_looksUp_ack hack.1 hack.2
  have hack : msg.type = .msgAppResp → msg.reject = true := fun htype =>
    (Bool.eq_false_or_eq_true msg.reject).resolve_right fun hreject => hack ⟨htype, hreject⟩
  have hids : r.leaderLookups u msg = [msg.from_] := by
    unfold leaderLookups
    split
    · next h => exact absurd h hprop
    · next h => simp [hack h]
    · rfl
  rw [hids]
  unfold stepLeader
  split
  · refine .nil_trans ?_ (stepLeaderProgress_looksUp u _ msg hack)
    split
    · exact .refl r
    · exact .of_eq rfl rfl
  · next h => exact absurd h hprop
  · exact stepLeaderProgress_looksUp u r msg hack

/-- The ids `StepCandidate` passes to `GetProgress`: those of the broadcast of a node
that has just been elected. -/
def candidateLookups (u : Unspecified) (r : Raft) (msg : Message) : List UInt64 :=
  if isVoteResp msg.type ∧ r.CountsAsElected u msg ∧ r.state ≠ .statePreCandidate then
    r.bcastLookups
  else []

theorem stepCandidate_looksUp (u : Unspecified) (r : Raft) (msg : Message) :
    LooksUp r (r.candidateLookups u msg) (r.stepCandidate u msg).2 := by
  unfold candidateLookups
  by_cases hresp : isVoteResp msg.type = true
  · rw [stepCandidate_of_voteResp hresp]
    by_cases helected : r.CountsAsElected u msg
    · by_cases hpre : r.state = .statePreCandidate
      · simp only [helected, hpre, ne_eq, not_true_eq_false, and_false, if_true, if_false]
        exact .of_eq rfl rfl
      · simp only [hresp, helected, hpre, ne_eq, not_false_eq_true, and_self, if_true, if_false]
        have hprs : ((r.polled msg).becomeLeader u).prs = r.prs := rfl
        have hlearner : ((r.polled msg).becomeLeader u).learnerPrs = r.learnerPrs := rfl
        have hid : ((r.polled msg).becomeLeader u).id = r.id := rfl
        generalize (r.polled msg).becomeLeader u = r₁ at hprs hlearner hid ⊢
        rw [← bcastLookups_congr hid hprs hlearner]
        exact .after_eq (bcastAppend_looksUp u r₁) hprs hlearner
    · simp only [helected, false_and, and_false, if_false]
      exact .of_eq rfl rfl
  · rw [stepCandidate_of_not_voteResp hresp]
    simpa [hresp] using LooksUp.refl r

/-- The ids `Step` passes to `GetProgress`. -/
def stepLookups (u : Unspecified) (r : Raft) (msg : Message) : List UInt64 :=
  if isHandledByStep msg.type then []
  else
    match r.stepFunc with
    | .stepFollower => []
    | .stepCandidate => r.candidateLookups u msg
    | .stepLeader => r.leaderLookups u msg

theorem stepFollower_looksUp (u : Unspecified) (r : Raft) (msg : Message) :
    LooksUp r [] (r.stepFollower u msg).2 := by
  unfold stepFollower
  split
  · exact .after_eq (handleAppendEntries_looksUp u _ msg) rfl rfl
  · exact .refl r

/-- **What `Step` does to the maps.** -/
theorem step_looksUp (u : Unspecified) (r : Raft) (msg : Message) :
    LooksUp r (r.stepLookups u msg) (r.step u msg).2 := by
  unfold stepLookups
  apply step_elim u r msg
  · intro hhandled
    rw [if_pos hhandled]
    exact .refl r
  · intro htype _ _
    obtain ⟨msgs, heq⟩ := campaign_eq_becomeCandidate u r
    rw [if_pos (by simp [isHandledByStep, htype]), heq]
    exact .of_eq rfl rfl
  · intro htype _ _
    rw [if_pos (by simp [isHandledByStep, htype])]
    exact .of_eq rfl rfl
  · intro hrest hfunc
    rw [hrest, hfunc, if_neg Bool.false_ne_true]
    exact stepFollower_looksUp u r msg
  · intro hrest hfunc
    rw [hrest, hfunc, if_neg Bool.false_ne_true]
    exact stepCandidate_looksUp u r msg
  · intro hrest hfunc
    rw [hrest, hfunc, if_neg Bool.false_ne_true]
    exact stepLeader_looksUp u r msg

/-! ## `Tick` -/

/-- On a tick the leader looks up the sender of the message, which is the node itself. -/
theorem stepLookups_of_leaderTickMsg {msg : Message} (h : isLeaderTickMsg msg.type) :
    r.stepLookups u msg = if r.stepFunc = .stepLeader then [msg.from_] else [] := by
  have htype : msg.type = .msgCheckQuorum ∨ msg.type = .msgBeat := by
    simpa [isLeaderTickMsg] using h
  unfold stepLookups candidateLookups leaderLookups
  rcases htype with htype | htype <;>
    cases r.stepFunc <;> simp [htype, isHandledByStep, isVoteResp]

/-- Any other node ignores it. -/
theorem step_of_leaderTickMsg (u : Unspecified) (r : Raft) (msg : Message)
    (h : isLeaderTickMsg msg.type) (hfunc : r.stepFunc ≠ .stepLeader) : (r.step u msg).2 = r := by
  have htype : msg.type = .msgCheckQuorum ∨ msg.type = .msgBeat := by
    simpa [isLeaderTickMsg] using h
  unfold step
  rcases htype with htype | htype <;>
    cases hstep : r.stepFunc <;>
      first | exact absurd hstep hfunc | simp [htype, stepFollower, stepCandidate]

/-- The leader's timers: the check of the quorum, or the heartbeat. -/
def tickLookups (r : Raft) : List UInt64 :=
  if r.tickFunc = .tickHeatbeat ∧ r.stepFunc = .stepLeader ∧
      ((r.electionElapsed + 1 > r.electionTimeout ∧ r.checkQuorum) ∨
        (r.state = .stateLeader ∧ r.heartbeatElapsed + 1 > r.heartbeatTimeout)) then [r.id]
  else []

theorem tickElection_looksUp (u : Unspecified) (r : Raft) : LooksUp r [] (r.tickElection u) := by
  unfold tickElection
  dsimp only
  split
  · have hstep := step_looksUp u ({ r with electionElapsed := 0 }.record .hup)
      { type := .msgHup, from_ := r.id }
    exact .after_eq hstep rfl rfl
  · exact .of_eq rfl rfl

/-- The first half of `TickHeatbeat`: the counters and the check of the quorum. -/
def quorumChecked (u : Unspecified) (r : Raft) : Raft :=
  let r := { r with
    electionElapsed := r.electionElapsed + 1
    heartbeatElapsed := r.heartbeatElapsed + 1 }
  if r.electionElapsed > r.electionTimeout then
    let r := { r with electionElapsed := 0 }
    if r.checkQuorum then (r.step u { type := .msgCheckQuorum, from_ := r.id }).2 else r
  else r

/-- The second half of `TickHeatbeat`: the heartbeat of a leader. -/
def heartbeaten (u : Unspecified) (r : Raft) : Raft :=
  if r.state ≠ .stateLeader then r
  else if r.heartbeatElapsed > r.heartbeatTimeout then
    let r := { r with heartbeatElapsed := r.heartbeatElapsed + 1 }
    let r := r.record .beat
    (r.step u { type := .msgBeat, from_ := r.id }).2
  else r

theorem tickHeatbeat_eq (u : Unspecified) (r : Raft) :
    r.tickHeatbeat u = (r.quorumChecked u).heartbeaten u := rfl

theorem heartbeaten_looksUp (u : Unspecified) (r : Raft) :
    LooksUp r
      (if r.stepFunc = .stepLeader ∧ r.state = .stateLeader ∧
        r.heartbeatElapsed > r.heartbeatTimeout then [r.id] else [])
      (r.heartbeaten u) := by
  unfold heartbeaten
  by_cases hstate : r.state = .stateLeader
  · by_cases hdue : r.heartbeatElapsed > r.heartbeatTimeout
    · have hstep := step_looksUp u
        ({ r with heartbeatElapsed := r.heartbeatElapsed + 1 }.record .beat)
        { type := .msgBeat, from_ := r.id }
      rw [stepLookups_of_leaderTickMsg rfl] at hstep
      have hiff : (r.stepFunc = .stepLeader ∧ r.state = .stateLeader ∧
          r.heartbeatElapsed > r.heartbeatTimeout) ↔ r.stepFunc = .stepLeader :=
        and_iff_left ⟨hstate, hdue⟩
      rw [if_neg (not_not.mpr hstate), if_pos hdue]
      simp only [hiff]
      exact .after_eq hstep rfl rfl
    · simpa [hstate, hdue] using LooksUp.refl r
  · simpa [hstate] using LooksUp.refl r

/-- Where the check of the quorum is not stepped by a leader, only counters change. -/
theorem quorumChecked_eq
    (h : ¬ (r.stepFunc = .stepLeader ∧ r.electionElapsed + 1 > r.electionTimeout ∧
      r.checkQuorum = true)) :
    ∃ elapsed, r.quorumChecked u =
      { r with electionElapsed := elapsed, heartbeatElapsed := r.heartbeatElapsed + 1 } := by
  unfold quorumChecked
  dsimp only
  split
  · next hdue =>
      split
      · next hcheck =>
          have hsame := step_of_leaderTickMsg u
            { r with electionElapsed := 0, heartbeatElapsed := r.heartbeatElapsed + 1 }
            { type := .msgCheckQuorum, from_ := r.id } rfl fun hfunc => h ⟨hfunc, hdue, hcheck⟩
          exact ⟨_, hsame⟩
      · exact ⟨_, rfl⟩
  · exact ⟨_, rfl⟩

theorem quorumChecked_looksUp
    (h : r.stepFunc = .stepLeader ∧ r.electionElapsed + 1 > r.electionTimeout ∧
      r.checkQuorum = true) :
    LooksUp r [r.id] (r.quorumChecked u) ∧ (r.quorumChecked u).id = r.id := by
  obtain ⟨hfunc, hdue, hcheck⟩ := h
  have hstep := step_looksUp u
    { r with electionElapsed := 0, heartbeatElapsed := r.heartbeatElapsed + 1 }
    { type := .msgCheckQuorum, from_ := r.id }
  rw [stepLookups_of_leaderTickMsg rfl, if_pos hfunc] at hstep
  unfold quorumChecked
  dsimp only
  rw [if_pos hdue, if_pos hcheck]
  exact ⟨.after_eq hstep rfl rfl, (step_sameConfig u _ _).id⟩

theorem tickHeatbeat_looksUp (u : Unspecified) (r : Raft) (hfunc : r.tickFunc = .tickHeatbeat) :
    LooksUp r r.tickLookups (r.tickHeatbeat u) := by
  have hbeat := heartbeaten_looksUp u (r.quorumChecked u)
  rw [tickHeatbeat_eq]
  unfold tickLookups
  by_cases hcheck : r.stepFunc = .stepLeader ∧ r.electionElapsed + 1 > r.electionTimeout ∧
      r.checkQuorum = true
  · -- the node looks itself up at least once
    obtain ⟨hfirst, hid⟩ := quorumChecked_looksUp (u := u) hcheck
    rw [hid] at hbeat
    refine .congr_ids (fun i => ?_) (hfirst.trans hbeat)
    have hdue : r.tickFunc = .tickHeatbeat ∧ r.stepFunc = .stepLeader ∧
        ((r.electionElapsed + 1 > r.electionTimeout ∧ r.checkQuorum = true) ∨
          (r.state = .stateLeader ∧ r.heartbeatElapsed + 1 > r.heartbeatTimeout)) :=
      ⟨hfunc, hcheck.1, .inl hcheck.2⟩
    rw [if_pos hdue]
    split <;> simp
  · obtain ⟨elapsed, heq⟩ := quorumChecked_eq (u := u) hcheck
    rw [heq] at hbeat ⊢
    refine .congr_ids (fun i => ?_) (.after_eq hbeat rfl rfl)
    have hiff : (r.stepFunc = .stepLeader ∧ r.state = .stateLeader ∧
        r.heartbeatElapsed + 1 > r.heartbeatTimeout) ↔
        (r.tickFunc = .tickHeatbeat ∧ r.stepFunc = .stepLeader ∧
          ((r.electionElapsed + 1 > r.electionTimeout ∧ r.checkQuorum = true) ∨
            (r.state = .stateLeader ∧ r.heartbeatElapsed + 1 > r.heartbeatTimeout))) := by
      tauto
    simp only [hiff]

/-- **What `Tick` does to the maps.** -/
theorem tick_looksUp (u : Unspecified) (r : Raft) : LooksUp r r.tickLookups (r.tick u) := by
  unfold tick
  dsimp only
  split
  · next hfunc =>
      have hids : r.tickLookups = [] := by
        have hfunc : r.tickFunc = .tickElection := hfunc
        simp [tickLookups, hfunc]
      rw [hids]
      exact .after_eq (tickElection_looksUp u (r.record .tick)) rfl rfl
  · next hfunc => exact .after_eq (tickHeatbeat_looksUp u (r.record .tick) hfunc) rfl rfl

end Raft

end Anraft
