import Anraft.Election.VoteSafety
import Anraft.Replication.AppendReplies
import Anraft.Replication.Transmission

/-!
# The term of an outgoing message

`Send` fills in the sender and nothing else, so the term of a message is what the
place that builds it writes there: the term of the candidate in `Campaign`, the
term of a log entry in `SendAppend`, nothing in `SendHeartbeat` and
`HandleAppendEntries`. A message without a term is a local one to its receiver.
-/

namespace Anraft

namespace Raft

variable {u : Unspecified} {r : Raft} {dst : UInt64} {msg : Message}

/-- The operations that queue messages; of `Step` the branch for a request for a vote. -/
inductive SendingCall where
  | campaign (t : CampaignType)
  | sendAppend (dst : UInt64)
  | sendHeartbeat (dst : UInt64) (ctx : Bytes)
  | handleAppendEntries (msg : Message)
  | vote (msg : Message) (htype : msg.type = .msgVote ∨ msg.type = .msgPreVote)

namespace SendingCall

def perform (u : Unspecified) (r : Raft) : SendingCall → Raft
  | .campaign t => r.campaign u t
  | .sendAppend dst => r.sendAppend u dst
  | .sendHeartbeat dst ctx => r.sendHeartbeat u dst ctx
  | .handleAppendEntries msg => r.handleAppendEntries u msg
  | .vote msg _ => (r.step u msg).2

/-- The request a message of the call may be the answer to. -/
def request : SendingCall → Option Message
  | .vote msg _ => some msg
  | _ => none

end SendingCall

/-- The term a message has to carry: that of the sender; for an answer to a request
for a pre-vote, the term of the request. Such a request names its own term. -/
def CarriesTerm (term : UInt64) (request : Option Message) (msg : Message) : Prop :=
  match msg.type with
  | .msgPreVote => True
  | .msgPreVoteResp => ∃ req, request = some req ∧ msg.term = req.term
  | _ => msg.term = term

/-- Every message the call adds names its sender, does not look like a local one, and
carries the term of the sender. -/
def SendsOwnTerm (u : Unspecified) (r : Raft) (c : SendingCall) : Prop :=
  ∃ added, (c.perform u r).msgs = r.msgs ++ added ∧
    ∀ m ∈ added, m.from_ = r.id ∧ m.term ≠ 0 ∧
      CarriesTerm (c.perform u r).term c.request m

/-- * a campaign for an election or a transfer always fits; one for a pre-election
  sends what its uninitialised variables hold, if it sends at all;
* `SendAppend` fits if it sends nothing, or if it can read the log and the entry
  before Next is of the current term;
* a heartbeat and a reply to a `MsgApp` never fit;
* a request for a vote is not answered. -/
def TermFits (u : Unspecified) (r : Raft) : SendingCall → Prop
  | .campaign .campaignPreElection =>
    u.pollSelf = false → (∃ i ∈ r.prs, i ≠ r.id) →
      u.campaignTerm ≠ 0 ∧
        CarriesTerm r.term none { type := u.campaignType, term := u.campaignTerm }
  | .campaign _ => True
  | .sendAppend dst =>
    (r.progressOf dst).isPaused = true ∨
      (r.entriesError u (r.progressOf dst).next = .errNone ∧
        r.raftlog.term u.toUnwritten ((r.progressOf dst).next - 1) = (.errNone, r.term))
  | .sendHeartbeat .. => False
  | .handleAppendEntries _ => False
  | .vote .. => True

/-- The messages added are determined by the queue. -/
theorem sendsOwnTerm_iff {c : SendingCall} {added : List Message}
    (h : (c.perform u r).msgs = r.msgs ++ added) :
    SendsOwnTerm u r c ↔ ∀ m ∈ added, m.from_ = r.id ∧ m.term ≠ 0 ∧
      CarriesTerm (c.perform u r).term c.request m := by
  constructor
  · rintro ⟨added', h', hall⟩
    obtain rfl := List.append_cancel_left (h.symm.trans h')
    exact hall
  · intro hall
    exact ⟨added, h, hall⟩

theorem sendsOwnTerm_of_nothing {c : SendingCall} (h : (c.perform u r).msgs = r.msgs) :
    SendsOwnTerm u r c :=
  ⟨[], by rw [h, List.append_nil], by simp⟩

/-! ## Campaigns -/

/-- What `Campaign` sends with the term and the type it has settled on. -/
def campaignRequests (u : Unspecified) (r : Raft) (term : UInt64) (type : MessageType) :
    List Message :=
  if u.pollSelf then []
  else (r.prs.toList.filter (·.1 ≠ r.id)).map fun x =>
    { type := type, to_ := x.1, from_ := r.id, term := term }

theorem mem_campaignRequests {term : UInt64} {type : MessageType} {m : Message}
    (h : m ∈ r.campaignRequests u term type) :
    m.type = type ∧ m.from_ = r.id ∧ m.term = term := by
  unfold campaignRequests at h
  split at h
  · exact absurd h List.not_mem_nil
  · obtain ⟨x, -, rfl⟩ := List.mem_map.mp h
    exact ⟨rfl, rfl, rfl⟩

/-- The second half of `Campaign`: `Poll()`, and the loop over the members. -/
theorem campaign_loop_msgs (u : Unspecified) (r : Raft) (term : UInt64) (type : MessageType) :
    (if r.quorum ≠ 0 ∧ u.pollSelf then r
      else r.prs.toList.foldl (fun r x =>
        if x.1 = r.id then r
        else r.send { term := term, to_ := x.1, type := type }) r).msgs =
      r.msgs ++ r.campaignRequests u term type := by
  have hquorum : r.quorum ≠ 0 := Nat.succ_ne_zero _
  unfold campaignRequests
  by_cases hpoll : u.pollSelf = true
  · rw [if_pos ⟨hquorum, hpoll⟩, if_pos hpoll, List.append_nil]
  · rw [if_neg fun h => hpoll h.2, if_neg hpoll]
    exact foldl_send_msgs _ _ _ _

theorem campaign_term (u : Unspecified) (r : Raft) (t : CampaignType) :
    (r.campaign u t).term = r.term := by
  have hloop : ∀ (term : UInt64) (type : MessageType) (r : Raft),
      (if r.quorum ≠ 0 ∧ u.pollSelf then r
        else r.prs.toList.foldl (fun r x =>
          if x.1 = r.id then r
          else r.send { term := term, to_ := x.1, type := type }) r).term = r.term := by
    intro term type r
    split
    · rfl
    · obtain ⟨msgs, heq⟩ := foldl_send_eq term type r.prs.toList r
      rw [heq]
  cases t with
  | campaignPreElection => exact hloop _ _ r
  | campaignElection => exact hloop _ _ (r.becomeCandidate u)
  | campaignTransfer => exact hloop _ _ (r.becomeCandidate u)

theorem campaign_msgs {t : CampaignType} (ht : t ≠ .campaignPreElection) :
    (r.campaign u t).msgs = r.msgs ++ r.campaignRequests u r.term .msgVote := by
  cases t with
  | campaignPreElection => exact absurd rfl ht
  | campaignElection => exact campaign_loop_msgs u (r.becomeCandidate u) r.term .msgVote
  | campaignTransfer => exact campaign_loop_msgs u (r.becomeCandidate u) r.term .msgVote

theorem campaign_sendsOwnTerm {t : CampaignType} (ht : t ≠ .campaignPreElection)
    (hterm : 1 ≤ r.term) : SendsOwnTerm u r (.campaign t) := by
  refine ⟨_, campaign_msgs ht, fun m hm => ?_⟩
  obtain ⟨htype, hfrom, hm⟩ := mem_campaignRequests hm
  refine ⟨hfrom, ?_, ?_⟩
  · rw [hm]
    rintro hzero
    rw [hzero] at hterm
    exact absurd hterm (by decide)
  · show CarriesTerm (r.campaign u t).term none m
    unfold CarriesTerm
    rw [htype, campaign_term]
    exact hm

theorem preElection_sendsOwnTerm_iff :
    SendsOwnTerm u r (.campaign .campaignPreElection) ↔
      TermFits u r (.campaign .campaignPreElection) := by
  rw [sendsOwnTerm_iff (c := .campaign .campaignPreElection)
    (campaign_loop_msgs u r u.campaignTerm u.campaignType)]
  constructor
  · rintro h hpoll ⟨i, hi, hne⟩
    obtain ⟨p, hp⟩ := Option.isSome_iff_exists.mp (Std.TreeMap.mem_iff_isSome_getElem?.mp hi)
    have hmem : ({ type := u.campaignType, to_ := i, from_ := r.id, term := u.campaignTerm } :
        Message) ∈ r.campaignRequests u u.campaignTerm u.campaignType := by
      unfold campaignRequests
      rw [if_neg (by rw [hpoll]; exact Bool.false_ne_true)]
      refine List.mem_map.mpr ⟨(i, p), List.mem_filter.mpr ⟨?_, by simpa using hne⟩, rfl⟩
      exact Std.TreeMap.mem_toList_iff_getElem?_eq_some.mpr hp
    obtain ⟨-, hzero, hcarries⟩ := h _ hmem
    refine ⟨hzero, ?_⟩
    rw [SendingCall.perform, campaign_term] at hcarries
    exact hcarries
  · intro h m hm
    unfold campaignRequests at hm
    split at hm
    · exact absurd hm List.not_mem_nil
    · next hpoll =>
        obtain ⟨⟨i, p⟩, hx, rfl⟩ := List.mem_map.mp hm
        obtain ⟨hx, hne⟩ := List.mem_filter.mp hx
        have hi : i ∈ r.prs := Std.TreeMap.mem_iff_isSome_getElem?.mpr
          (by rw [Std.TreeMap.mem_toList_iff_getElem?_eq_some.mp hx]; rfl)
        obtain ⟨hzero, hcarries⟩ := h (Bool.not_eq_true _ ▸ hpoll) ⟨i, hi, by simpa using hne⟩
        refine ⟨rfl, hzero, ?_⟩
        rw [SendingCall.perform, campaign_term]
        exact hcarries

/-! ## Appends, heartbeats, replies and votes -/

theorem sendAppend_term (u : Unspecified) (r : Raft) (dst : UInt64) :
    (r.sendAppend u dst).term = r.term :=
  (sendAppend_sendsOnly u r dst).noElection.term

theorem sendAppend_msgs_of_paused (hpaused : (r.progressOf dst).isPaused = true) :
    (r.sendAppend u dst).msgs = r.msgs := by
  obtain ⟨ptr, learnerPrs, hget, hpr⟩ := exists_getProgress r dst
  unfold sendAppend
  rw [hget]
  dsimp only
  rw [hpr, hpaused, if_pos rfl]

theorem sendAppend_sendsOwnTerm_iff (hterm : 1 ≤ r.term) :
    SendsOwnTerm u r (.sendAppend dst) ↔ TermFits u r (.sendAppend dst) := by
  have hne : r.term ≠ 0 := by
    rintro hzero
    rw [hzero] at hterm
    exact absurd hterm (by decide)
  by_cases hpaused : (r.progressOf dst).isPaused = true
  · exact iff_of_true (sendsOwnTerm_of_nothing (sendAppend_msgs_of_paused hpaused)) (.inl hpaused)
  rw [sendsOwnTerm_iff (c := .sendAppend dst)
    (sendAppend_msgs u (Bool.not_eq_true _ ▸ hpaused)), List.forall_mem_singleton]
  have hfits : TermFits u r (.sendAppend dst) ↔
      r.entriesError u (r.progressOf dst).next = .errNone ∧
        r.raftlog.term u.toUnwritten ((r.progressOf dst).next - 1) = (.errNone, r.term) :=
    or_iff_right hpaused
  rw [SendingCall.perform, sendAppend_term, hfits]
  by_cases hfail : (r.raftlog.term u.toUnwritten ((r.progressOf dst).next - 1)).1 ≠ .errNone ∨
      r.entriesError u (r.progressOf dst).next ≠ .errNone
  · have hmsg : r.appendMessage u dst = { to_ := dst, from_ := r.id } := if_pos hfail
    rw [hmsg]
    apply iff_of_false
    · rintro ⟨-, hzero, -⟩
      exact hzero rfl
    · rintro ⟨hentries, hlog⟩
      rcases hfail with h | h
      · exact h (congrArg Prod.fst hlog)
      · exact h hentries
  · have hmsg : (r.appendMessage u dst).from_ = r.id ∧ (r.appendMessage u dst).type = .msgApp ∧
        (r.appendMessage u dst).term =
          (r.raftlog.term u.toUnwritten ((r.progressOf dst).next - 1)).2 := by
      rw [appendMessage, if_neg hfail]
      exact ⟨rfl, rfl, rfl⟩
    obtain ⟨hfrom, htype, hlogTerm⟩ := hmsg
    obtain ⟨herr, hentries⟩ := not_or.mp hfail
    unfold CarriesTerm
    rw [htype, hlogTerm]
    constructor
    · rintro ⟨-, -, hcarries⟩
      exact ⟨not_not.mp hentries, Prod.ext (not_not.mp herr) hcarries⟩
    · rintro ⟨-, hlog⟩
      rw [hlog]
      exact ⟨hfrom, hne, rfl⟩

theorem heartbeat_not_sendsOwnTerm (ctx : Bytes) : ¬ SendsOwnTerm u r (.sendHeartbeat dst ctx) := by
  rw [sendsOwnTerm_iff (c := .sendHeartbeat dst ctx) rfl, List.forall_mem_singleton]
  rintro ⟨-, hzero, -⟩
  exact hzero rfl

theorem handleAppendEntries_not_sendsOwnTerm : ¬ SendsOwnTerm u r (.handleAppendEntries msg) := by
  have hmsgs := handleAppendEntries_msgs u r msg
  rw [List.append_assoc] at hmsgs
  rw [sendsOwnTerm_iff (c := .handleAppendEntries msg) hmsgs]
  intro h
  obtain ⟨-, hzero, -⟩ := h _ (List.mem_append_right _ (List.mem_singleton_self _))
  apply hzero
  split <;> rfl

theorem vote_sendsOwnTerm (htype : msg.type = .msgVote ∨ msg.type = .msgPreVote) :
    SendsOwnTerm u r (.vote msg htype) := by
  apply sendsOwnTerm_of_nothing
  show (r.step u msg).2.msgs = r.msgs
  rcases htype with htype | htype
  · rw [step_of_msgVote htype]
    split <;> rfl
  · rw [step_of_msgPreVote htype]

/-- **When outgoing messages carry the sender's term.** -/
theorem sends_own_term_iff (u : Unspecified) (r : Raft) (c : SendingCall) (hterm : 1 ≤ r.term) :
    SendsOwnTerm u r c ↔ TermFits u r c := by
  cases c with
  | campaign t =>
      cases t with
      | campaignPreElection => exact preElection_sendsOwnTerm_iff
      | campaignElection => exact iff_of_true (campaign_sendsOwnTerm nofun hterm) trivial
      | campaignTransfer => exact iff_of_true (campaign_sendsOwnTerm nofun hterm) trivial
  | sendAppend dst => exact sendAppend_sendsOwnTerm_iff hterm
  | sendHeartbeat dst ctx => exact iff_of_false (heartbeat_not_sendsOwnTerm ctx) not_false
  | handleAppendEntries msg => exact iff_of_false handleAppendEntries_not_sendsOwnTerm not_false
  | vote msg htype => exact iff_of_true (vote_sendsOwnTerm htype) trivial

/-- The append of a leader whose log ends with an entry of its own term. -/
theorem sends_own_term_iff_append :
    SendsOwnTerm .filledIn leaderOfThree (.sendAppend 2) :=
  (sends_own_term_iff .filledIn leaderOfThree (.sendAppend 2) (by decide)).mpr
    (.inr ⟨by decide, by decide⟩)

/-- A heartbeat of a leader in term 1 carries term zero. -/
theorem sends_own_term_fails :
    ¬ ∀ (u : Unspecified) (r : Raft) (c : SendingCall), 1 ≤ r.term → SendsOwnTerm u r c := by
  intro h
  obtain ⟨added, hmsgs, hall⟩ := h .filledIn leaderOfThree (.sendHeartbeat 2 []) (by decide)
  obtain rfl : [{ to_ := 2, from_ := 1, type := .msgHeartbeat }] = added := hmsgs
  exact (hall _ (List.mem_singleton_self _)).2.1 rfl

end Raft

end Anraft
