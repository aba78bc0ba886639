import Anraft.Base.Ballot
import Anraft.Cluster.Traffic
import Anraft.Election.Majority

/-!
# One node's part in a ballot

No node ever leaves the term it starts in, so no request is of a newer term, and a node
that has voted, for another or for itself, has no vote left. What `StepCandidate` asks for
is one answer more than a quorum, and it counts answers alone, never the candidate itself.
Where a node may step a message in its own name (`own`), one of the answers may be its own.
-/

namespace Anraft

namespace Cluster

open Raft

variable {members : Finset UInt64} {term i : UInt64} {u : Unspecified} {r r' : Raft} {msg : Message}
  {b b' : Ballot UInt64} {own : Bool}

/-! ## Requests -/

/-- The members know each other, and the requests they have queued are their own. -/
structure Asks (members : Finset UInt64) (term i : UInt64) (r : Raft) : Prop where
  node : IsNode members term i r
  requests : ∀ m ∈ r.msgs, m.type = .msgVote → IsRequest members term i m

theorem Asks.of_queues {P : Message → Prop} (h : Asks members term i r)
    (hnode : IsNode members term i r') (hqueues : Queues P r r')
    (hP : ∀ m, P m → m.type = .msgVote → IsRequest members term i m) : Asks members term i r' := by
  refine ⟨hnode, fun m hm htype => ?_⟩
  obtain ⟨sent, heq, hsent⟩ := hqueues
  rw [heq] at hm
  rcases List.mem_append.mp hm with hm | hm
  · exact h.requests m hm htype
  · exact hP m (hsent m hm) htype

theorem react_asks (h : Asks members term i r) (hi : i ≠ 0) (input : Input) :
    Asks members term i (r.react input) := by
  have hnode := h.node.of_sameConfig (react_sameConfig r input)
  cases input with
  | step u msg =>
      refine h.of_queues hnode (step_queues h.node hi u msg) ?_
      rintro m (hm | ⟨-, hm⟩) htype
      · exact hm
      · rw [hm] at htype
        cases htype
  | tick u => exact h.of_queues hnode (tick_queues h.node hi u) fun m hm _ => hm

/-! ## The part of one node in the ballot -/

theorem grants_snoc_of_ne {history : List Event} {e : Event} (he : ∀ m, e ≠ .grantVote m) :
    grants (history ++ [e]) = grants history := by
  rw [grants_append]
  cases e with
  | grantVote m => exact absurd rfl (he m)
  | _ => exact List.append_nil _

/-- What node `i` has cast, counted and won is on the ballot, its own vote apart. -/
structure Records (own : Bool) (members : Finset UInt64) (b : Ballot UInt64) (i : UInt64)
    (r : Raft) : Prop where
  cast : ∀ m ∈ grants r.history, b.support i = some m.from_ ∨ (own = true ∧ m.from_ = i)
  kept : ∀ x, b.support i = some x → x ∈ members ∧ (r.vote = x ∨ r.vote = i)
  granted : ∀ x, b.support i = some x → ∃ m ∈ grants r.history, m.from_ = x
  term : ∀ m ∈ grants r.history, r.term ≠ 0
  counted : ∀ v : UInt64, r.votes[v]? = some true → v ∈ b.counted i ∨ (own = true ∧ v = i)
  led : ∀ old, .becomeLeader old ∈ r.history → i ∈ b.elected
  leads : r.state = .stateLeader → ∃ old, .becomeLeader old ∈ r.history

theorem Joined.records (h : Joined members term i r) : Records own members .blank i r where
  cast := by simp [h.history, grants]
  kept := by simp [Ballot.blank]
  granted := by simp [Ballot.blank]
  term := by simp [h.history, grants]
  counted := by simp [h.votes]
  led := by simp [h.history]
  leads := by simp [h.state]

theorem Records.of_noElection (h : Records own members b i r) (hquiet : NoElection r r') :
    Records own members b i r' where
  cast m hm := h.cast m (hquiet.grants ▸ hm)
  kept x hx := hquiet.vote.symm ▸ h.kept x hx
  granted x hx := hquiet.grants.symm ▸ h.granted x hx
  term m hm := hquiet.term.symm ▸ h.term m (hquiet.grants ▸ hm)
  counted v hv := h.counted v (hquiet.votes ▸ hv)
  led old hold := by
    obtain ⟨es, heq, hes⟩ := hquiet.history
    rw [heq] at hold
    rcases List.mem_append.mp hold with hold | hold
    · exact h.led old hold
    · have hfalse := hes _ hold
      cases hfalse
  leads hstate := by
    rcases hquiet.role with ⟨-, hsame⟩ | ⟨-, hfollower⟩
    · obtain ⟨old, hold⟩ := h.leads (hsame.symm.trans hstate)
      obtain ⟨es, heq, -⟩ := hquiet.history
      exact ⟨old, heq ▸ List.mem_append_left es hold⟩
    · rw [hfollower] at hstate
      cases hstate

/-- A campaign forgets whom the node has voted for, and remembers that it has. -/
theorem Records.becomeCandidate (h : Records own members b i r) (hid : r.id = i) (u : Unspecified) :
    Records own members b i (r.becomeCandidate u) where
  cast m hm := h.cast m (grants_snoc_of_ne (e := .becomeCandidate r.state r.term) nofun ▸ hm)
  kept x hx := ⟨(h.kept x hx).1, .inr hid⟩
  granted x hx :=
    (grants_snoc_of_ne (e := .becomeCandidate r.state r.term) nofun).symm ▸ h.granted x hx
  term m hm := h.term m (grants_snoc_of_ne (e := .becomeCandidate r.state r.term) nofun ▸ hm)
  counted := h.counted
  led old hold := by
    rcases List.mem_append.mp hold with hold | hold
    · exact h.led old hold
    · cases List.mem_singleton.mp hold
  leads hstate := by cases hstate

theorem Records.campaign (h : Records own members b i r) (hid : r.id = i)
    (hsent : SendsOnly (r.becomeCandidate u) r') : Records own members b i r' :=
  (h.becomeCandidate hid u).of_noElection hsent.noElection

/-- The clock casts and counts no vote. -/
theorem Records.tick (h : Records own members b i r) (hid : r.id = i) (u : Unspecified) :
    Records own members b i (r.tick u) := by
  have hkept : (r.tick u).id = i ∧ Records own members b i (r.tick u) := by
    refine tick_preserves (Q := fun r => r.id = i ∧ Records own members b i r) ?_ ?_ ⟨hid, h⟩
    · rintro r₁ r₂ hquiet ⟨hid, hrecords⟩
      exact ⟨hquiet.id.trans hid, hrecords.of_noElection hquiet⟩
    · rintro r₁ m hm ⟨hid, hrecords⟩
      refine ⟨(step_sameConfig u r₁ m).id.trans hid, ?_⟩
      cases step_cases u r₁ m with
      | campaign _ hsent => exact hrecords.campaign hid hsent
      | grant htype =>
          rw [htype] at hm
          cases hm
      | voteResp hresp => exact absurd hresp (not_isVoteResp_of_isTickMsg hm)
      | quiet hquiet => exact hrecords.of_noElection hquiet
  exact hkept.2

/-! ### A vote is cast -/

/-- In term zero a request without an index is not granted: its term is not above any last
term. -/
theorem canVote_of_term_zero (hterm : msg.term = 0) (hindex : msg.index = 0) :
    r.canVote u msg = false := by
  have hold : r.raftlog.isUpToDate u.toUnwritten msg.index msg.term = false := by
    unfold RaftLog.isUpToDate
    rw [hterm, hindex]
    simp
  unfold canVote
  rw [hold, Bool.and_false]

/-- In its own term a node votes for one candidate only. -/
theorem Records.canVote_supported (h : Records own members b i r) (hmem : i ∈ members)
    (hzero : 0 ∉ members) (hterm : msg.term = r.term) (hne : msg.from_ ≠ i) {x : UInt64}
    (hx : b.support i = some x) (hvote : r.canVote u msg = true) : x = msg.from_ := by
  obtain ⟨hxmem, hkept⟩ := h.kept x hx
  have hcast : r.vote = 0 ∨ r.vote = msg.from_ := by
    unfold canVote at hvote
    rw [Bool.and_eq_true, hterm] at hvote
    simpa using hvote.1
  rcases hkept with hkept | hkept
  · rw [hkept] at hcast
    exact hcast.resolve_left fun heq => hzero (heq ▸ hxmem)
  · rw [hkept] at hcast
    rcases hcast with heq | heq
    · exact absurd (heq ▸ hmem) hzero
    · exact absurd heq.symm hne

/-- A vote is given away, and the ballot says so, or it is the node's own. -/
theorem Records.grant (h : Records own members b i r) (hterm : r.term ≠ 0)
    (hnew : b'.support i = some msg.from_ ∨ (own = true ∧ msg.from_ = i))
    (hkept : ∀ x, b.support i = some x → b'.support i = some x)
    (hsupport : ∀ x, b'.support i = some x →
      x ∈ members ∧ (msg.from_ = x ∨ (msg.from_ = i ∧ b.support i = some x)))
    (hcounted : b'.counted = b.counted) (helected : b'.elected = b.elected) :
    Records own members b' i
      ({ r with vote := msg.from_, electionElapsed := 0 }.record (.grantVote msg)) where
  cast m hm := by
    have hgrants : grants (r.history ++ [.grantVote msg]) = grants r.history ++ [msg] :=
      grants_append _ _
    have hm : m ∈ grants r.history ++ [msg] := hgrants ▸ hm
    rcases List.mem_append.mp hm with hm | hm
    · exact (h.cast m hm).imp_left (hkept m.from_)
    · rw [List.mem_singleton.mp hm]
      exact hnew
  kept x hx := by
    obtain ⟨hmem, hfrom⟩ := hsupport x hx
    exact ⟨hmem, hfrom.imp_right fun hown => hown.1⟩
  granted x hx := by
    have hgrants : grants (r.history ++ [.grantVote msg]) = grants r.history ++ [msg] :=
      grants_append _ _
    show ∃ m ∈ grants (r.history ++ [.grantVote msg]), m.from_ = x
    rw [hgrants]
    rcases (hsupport x hx).2 with hfrom | ⟨-, hold⟩
    · exact ⟨msg, List.mem_append_right _ (List.mem_singleton_self msg), hfrom⟩
    · obtain ⟨m, hm, hmx⟩ := h.granted x hold
      exact ⟨m, List.mem_append_left _ hm, hmx⟩
  term _ _ := hterm
  counted := by
    rw [hcounted]
    exact h.counted
  led old hold := by
    rw [helected]
    rcases List.mem_append.mp hold with hold | hold
    · exact h.led old hold
    · cases List.mem_singleton.mp hold
  leads hstate := by
    obtain ⟨old, hold⟩ := h.leads hstate
    exact ⟨old, List.mem_append_left _ hold⟩

/-! ### An answer is counted -/

theorem Records.polled (h : Records own members b i r)
    (hyes : msg.reject = false → msg.from_ ∈ b.counted i ∨ (own = true ∧ msg.from_ = i)) :
    Records own members b i (r.polled msg) where
  cast m hm := h.cast m
    (grants_snoc_of_ne (e := .poll msg.from_ msg.type !msg.reject) nofun ▸ hm)
  kept := h.kept
  granted x hx :=
    (grants_snoc_of_ne (e := .poll msg.from_ msg.type !msg.reject) nofun).symm ▸ h.granted x hx
  term m hm := h.term m
    (grants_snoc_of_ne (e := .poll msg.from_ msg.type !msg.reject) nofun ▸ hm)
  counted v hv := by
    have hv : (r.votes.insertIfNew msg.from_ !msg.reject)[v]? = some true := hv
    rw [Std.TreeMap.getElem?_insertIfNew] at hv
    split at hv
    · next hnew =>
        rw [← Std.LawfulEqCmp.compare_eq_iff_eq.mp hnew.1]
        apply hyes
        simpa using hv
    · exact h.counted v hv
  led old hold := by
    rcases List.mem_append.mp hold with hold | hold
    · exact h.led old hold
    · cases List.mem_singleton.mp hold
  leads hstate := by
    obtain ⟨old, hold⟩ := h.leads hstate
    exact ⟨old, List.mem_append_left _ hold⟩

/-- Those whose answers node `i` may have on its list. -/
def heard (own : Bool) (b : Ballot UInt64) (i : UInt64) : Finset UInt64 :=
  if own then insert i (b.counted i) else b.counted i

theorem mem_heard {v : UInt64} : v ∈ heard own b i ↔ v ∈ b.counted i ∨ (own = true ∧ v = i) := by
  cases own with
  | false => simp [heard]
  | true => simp [heard, or_comm]

/-- The votes of others that elect a candidate: a quorum and one more, or a quorum where the
one more may be its own. -/
def needed (own : Bool) (members : Finset UInt64) : ℕ := members.card / 2 + if own then 1 else 2

theorem needed_le_of_heard (h : members.card / 2 + 2 ≤ (heard own b i).card) :
    needed own members ≤ (b.counted i).card := by
  unfold heard at h
  unfold needed
  cases own with
  | false => exact h
  | true =>
      have hinsert := Finset.card_insert_le i (b.counted i)
      simp only [if_true] at h ⊢
      omega

/-- Two candidates cannot both have what is needed. -/
theorem card_lt_two_mul_needed (own : Bool) (members : Finset UInt64) :
    members.card < 2 * needed own members := by
  unfold needed
  split <;> omega

/-- The yes votes have been heard. -/
theorem Records.yesVotes_le (h : Records own members b i r) :
    yesVotes r.votes ≤ (heard own b i).card := by
  have hcount : yesVotes r.votes =
      ((heard own b i).filter fun v => r.votes[v]? = some true).card := by
    apply TreeMap.countP_toList_eq_card
    intro v
    rw [Finset.mem_filter]
    simp only [exists_eq_right]
    exact and_iff_right_of_imp fun hv => mem_heard.mpr (h.counted v hv)
  rw [hcount]
  exact Finset.card_filter_le _ _

/-- A campaign that is decided has heard one vote more than a quorum. -/
theorem Records.needed_le (h : Records own members b i (r.polled msg))
    (hnode : IsNode members term i r) (hgrant : u.grant ≤ 0) (hcounts : r.CountsAsElected u msg) :
    needed own members ≤ (b.counted i).card := by
  have hyes : yesVotes (r.votes.insertIfNew msg.from_ !msg.reject) ≤ (heard own b i).card :=
    h.yesVotes_le
  have hmore := countsAsElected_iff.mp hcounts
  rw [hnode.quorum] at hmore
  push_cast at hmore
  apply needed_le_of_heard
  omega

theorem Records.becomeLeader (h : Records own members b i r) (hmem : i ∈ b.elected)
    (u : Unspecified) : Records own members b i (r.becomeLeader u) where
  cast m hm := h.cast m (grants_snoc_of_ne (e := .becomeLeader r.state) nofun ▸ hm)
  kept := h.kept
  granted x hx := (grants_snoc_of_ne (e := .becomeLeader r.state) nofun).symm ▸ h.granted x hx
  term m hm := h.term m (grants_snoc_of_ne (e := .becomeLeader r.state) nofun ▸ hm)
  counted := h.counted
  led _ _ := hmem
  leads _ := ⟨r.state, List.mem_append_right _ (List.mem_singleton_self _)⟩

/-! ## The ballot goes on for the other nodes -/

theorem Records.cast_of_ne (h : Records own members b i r) {v x : UInt64} (hne : i ≠ v) :
    Records own members (b.cast v x) i r where
  cast m hm := by
    rw [Ballot.cast_support, if_neg hne]
    exact h.cast m hm
  kept y hy := by
    rw [Ballot.cast_support, if_neg hne] at hy
    exact h.kept y hy
  granted y hy := by
    rw [Ballot.cast_support, if_neg hne] at hy
    exact h.granted y hy
  term := h.term
  counted := h.counted
  led := h.led
  leads := h.leads

theorem Records.count (h : Records own members b i r) (v x : UInt64) :
    Records own members (b.count v x) i r where
  cast := h.cast
  kept := h.kept
  granted := h.granted
  term := h.term
  counted w hw :=
    (h.counted w hw).imp_left fun hold => (Ballot.mem_count_counted b v x w i).mpr (.inr hold)
  led := h.led
  leads := h.leads

theorem Records.elect (h : Records own members b i r) (x : UInt64) :
    Records own members (b.elect x) i r where
  cast := h.cast
  kept := h.kept
  granted := h.granted
  term := h.term
  counted := h.counted
  led old hold := (Ballot.mem_elect_elected b x i).mpr (.inr (h.led old hold))
  leads := h.leads

/-! ## One message -/

/-- A request for the vote of node `i` is of the one term there is, says nothing of a log and
comes from another member, and an answer that reports a vote tells of one that has been cast.
The node itself may be the sender of either where it steps messages in its own name. -/
structure IsAdmissible (own : Bool) (members : Finset UInt64) (term : UInt64) (b : Ballot UInt64)
    (i : UInt64) (msg : Message) : Prop where
  request : msg.type = .msgVote → msg.term = term ∧ msg.index = 0 ∧
    ((msg.from_ ∈ members ∧ msg.from_ ≠ i) ∨ (own = true ∧ msg.from_ = i))
  answer : isVoteResp msg.type = true → msg.reject = false →
    b.support msg.from_ = some i ∨ (own = true ∧ msg.from_ = i)

/-- What is admissible stays so. -/
theorem IsAdmissible.of_reaches {quorum : ℕ} (h : IsAdmissible own members term b i msg)
    (hreaches : Ballot.Reaches members quorum b b') : IsAdmissible own members term b' i msg where
  request := h.request
  answer hresp hreject := (h.answer hresp hreject).imp_left (Ballot.Reaches.support hreaches)

/-- The message in the name of node `i`. -/
theorem IsAdmissible.in_own_name (h : IsAdmissible true members term b i msg) :
    IsAdmissible true members term b i { msg with from_ := i } where
  request htype := ⟨(h.request htype).1, (h.request htype).2.1, .inr ⟨rfl, rfl⟩⟩
  answer _ _ := .inr ⟨rfl, rfl⟩

/-- The ballot after a reaction of node `i`, and what it means to the others. -/
def Follows (own : Bool) (members : Finset UInt64) (b : Ballot UInt64) (i : UInt64) (r : Raft) :
    Prop :=
  ∃ b', Ballot.Reaches members (needed own members) b b' ∧ Records own members b' i r ∧
    ∀ k ≠ i, ∀ s, Records own members b k s → Records own members b' k s

theorem Records.follows (h : Records own members b i r) : Follows own members b i r :=
  ⟨b, .refl, h, fun _ _ _ hs => hs⟩

/-- A vote is cast for the member that asked for it, or for the node itself. -/
theorem Records.follows_grant (h : Records own members b i r) (hnode : IsNode members term i r)
    (hzero : 0 ∉ members) (hi : i ∈ members) (htype : msg.type = .msgVote)
    (hmsg : IsAdmissible own members term b i msg) (hvote : r.canVote u msg = true) :
    Follows own members b i
      ({ r with vote := msg.from_, electionElapsed := 0 }.record (.grantVote msg)) := by
  obtain ⟨hterm, hindex, hsender⟩ := hmsg.request htype
  have hawake : r.term ≠ 0 := by
    rw [hnode.term, ← hterm]
    intro hzero
    rw [canVote_of_term_zero hzero hindex] at hvote
    cases hvote
  rcases hsender with ⟨hfrom, hne⟩ | hown
  · cases hsupport : b.support i with
    | none =>
        have hcast : (b.cast i msg.from_).support i = some msg.from_ := by
          simp [Ballot.cast_support]
        refine ⟨b.cast i msg.from_, .single (.cast i msg.from_ hi hne.symm hsupport), ?_, ?_⟩
        · refine h.grant hawake (.inl hcast) (fun x hx => ?_) (fun x hx => ?_) rfl rfl
          · rw [hsupport] at hx
            cases hx
          · obtain rfl := Option.some.inj (hcast.symm.trans hx)
            exact ⟨hfrom, .inl rfl⟩
        · intro k hk s hs
          exact hs.cast_of_ne hk
    | some x =>
        obtain rfl := h.canVote_supported hi hzero (hterm.trans hnode.term.symm) hne hsupport hvote
        refine (h.grant hawake (.inl hsupport) (fun _ hx => hx) (fun x hx => ?_) rfl rfl).follows
        obtain rfl := Option.some.inj (hsupport.symm.trans hx)
        exact ⟨hfrom, .inl rfl⟩
  · refine (h.grant hawake (.inr hown) (fun _ hx => hx) (fun x hx => ?_) rfl rfl).follows
    exact ⟨(h.kept x hx).1, .inr ⟨hown.2, hx⟩⟩

/-- An answer is counted, and may elect the candidate. -/
theorem Records.follows_voteResp (h : Records own members b i r) (hnode : IsNode members term i r)
    (hresp : isVoteResp msg.type) (hmsg : IsAdmissible own members term b i msg)
    (hgrant : u.grant ≤ 0) : Follows own members b i (r.stepCandidate u msg).2 := by
  -- the ballot with the answer counted
  obtain ⟨b₁, hreaches, hpolled, hothers⟩ : Follows own members b i (r.polled msg) := by
    cases hreject : msg.reject with
    | true => exact (h.polled (by simp [hreject])).follows
    | false =>
        rcases hmsg.answer hresp hreject with hsupport | hown
        · refine ⟨b.count msg.from_ i, .single (.count _ _ hsupport), ?_,
            fun _ _ _ hs => hs.count ..⟩
          apply (h.count msg.from_ i).polled
          intro _
          exact .inl ((Ballot.mem_count_counted b msg.from_ i msg.from_ i).mpr (.inl ⟨rfl, rfl⟩))
        · exact (h.polled fun _ => .inr hown).follows
  rw [stepCandidate_of_voteResp hresp]
  split
  · next hcounts =>
      split
      · exact ⟨b₁, hreaches, hpolled, hothers⟩
      · have hquorum := hpolled.needed_le hnode hgrant hcounts
        have hmem : i ∈ (b₁.elect i).elected := (Ballot.mem_elect_elected b₁ i i).mpr (.inl rfl)
        refine ⟨b₁.elect i, hreaches.tail (.elect i hquorum), ?_, fun k hk s hs => ?_⟩
        · have hleader := (hpolled.elect i).becomeLeader hmem u
          exact hleader.of_noElection (bcastAppend_sendsOnly u _).noElection
        · exact (hothers k hk s hs).elect i
  · exact ⟨b₁, hreaches, hpolled.of_noElection (becomeFollower_noElection u _ _ _), hothers⟩

/-- **One message.** -/
theorem Records.follows_step (h : Records own members b i r) (hnode : IsNode members term i r)
    (hzero : 0 ∉ members) (hi : i ∈ members) (hmsg : IsAdmissible own members term b i msg)
    (hgrant : isVoteResp msg.type = true → u.grant ≤ 0) :
    Follows own members b i (r.step u msg).2 := by
  cases step_cases u r msg with
  | campaign _ hsent => exact (h.campaign hnode.id hsent).follows
  | grant htype _ hvote heq =>
      rw [heq]
      exact h.follows_grant hnode hzero hi htype hmsg hvote
  | voteResp hresp _ heq =>
      rw [heq]
      exact h.follows_voteResp hnode hresp hmsg (hgrant hresp)
  | quiet hquiet => exact (h.of_noElection hquiet).follows

end Cluster

end Anraft
