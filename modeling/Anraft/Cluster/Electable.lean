import Anraft.Cluster.ElectionSafety
import Anraft.Timers.Elections

/-!
# Who can be elected

In term zero nobody votes, and a cluster of fewer than five has too few voters. Every other
cluster can elect each of its members: a candidate asks one member after the other, and no
campaign drops the answers to an earlier one.
-/

namespace Anraft

namespace Cluster

open Raft

variable {members heard : Finset UInt64} {term i v : UInt64} {r : Raft} {c : Cluster}

/-! ## One campaign -/

/-- Answers by which the timer starts anew at its timeout, `Poll` counts from zero and the last
term of every log is zero. -/
def willing : Unspecified := { Unspecified.filledIn with lastTerm := fun _ => 0 }

/-- What node `i` asks of node `v` in a campaign. -/
def request (term i v : UInt64) : Message :=
  { type := .msgVote, to_ := v, from_ := i, term := term }

/-- The vote of node `v` as it is reported to node `i`. -/
def answer (term i v : UInt64) : Message :=
  { type := .msgVoteResp, to_ := i, from_ := v, term := term }

/-- A follower whose timer will make it campaign, with the votes of `heard` on its list. -/
structure MayCampaign (members : Finset UInt64) (term i : UInt64) (heard : Finset UInt64)
    (r : Raft) : Prop extends IsNode members term i r where
  preVote : r.preVote = false
  tickFunc : r.tickFunc = .tickElection
  state : r.state = .stateFollower
  votes : ∀ v : UInt64, r.votes[v]? = if v ∈ heard then some true else none

theorem Joined.mayCampaign (h : Joined members term i r) (hpreVote : r.preVote = false)
    (htimer : r.tickFunc = .tickElection) : MayCampaign members term i ∅ r where
  toIsNode := h.toIsNode
  preVote := hpreVote
  tickFunc := htimer
  state := h.state
  votes v := by
    rw [h.votes, if_neg (Finset.notMem_empty v)]
    exact Std.TreeMap.getElem?_emptyc

/-- A campaign is under way. -/
structure Campaigning (members : Finset UInt64) (term i : UInt64) (heard : Finset UInt64)
    (r : Raft) : Prop extends MayCampaign members term i heard r where
  stepFunc : r.stepFunc = .stepCandidate
  requests : ∀ v ∈ members, v ≠ i → request r.term r.id v ∈ r.msgs

theorem MayCampaign.campaign (h : MayCampaign members term i heard r) :
    Campaigning members term i heard (r.campaign willing .campaignElection) := by
  obtain ⟨msgs, heq⟩ := campaign_eq_becomeCandidate willing r
  have hmsgs : (r.campaign willing .campaignElection).msgs =
      r.msgs ++ r.campaignRequests willing r.term .msgVote := campaign_msgs nofun
  rw [heq] at hmsgs ⊢
  refine ⟨⟨⟨h.id, h.term, h.mem_prs⟩, h.preVote, rfl, rfl, h.votes⟩, rfl, fun v hv hne => ?_⟩
  rw [hmsgs]
  apply List.mem_append_right
  obtain ⟨p, hp⟩ := TreeMap.mem_iff_exists_mem_toList.mp ((h.mem_prs v).mpr hv)
  refine List.mem_map.mpr ⟨(v, p), List.mem_filter.mpr ⟨hp, ?_⟩, ?_⟩
  · rw [h.id]
    exact decide_eq_true hne
  · rfl

/-- Left alone, a follower campaigns. -/
theorem MayCampaign.campaigns (h : MayCampaign members term i heard r) (hi : i ∈ members) :
    ∃ n, Campaigning members term i heard (r.after (ticks (List.replicate n willing))) := by
  obtain ⟨n, hn⟩ : ∃ n : ℕ, r.ticksLeft = n + 1 := by
    refine ⟨(r.ticksLeft - 1).toNat, ?_⟩
    rw [ticksLeft]
    omega
  have hwaited : r.after (ticks (List.replicate n willing)) = r.waitedFor n := by
    rw [after_ticks_of_waiting h.tickFunc, List.length_replicate]
    rw [List.length_replicate, hn]
    exact lt_add_one _
  have hfires : (r.waitedFor n).Fires := by
    refine ⟨(h.mem_prs r.id).mpr (h.id ▸ hi), ?_⟩
    show r.randomizedElectionTimeout ≤ r.electionElapsed + n + 1
    rw [ticksLeft] at hn
    omega
  refine ⟨n + 1, ?_⟩
  rw [List.replicate_succ', ticks_append, after_append, hwaited]
  have hrung : MayCampaign members term i heard (r.waitedFor n).rung :=
    ⟨⟨h.id, h.term, h.mem_prs⟩, h.preVote, h.tickFunc, h.state, h.votes⟩
  have htick : (r.waitedFor n).after (ticks [willing]) =
      (r.waitedFor n).rung.campaign willing .campaignElection := by
    have hleads : (r.waitedFor n).rung.state ≠ .stateLeader := by
      rw [hrung.state]
      decide
    refine (tick_of_firing (r := r.waitedFor n) h.tickFunc hfires willing).trans ?_
    exact (step_of_msgHup rfl).trans (if_pos ⟨hleads, h.preVote⟩)
  rw [htick]
  exact hrung.campaign

/-- The answer of a further voter decides the campaign, or goes on the list. -/
theorem Campaigning.answered (h : Campaigning members term i heard r) (hv : v ∉ heard) :
    (members.card / 2 + 1 < (insert v heard).card ∧
        ∃ old, .becomeLeader old ∈ (r.step willing (answer term i v)).2.history) ∨
      ((insert v heard).card ≤ members.card / 2 + 1 ∧
        MayCampaign members term i (insert v heard) (r.step willing (answer term i v)).2) := by
  have hresp : isVoteResp (answer term i v).type = true := rfl
  have hvotes : ∀ w : UInt64, (r.votes.insertIfNew v true)[w]? =
      if w ∈ insert v heard then some true else none := by
    intro w
    have hfresh : v ∉ r.votes := by
      rw [Std.TreeMap.mem_iff_isSome_getElem?, h.votes v, if_neg hv]
      exact Bool.false_ne_true
    rw [Std.TreeMap.getElem?_insertIfNew, h.votes w]
    by_cases hwv : w = v
    · subst hwv
      simp [hfresh]
    · have hother : ¬ compare v w = .eq := fun heq => hwv (Std.LawfulEqCmp.eq_of_compare heq).symm
      simp [hwv, hother]
  have hcount : yesVotes (r.votes.insertIfNew v true) = (insert v heard).card := by
    apply TreeMap.countP_toList_eq_card
    intro w
    rw [hvotes w]
    simp
  have hdecides : r.CountsAsElected willing (answer term i v) ↔
      members.card / 2 + 1 < (insert v heard).card := by
    rw [countsAsElected_iff, h.quorum, ← hcount]
    show ((members.card / 2 + 1 : ℕ) : ℤ) < 0 + _ ↔ _
    rw [zero_add, Nat.cast_lt]
    rfl
  rw [step_of_voteResp h.stepFunc hresp, stepCandidate_of_voteResp hresp]
  by_cases hmore : members.card / 2 + 1 < (insert v heard).card
  · refine .inl ⟨hmore, r.state, ?_⟩
    have hstate : r.state ≠ .statePreCandidate := by
      rw [h.state]
      decide
    rw [if_pos (hdecides.mpr hmore), if_neg hstate, (bcastAppend_sendsOnly _ _).history]
    exact List.mem_append_right _ (List.mem_singleton_self _)
  · refine .inr ⟨not_lt.mp hmore, ?_⟩
    rw [if_neg fun hcounts => hmore (hdecides.mp hcounts)]
    exact ⟨⟨h.id, h.term, h.mem_prs⟩, h.preVote, rfl, rfl, hvotes⟩

/-! ## One voter after another -/

/-- Node `i` may campaign, and the members it has not heard from have their votes left. -/
structure Canvasses (members : Finset UInt64) (term i : UInt64) (heard : Finset UInt64)
    (c : Cluster) : Prop where
  candidate : MayCampaign members term i heard (c i)
  voters : ∀ v ∈ members, v ≠ i → v ∉ heard → (c v).vote = 0 ∧ (c v).isLearner = false

/-- A member that has given no vote away votes for whoever asks. -/
theorem mem_grants_step_request (hterm : term ≠ 0) (hvote : r.vote = 0)
    (hlearner : r.isLearner = false) :
    request term i v ∈ grants (r.step willing (request term i v)).2.history := by
  have hlater : term > 0 := UInt64.pos_iff_ne_zero.mpr hterm
  have hup : r.raftlog.isUpToDate willing.toUnwritten 0 term = true := by
    unfold RaftLog.isUpToDate
    simp [willing, hlater]
  have hcan : r.canVote willing (request term i v) = true := by
    unfold canVote
    rw [hvote]
    simp [hup, request]
  rw [step_of_msgVote rfl, if_pos ⟨hlearner, hcan⟩]
  show request term i v ∈ grants (r.history ++ [.grantVote (request term i v)])
  rw [grants_append]
  exact List.mem_append_right _ (List.mem_singleton_self _)

/-- **One more voter.** -/
theorem Canvasses.ask (h : Canvasses members term i heard c) (hterm : term ≠ 0) (hi : i ∈ members)
    (hv : v ∈ members) (hne : v ≠ i) (hnew : v ∉ heard) :
    Machine.CanReach act (VotesHonestly members) c fun c' =>
      (members.card / 2 + 1 < (insert v heard).card ∧ c'.HasLed i) ∨
        ((insert v heard).card ≤ members.card / 2 + 1 ∧
          Canvasses members term i (insert v heard) c') := by
  -- the clock of the candidate runs until it campaigns
  have hcampaigns : Machine.CanReach act (VotesHonestly members) c fun c' =>
      Campaigning members term i heard (c' i) ∧ ∀ k ≠ i, c' k = c k := by
    obtain ⟨n, hn⟩ := h.candidate.campaigns hi
    refine ⟨(ticks (List.replicate n willing)).map (Prod.mk i), ?_, ?_⟩
    · have hticks : ∀ a ∈ (ticks (List.replicate n willing)).map (Prod.mk i),
          ∃ u, a = (i, .tick u) := by
        intro a ha
        obtain ⟨input, hinput, rfl⟩ := List.mem_map.mp ha
        obtain ⟨u, -, rfl⟩ := List.mem_map.mp hinput
        exact ⟨u, rfl⟩
      refine (Machine.along_of_forall c hticks).mono ?_
      rintro s a ⟨u, rfl⟩
      exact hi
    · rw [Network.foldl_act_map]
      refine ⟨?_, fun k hk => Function.update_of_ne hk _ _⟩
      rw [Function.update_self]
      exact hn
  refine hcampaigns.trans fun c₁ ⟨hcampaign, hothers⟩ => ?_
  obtain ⟨hvote, hlearner⟩ := h.voters v hv hne hnew
  rw [← hothers v hne] at hvote hlearner
  have hrequest := hcampaign.requests v hv hne
  rw [hcampaign.id, hcampaign.term] at hrequest
  -- the voter is asked
  have hasked : Machine.CanReach act (VotesHonestly members) c₁ fun c' =>
      c'.Granted v i ∧ ∀ k ≠ v, c' k = c₁ k := by
    refine .call (i := (v, .step willing (request term i v)))
      ⟨hv, fun _ => ⟨i, hi, hrequest, rfl⟩, nofun⟩ ⟨?_, fun k hk => act_of_ne hk c₁ _⟩
    refine ⟨request term i v, ?_, rfl⟩
    rw [act_self]
    exact mem_grants_step_request hterm hvote hlearner
  refine hasked.trans fun c₂ ⟨hgranted, hothers'⟩ => ?_
  have hcampaign₂ : Campaigning members term i heard (c₂ i) := hothers' i hne.symm ▸ hcampaign
  -- the answer is delivered
  refine .call (i := (i, .step willing (answer term i v)))
    ⟨hi, nofun, fun _ => ⟨le_rfl, fun _ => ⟨hv, hgranted⟩⟩⟩ ?_
  rcases hcampaign₂.answered hnew with ⟨hmore, old, hold⟩ | ⟨hfew, hcandidate⟩
  · refine .inl ⟨hmore, old, ?_⟩
    rw [act_self]
    exact hold
  · refine .inr ⟨hfew, ?_, fun w hw hwi hwnew => ?_⟩
    · rw [act_self]
      exact hcandidate
    · obtain ⟨hwv, hwheard⟩ := not_or.mp fun hor => hwnew (Finset.mem_insert.mpr hor)
      rw [act_of_ne hwi, hothers' w hwv, hothers w hwi]
      exact h.voters w hw hwi hwheard

/-- A candidate can hear from any set of other members, or is elected on the way. -/
theorem Canvasses.hear (h : Canvasses members term i ∅ c) (hterm : term ≠ 0) (hi : i ∈ members)
    (hothers : heard ⊆ members.erase i) :
    Machine.CanReach act (VotesHonestly members) c fun c' =>
      c'.HasLed i ∨ (heard.card ≤ members.card / 2 + 1 ∧ Canvasses members term i heard c') := by
  induction heard using Finset.induction_on with
  | empty => exact .now (.inr ⟨by simp, h⟩)
  | insert v heard hnew ih =>
      obtain ⟨hv, hsubset⟩ := Finset.insert_subset_iff.mp hothers
      obtain ⟨hne, hmem⟩ := Finset.mem_erase.mp hv
      refine (ih hsubset).trans fun c' hc' => ?_
      rcases hc' with hled | ⟨-, hcanvasses⟩
      · exact .now (.inl hled)
      · exact (hcanvasses.ask hterm hi hmem hne hnew).mono fun t ht => ht.imp_left And.right

/-- Somebody has voted, and nobody does in term zero. -/
theorem CarriesOut.term_ne_zero {own : Bool} {b : Ballot UInt64} {quorum : ℕ}
    (h : CarriesOut own members term c b) (hsound : b.Sound members quorum) (hpos : 0 < quorum)
    (helected : i ∈ b.elected) : term ≠ 0 := by
  obtain ⟨v, hv, hsupport⟩ := hsound.exists_support hpos helected
  obtain ⟨m, hm, -⟩ := (h.records v hv).granted i hsupport
  rw [← (h.asks v hv).node.term]
  exact (h.records v hv).term m hm

/-- **Who can be elected.** In a cluster without learners, a member whose timer makes it campaign
becomes leader in some run exactly if the term is not zero and there are at least five members. -/
theorem electable_iff (h : Assembled members term c) (hi : i ∈ members)
    (hpreVote : (c i).preVote = false) (htimer : (c i).tickFunc = .tickElection)
    (hlearner : ∀ v ∈ members, (c v).isLearner = false) :
    (∃ run, machine.Along (VotesHonestly members) c run ∧ (c.after run).HasLed i) ↔
      term ≠ 0 ∧ 5 ≤ members.card := by
  constructor
  · rintro ⟨run, hrun, hled⟩
    obtain ⟨b, hsound, hb⟩ := after_carriesOut h hrun
    have helected := hb.elected ⟨hi, hled⟩
    exact ⟨hb.term_ne_zero hsound (Nat.succ_pos _) helected, five_le_card hsound hi helected⟩
  · rintro ⟨hterm, hfive⟩
    have hstart : Canvasses members term i ∅ c := by
      refine ⟨(h.joined i hi).mayCampaign hpreVote htimer, fun v hv _ _ => ?_⟩
      exact ⟨(h.joined v hv).vote, hlearner v hv⟩
    obtain ⟨heard, hsubset, hcard⟩ :
        ∃ heard ⊆ members.erase i, heard.card = members.card / 2 + 2 := by
      apply Finset.exists_subset_card_eq
      rw [Finset.card_erase_of_mem hi]
      omega
    have hled : Machine.CanReach act (VotesHonestly members) c fun c' => c'.HasLed i := by
      refine (hstart.hear hterm hi hsubset).mono fun c' hc' => hc'.resolve_right ?_
      rintro ⟨hfew, -⟩
      rw [hcard] at hfew
      exact absurd hfew (Nat.not_succ_le_self _)
    exact hled

/-- The last of five members can become leader. -/
theorem electable_iff_five : ∃ run,
    machine.Along (VotesHonestly [1, 2, 3, 4, 5].toFinset) (ofMembers [1, 2, 3, 4, 5] 1) run ∧
      ((ofMembers [1, 2, 3, 4, 5] 1).after run).HasLed 5 :=
  (electable_iff (assembled_ofMembers (by decide) 1) (by decide) rfl rfl fun _ _ => rfl).mpr
    ⟨by decide, by decide⟩

end Cluster

end Anraft
