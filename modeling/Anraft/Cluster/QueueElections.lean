import Anraft.Cluster.Electable
import Anraft.Cluster.Queues

/-!
# Who can be elected through the queues

A batch that steps an answer as a proposal steps it in the name of the node itself, so the
node is one of its own voters, and three members are enough.
-/

namespace Anraft

open Raft Cluster

namespace Nodes

variable {members heard : Finset UInt64} {term i v k : UInt64} {msg : Message} {c : Nodes}
  {s : Node}

/-! ## Batches of one kind -/

/-- A batch of ticks is the clock running. -/
theorem run_ticks (s : Node) (n : ℕ) :
    s.run false (List.replicate n (willing, { type := .msgTypeTick, body := 0 })) =
      { s with raft := s.raft.after (ticks (List.replicate n willing)) } := by
  have hfold : ∀ (n : ℕ) (s : Node),
      (List.replicate n (willing, ({ type := .msgTypeTick, body := 0 } : NodeRecvMsg))).foldl
          (fun s x => s.runItem x.1 0 x.2) s =
        { s with raft := s.raft.after (ticks (List.replicate n willing)) } := by
    intro n
    induction n with
    | zero =>
        intro s
        rfl
    | succ n ih =>
        intro s
        rw [List.replicate_succ, List.foldl_cons, ih]
        rfl
  cases n with
  | zero => rfl
  | succ n => exact hfold (n + 1) s

/-- The node after a message has been put in its memory and an item that points to it has been
worked through. -/
def handed (s : Node) (type : NodeRecvMsgType) (msg : Message) : Node :=
  { s with bodies := Function.update s.bodies 0 msg }.runItem willing 0 { type := type, body := 0 }

theorem handed_recv (s : Node) (msg : Message) :
    (handed s .msgTypeRecv msg).raft = ((s.raft.getProgress msg.from_).2.step willing msg).2 := by
  unfold handed
  rw [Node.runItem_msgTypeRecv rfl]
  simp [Node.step]

theorem handed_prop (s : Node) (msg : Message) :
    (handed s .msgTypeProp msg).raft = (s.raft.step willing { msg with from_ := s.raft.id }).2 := by
  simp [handed, Node.runItem, Node.step]

theorem canReach_handed (type : NodeRecvMsgType) (hput : PutsHonestly members c (k, .put 0 msg)) :
    Machine.CanReach act (PutsHonestly members) c fun c' =>
      c' k = handed (c k) type msg ∧ ∀ j ≠ k, c' j = c j := by
  have hmem : k ∈ members := hput.1
  have hput' : Machine.CanReach act (PutsHonestly members) c fun c' =>
      c' k = { c k with bodies := Function.update (c k).bodies 0 msg } ∧ ∀ j ≠ k, c' j = c j :=
    .call hput ⟨act_self c k _, fun j hj => act_of_ne hj c _⟩
  refine hput'.trans fun c₁ ⟨hself, hothers⟩ => ?_
  refine .call (i := (k, .batch false [(willing, { type := type, body := 0 })]))
    ⟨hmem, fun x hx => ?_⟩ ⟨?_, fun j hj => (act_of_ne hj c₁ _).trans (hothers j hj)⟩
  · rw [List.mem_singleton.mp hx]
    exact le_rfl
  · rw [act_self, hself]
    rfl

/-! ## One voter after another -/

/-- Node `i` may campaign, those it has heard from have voted for it, and the other members have
their votes left. -/
structure Canvasses (members : Finset UInt64) (term i : UInt64) (heard : Finset UInt64)
    (c : Nodes) : Prop where
  candidate : MayCampaign members term i heard (c i).raft
  granted : ∀ v ∈ heard, v ∈ members ∧ v ≠ i ∧ c.rafts.Granted v i
  voters : ∀ v ∈ members, v ≠ i → v ∉ heard → (c v).raft.vote = 0 ∧ (c v).raft.isLearner = false

/-- The clock of the candidate runs until it campaigns. -/
theorem Canvasses.campaigns (h : Canvasses members term i heard c) (hi : i ∈ members) :
    Machine.CanReach act (PutsHonestly members) c fun c' =>
      Campaigning members term i heard (c' i).raft ∧ ∀ k ≠ i, c' k = c k := by
  obtain ⟨n, hn⟩ := h.candidate.campaigns hi
  refine .call
    (i := (i, .batch false (List.replicate n (willing, { type := .msgTypeTick, body := 0 }))))
    ⟨hi, fun x hx => ?_⟩ ⟨?_, fun k hk => act_of_ne hk c _⟩
  · rw [List.eq_of_mem_replicate hx]
    exact le_rfl
  · rw [act_self]
    show Campaigning members term i heard ((c i).run false _).raft
    rw [run_ticks]
    exact hn

/-- A lookup of a voting member changes nothing. -/
theorem getProgress_of_mem {r : Raft} (hmem : v ∈ r.prs) : (r.getProgress v).2 = r := by
  unfold getProgress
  rw [if_pos hmem]

theorem granted_of_eq {c' : Nodes} (heq : c' v = c v) (h : c.rafts.Granted v i) :
    c'.rafts.Granted v i := by
  show ∃ m ∈ grants (c' v).raft.history, m.from_ = i
  rw [heq]
  exact h

/-- **One more voter.** -/
theorem Canvasses.ask (h : Canvasses members term i heard c) (hterm : term ≠ 0) (hi : i ∈ members)
    (hv : v ∈ members) (hne : v ≠ i) (hnew : v ∉ heard)
    (hfew : (insert v heard).card ≤ members.card / 2 + 1) :
    Machine.CanReach act (PutsHonestly members) c (Canvasses members term i (insert v heard)) := by
  refine (h.campaigns hi).trans fun c₁ ⟨hcampaign, hothers⟩ => ?_
  obtain ⟨hvote, hlearner⟩ := h.voters v hv hne hnew
  rw [← hothers v hne] at hvote hlearner
  have hrequest := hcampaign.requests v hv hne
  rw [hcampaign.id, hcampaign.term] at hrequest
  -- the voter is asked
  have hput : PutsHonestly members c₁ (v, .put 0 (request term i v)) :=
    ⟨hv, fun _ => ⟨i, hi, hrequest, rfl⟩, nofun⟩
  refine (canReach_handed .msgTypeRecv hput).trans fun c₂ ⟨hasked, hothers'⟩ => ?_
  have hgranted : c₂.rafts.Granted v i := by
    refine ⟨request term i v, ?_, rfl⟩
    show request term i v ∈ grants (c₂ v).raft.history
    rw [hasked, handed_recv]
    obtain ⟨msgs, learnerPrs, heq⟩ :=
      getProgress_sendsOnly (c₁ v).raft (request term i v).from_
    rw [heq]
    exact mem_grants_step_request hterm hvote hlearner
  have hcampaign₂ : Campaigning members term i heard (c₂ i).raft := hothers' i hne.symm ▸ hcampaign
  -- the answer is delivered
  have hput' : PutsHonestly members c₂ (i, .put 0 (answer term i v)) :=
    ⟨hi, nofun, fun _ _ => ⟨hv, hgranted⟩⟩
  refine (canReach_handed .msgTypeRecv hput').mono fun c₃ ⟨hanswered, hothers''⟩ => ?_
  have hraft : (c₃ i).raft = ((c₂ i).raft.step willing (answer term i v)).2 := by
    rw [hanswered, handed_recv, getProgress_of_mem]
    exact (hcampaign₂.mem_prs v).mpr hv
  have hsame : ∀ k ≠ i, k ≠ v → c₃ k = c k := fun k hki hkv =>
    (hothers'' k hki).trans ((hothers' k hkv).trans (hothers k hki))
  refine ⟨?_, fun w hw => ?_, fun w hw hwi hwnew => ?_⟩
  · rw [hraft]
    rcases hcampaign₂.answered hnew with ⟨hmore, -⟩ | ⟨-, hcandidate⟩
    · exact absurd hmore (not_lt.mpr hfew)
    · exact hcandidate
  · rcases Finset.mem_insert.mp hw with rfl | hw
    · exact ⟨hv, hne, granted_of_eq (hothers'' w hne) hgranted⟩
    · obtain ⟨hmem, hwi, hold⟩ := h.granted w hw
      exact ⟨hmem, hwi, granted_of_eq (hsame w hwi fun heq => hnew (heq ▸ hw)) hold⟩
  · obtain ⟨hwv, hwheard⟩ := not_or.mp fun hor => hwnew (Finset.mem_insert.mpr hor)
    rw [hsame w hwi hwv]
    exact h.voters w hw hwi hwheard

/-- As many other members as are a majority can be heard from. -/
theorem Canvasses.hear (h : Canvasses members term i ∅ c) (hterm : term ≠ 0) (hi : i ∈ members)
    (hothers : heard ⊆ members.erase i) (hfew : heard.card ≤ members.card / 2 + 1) :
    Machine.CanReach act (PutsHonestly members) c (Canvasses members term i heard) := by
  induction heard using Finset.induction_on with
  | empty => exact .now h
  | insert v heard hnew ih =>
      obtain ⟨hv, hsubset⟩ := Finset.insert_subset_iff.mp hothers
      obtain ⟨hne, hmem⟩ := Finset.mem_erase.mp hv
      have hless : heard.card ≤ members.card / 2 + 1 :=
        (Finset.card_le_card (Finset.subset_insert v heard)).trans hfew
      exact (ih hsubset hless).trans fun c' hc' => hc'.ask hterm hi hmem hne hnew hfew

/-- The one vote more is the candidate's own: it steps a vote it has been sent as a proposal. -/
theorem Canvasses.own (h : Canvasses members term i heard c) (hi : i ∈ members) (hv : v ∈ heard)
    (hcard : heard.card = members.card / 2 + 1) :
    Machine.CanReach act (PutsHonestly members) c fun c' => c'.rafts.HasLed i := by
  obtain ⟨hmem, hne, hgranted⟩ := h.granted v hv
  have hself : i ∉ heard := fun hmem => (h.granted i hmem).2.1 rfl
  refine (h.campaigns hi).trans fun c₁ ⟨hcampaign, hothers⟩ => ?_
  have hput : PutsHonestly members c₁ (i, .put 0 (answer term i v)) :=
    ⟨hi, nofun, fun _ _ => ⟨hmem, granted_of_eq (hothers v hne) hgranted⟩⟩
  refine (canReach_handed .msgTypeProp hput).mono fun c₂ ⟨hstepped, _⟩ => ?_
  rcases hcampaign.answered hself with ⟨-, old, hold⟩ | ⟨hfew, -⟩
  · refine ⟨old, ?_⟩
    show .becomeLeader old ∈ (c₂ i).raft.history
    rw [hstepped, handed_prop, hcampaign.id]
    exact hold
  · rw [Finset.card_insert_of_notMem hself, hcard] at hfew
    exact absurd hfew (Nat.not_succ_le_self _)

/-- **Who can be elected through the queues.** In a cluster without learners, a member whose
timer makes it campaign becomes leader in some run exactly if the term is not zero and there
are at least three members. -/
theorem electable_through_queues_iff (h : Assembled members term c) (hi : i ∈ members)
    (hpreVote : (c i).raft.preVote = false) (htimer : (c i).raft.tickFunc = .tickElection)
    (hlearner : ∀ v ∈ members, (c v).raft.isLearner = false) :
    (∃ run, machine.Along (PutsHonestly members) c run ∧ (c.after run).rafts.HasLed i) ↔
      term ≠ 0 ∧ 3 ≤ members.card := by
  constructor
  · rintro ⟨run, hrun, hled⟩
    obtain ⟨b, hsound, hb⟩ := after_carryOut h hrun
    have helected := hb.rafts.elected ⟨hi, hled⟩
    have hcard := hsound.quorum_le helected
    rw [Finset.card_erase_of_mem hi] at hcard
    exact ⟨hb.rafts.term_ne_zero hsound (Nat.succ_pos _) helected, by omega⟩
  · rintro ⟨hterm, hthree⟩
    have hstart : Canvasses members term i ∅ c := by
      refine ⟨(h.rafts.joined i hi).mayCampaign hpreVote htimer, by simp, fun v hv _ _ => ?_⟩
      exact ⟨(h.rafts.joined v hv).vote, hlearner v hv⟩
    obtain ⟨heard, hsubset, hcard⟩ :
        ∃ heard ⊆ members.erase i, heard.card = members.card / 2 + 1 := by
      apply Finset.exists_subset_card_eq
      rw [Finset.card_erase_of_mem hi]
      omega
    obtain ⟨v, hv⟩ : heard.Nonempty := by
      rw [← Finset.card_pos, hcard]
      exact Nat.succ_pos _
    have hled : Machine.CanReach act (PutsHonestly members) c fun c' => c'.rafts.HasLed i :=
      (hstart.hear hterm hi hsubset hcard.le).trans fun c' hc' => hc'.own hi hv hcard
    exact hled

/-- The last of three members can become leader. -/
theorem electable_through_queues_iff_three : ∃ run,
    machine.Along (PutsHonestly [1, 2, 3].toFinset) (ofMembers [1, 2, 3] 1) run ∧
      ((ofMembers [1, 2, 3] 1).after run).rafts.HasLed 3 :=
  (electable_through_queues_iff (assembled_ofMembers (by decide) 1) (by decide) rfl rfl
    fun _ _ => rfl).mpr ⟨by decide, by decide⟩

end Nodes

end Anraft
