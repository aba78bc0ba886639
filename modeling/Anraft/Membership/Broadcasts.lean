import Anraft.Base.TreeMap
import Anraft.Election.VoteReplies
import Anraft.Membership.Lookups

/-!
# Whom a broadcast reaches

The test in the loop of a broadcast assigns the id of the node to the id of the member
it looks at. A node with an id other than zero returns at once, for every member; a
node with id zero goes on, and sends to itself what was meant for the member.
-/

namespace Anraft

open TreeMap

namespace Raft

variable {u : Unspecified} {r r' : Raft} {ctx : Bytes} {due : UInt64 → Prop}
  {P : Message → Prop} {f : Raft → UInt64 → Progress → Raft}

/-- From `r` to `r'` one message is queued for each id that is due and none for any other,
every message satisfies `P`, and nothing else changes. -/
def Broadcasts (P : Message → Prop) (due : UInt64 → Prop) (r r' : Raft) : Prop :=
  ∃ sent, r' = { r with msgs := r.msgs ++ sent } ∧ (∀ m ∈ sent, P m) ∧
    ∀ dst, (due dst → sent.countP (·.to_ = dst) = 1) ∧
      (¬ due dst → sent.countP (·.to_ = dst) = 0)

/-- A member other than the node itself. -/
def IsPeer (r : Raft) (dst : UInt64) : Prop := r.IsMember dst ∧ dst ≠ r.id

/-- `BcastAppend` sends to every peer that is not paused. -/
def BroadcastsAppend (u : Unspecified) (r : Raft) : Prop :=
  Broadcasts (fun _ => True) (fun dst => r.IsPeer dst ∧ (r.progressOf dst).isPaused = false) r
    (r.bcastAppend u)

/-- `BcastHeartbeatWithCtx` sends a heartbeat with the context to every peer. -/
def BroadcastsHeartbeat (u : Unspecified) (r : Raft) (ctx : Bytes) : Prop :=
  Broadcasts (fun m => m.type = .msgHeartbeat ∧ m.context = ctx) r.IsPeer r
    (r.bcastHeartbeatWithCtx u ctx)

/-- There is no append to send: every peer is paused, and so is a node of id zero
unless there are no members at all. -/
structure NoAppendDue (r : Raft) : Prop where
  peers : ∀ dst, r.IsPeer dst → (r.progressOf dst).isPaused = true
  self : r.id = 0 → (∃ dst, r.IsMember dst) → (r.progressOf 0).isPaused = true

/-- There is no heartbeat to send: no member but a node whose id is not zero. -/
def NoHeartbeatDue (r : Raft) : Prop := ∀ dst, r.IsMember dst → dst = r.id ∧ r.id ≠ 0

/-! ## Loops over the members -/

/-- Where nothing is due, to do nothing is to broadcast. -/
theorem broadcasts_refl (h : ∀ dst, ¬ due dst) : Broadcasts P due r r := by
  refine ⟨[], ?_, by simp, fun dst => ⟨fun hdue => absurd hdue (h dst), fun _ => rfl⟩⟩
  rw [List.append_nil]

/-- A broadcast that changes nothing had nothing to send. -/
theorem not_due_of_broadcasts_refl (h : Broadcasts P due r r) (dst : UInt64) : ¬ due dst := by
  obtain ⟨sent, heq, -, hcount⟩ := h
  obtain rfl : sent = [] := by
    have hmsgs : r.msgs = r.msgs ++ sent := congrArg Raft.msgs heq
    rwa [List.self_eq_append_right] at hmsgs
  intro hdue
  exact absurd ((hcount dst).1 hdue) Nat.zero_ne_one

/-- A message for the node itself is no broadcast. -/
theorem not_broadcasts_of_queued {m : Message} (hq : Queues (fun _ => True) (r.send m) r')
    (hdue : ¬ due m.to_) : ¬ Broadcasts P due r r' := by
  rintro ⟨sent, rfl, -, hcount⟩
  obtain ⟨rest, heq, -⟩ := hq
  have heq : r.msgs ++ sent = r.msgs ++ [{ m with from_ := r.id }] ++ rest := heq
  rw [List.append_assoc] at heq
  obtain rfl := List.append_cancel_left heq
  have hnone := (hcount m.to_).2 hdue
  simp at hnone

theorem isMember_iff_mem_toList {dst : UInt64} :
    r.IsMember dst ↔
      (∃ p, (dst, p) ∈ r.prs.toList) ∨ ∃ p, (dst, p) ∈ r.learnerPrs.toList :=
  or_congr mem_iff_exists_mem_toList mem_iff_exists_mem_toList

theorem foldl_queues (hf : ∀ r id p, Queues P r (f r id p)) (xs : List (UInt64 × Progress))
    (r : Raft) : Queues P r (xs.foldl (fun r x => f r x.1 x.2) r) :=
  Machine.foldl_related (f := fun r x => f r x.1 x.2) Queues.refl (fun _ _ _ => Queues.trans)
    (fun r x => hf r x.1 x.2) r xs

/-- With a member the loop runs at least once. -/
theorem exists_first_visit (hf : ∀ r id p, Queues P r (f r id p))
    (h : ∃ dst, r.IsMember dst) : ∃ id p, Queues P (f r id p) (r.forEachProgress f) := by
  unfold forEachProgress
  rcases hprs : r.prs.toList with _ | ⟨x, xs⟩
  · obtain ⟨dst, hmem⟩ := h
    rw [isMember_iff_mem_toList, hprs] at hmem
    obtain ⟨p, hmem⟩ := hmem.resolve_left (by simp)
    obtain ⟨x, xs, hlearners⟩ := List.exists_cons_of_ne_nil (List.ne_nil_of_mem hmem)
    dsimp only [List.foldl_nil]
    rw [hlearners, List.foldl_cons]
    exact ⟨x.1, x.2, foldl_queues hf xs _⟩
  · rw [List.foldl_cons]
    exact ⟨x.1, x.2, (foldl_queues hf xs _).trans (foldl_queues hf _ _)⟩

/-- Without members it does nothing. -/
theorem forEachProgress_of_no_member (h : ¬ ∃ dst, r.IsMember dst) : r.forEachProgress f = r := by
  have hnone : ∀ dst p, (dst, p) ∉ r.prs.toList ∧ (dst, p) ∉ r.learnerPrs.toList := by
    intro dst p
    constructor
    · intro hp
      exact h ⟨dst, isMember_iff_mem_toList.mpr (.inl ⟨p, hp⟩)⟩
    · intro hp
      exact h ⟨dst, isMember_iff_mem_toList.mpr (.inr ⟨p, hp⟩)⟩
  have hprs : r.prs.toList = [] :=
    List.eq_nil_iff_forall_not_mem.mpr fun x hx => (hnone x.1 x.2).1 hx
  have hlearners : r.learnerPrs.toList = [] :=
    List.eq_nil_iff_forall_not_mem.mpr fun x hx => (hnone x.1 x.2).2 hx
  unfold forEachProgress
  rw [hprs]
  dsimp only [List.foldl_nil]
  rw [hlearners, List.foldl_nil]

/-- A loop whose body does nothing in this state does nothing. -/
theorem forEachProgress_eq_self (h : ∀ id p, f r id p = r) : r.forEachProgress f = r := by
  have hfold : ∀ xs : List (UInt64 × Progress), xs.foldl (fun r x => f r x.1 x.2) r = r := by
    intro xs
    induction xs with
    | nil => rfl
    | cons x xs ih => rw [List.foldl_cons, h, ih]
  unfold forEachProgress
  dsimp only
  rw [hfold, hfold]

/-! ## The two broadcasts -/

/-- The lookup of a member inserts nothing. -/
theorem sendAppend_eq_self {dst : UInt64} (hpaused : (r.progressOf dst).isPaused = true) :
    r.sendAppend u dst = r := by
  have hget : (r.getProgress dst).2 = r := by
    unfold getProgress
    split
    · rfl
    · next hprs =>
        have hlearner : dst ∈ r.learnerPrs := by
          by_contra hnot
          -- a stranger would get the default progress, which is not paused
          rw [progressOf, if_neg hprs, Std.TreeMap.getD_eq_fallback hnot] at hpaused
          cases hpaused
        rw [insertIfNew_of_mem hlearner]
  obtain ⟨ptr, learnerPrs, hfound, hpr⟩ := exists_getProgress r dst
  rw [hfound] at hget
  unfold sendAppend
  rw [hfound]
  dsimp only
  rw [hpr, hpaused, if_pos rfl]
  exact hget

theorem sendAppend_queues_send {dst : UInt64} (hpaused : (r.progressOf dst).isPaused = false) :
    ∃ m, m.to_ = dst ∧ Queues (fun _ => True) (r.send m) (r.sendAppend u dst) := by
  have hfields : (r.appendMessage u dst).to_ = dst ∧ (r.appendMessage u dst).from_ = r.id := by
    unfold appendMessage
    dsimp only
    split <;> exact ⟨rfl, rfl⟩
  refine ⟨r.appendMessage u dst, hfields.1, .of_eq ?_⟩
  rw [sendAppend_msgs u hpaused]
  show _ = r.msgs ++ [{ r.appendMessage u dst with from_ := r.id }]
  rw [← hfields.2]

theorem bcastAppend_eq_forEachProgress (u : Unspecified) (r : Raft) :
    r.bcastAppend u = r.forEachProgress fun r _ _ => r.bcastVisit u := rfl

/-- What the loop of a heartbeat broadcast does for one member. -/
def heartbeatVisit (u : Unspecified) (r : Raft) (ctx : Bytes) : Raft :=
  if r.id ≠ 0 then r else r.sendHeartbeat u r.id ctx

theorem bcastHeartbeatWithCtx_eq_forEachProgress (u : Unspecified) (r : Raft) (ctx : Bytes) :
    r.bcastHeartbeatWithCtx u ctx = r.forEachProgress fun r _ _ => r.heartbeatVisit u ctx := rfl

theorem sendAppend_queues (u : Unspecified) (r : Raft) (dst : UInt64) :
    Queues (fun _ => True) r (r.sendAppend u dst) := by
  obtain ⟨sent, heq, -⟩ := sendAppend_queuesOwn u r dst
  exact ⟨sent, heq, fun _ _ => trivial⟩

theorem bcastVisit_queues (u : Unspecified) (r : Raft) :
    Queues (fun _ => True) r (r.bcastVisit u) := by
  unfold bcastVisit
  split
  · exact .refl r
  · exact sendAppend_queues u r r.id

theorem heartbeatVisit_queues (u : Unspecified) (r : Raft) (ctx : Bytes) :
    Queues (fun _ => True) r (r.heartbeatVisit u ctx) := by
  unfold heartbeatVisit
  split
  · exact .refl r
  · exact ⟨_, rfl, fun _ _ => trivial⟩

theorem broadcasts_iff_of_eq_self (h : r' = r) :
    Broadcasts P due r r' ↔ ∀ dst, ¬ due dst := by
  subst h
  exact ⟨not_due_of_broadcasts_refl, broadcasts_refl⟩

theorem noAppendDue_iff (hself : r.id = 0 → (∃ dst, r.IsMember dst) →
      (r.progressOf 0).isPaused = true) :
    (∀ dst, ¬ (r.IsPeer dst ∧ (r.progressOf dst).isPaused = false)) ↔ NoAppendDue r := by
  constructor
  · intro h
    refine ⟨fun dst hpeer => ?_, hself⟩
    by_contra hpaused
    exact h dst ⟨hpeer, Bool.not_eq_true _ ▸ hpaused⟩
  · rintro h dst ⟨hpeer, hpaused⟩
    rw [h.peers dst hpeer] at hpaused
    cases hpaused

/-- **Whom an append broadcast reaches.** It does what it should exactly when there is
nothing to send. -/
theorem broadcastsAppend_iff (u : Unspecified) (r : Raft) :
    BroadcastsAppend u r ↔ NoAppendDue r := by
  unfold BroadcastsAppend
  rw [bcastAppend_eq_forEachProgress]
  by_cases hid : r.id = 0
  swap
  · have hquiet : ∀ (id : UInt64) (p : Progress), r.bcastVisit u = r := fun _ _ => if_pos hid
    rw [broadcasts_iff_of_eq_self (forEachProgress_eq_self hquiet)]
    exact noAppendDue_iff fun hzero => absurd hzero hid
  by_cases hmember : ∃ dst, r.IsMember dst
  swap
  · rw [broadcasts_iff_of_eq_self (forEachProgress_of_no_member hmember)]
    exact noAppendDue_iff fun _ h => absurd h hmember
  have hvisit : r.bcastVisit u = r.sendAppend u 0 := by
    rw [bcastVisit, if_neg (not_not.mpr hid), hid]
  cases hpaused : (r.progressOf 0).isPaused with
  | true =>
      have hquiet : ∀ (id : UInt64) (p : Progress), r.bcastVisit u = r :=
        fun _ _ => hvisit.trans (sendAppend_eq_self hpaused)
      rw [broadcasts_iff_of_eq_self (forEachProgress_eq_self hquiet)]
      exact noAppendDue_iff fun _ _ => hpaused
  | false =>
      -- the first member costs the node a message to itself
      obtain ⟨m, hto, hfirst⟩ := sendAppend_queues_send (u := u) hpaused
      obtain ⟨id, p, hrest⟩ := exists_first_visit (fun r _ _ => bcastVisit_queues u r) hmember
      rw [hvisit] at hrest
      apply iff_of_false
      · apply not_broadcasts_of_queued (hfirst.trans hrest)
        rintro ⟨⟨-, hne⟩, -⟩
        exact hne (hto.trans hid.symm)
      · intro h
        rw [h.self hid hmember] at hpaused
        cases hpaused

/-- **Whom a heartbeat broadcast reaches.** -/
theorem broadcastsHeartbeat_iff (u : Unspecified) (r : Raft) (ctx : Bytes) :
    BroadcastsHeartbeat u r ctx ↔ NoHeartbeatDue r := by
  unfold BroadcastsHeartbeat
  rw [bcastHeartbeatWithCtx_eq_forEachProgress]
  by_cases hid : r.id = 0
  swap
  · have hquiet : ∀ (id : UInt64) (p : Progress), r.heartbeatVisit u ctx = r :=
      fun _ _ => if_pos hid
    rw [broadcasts_iff_of_eq_self (forEachProgress_eq_self hquiet)]
    constructor
    · intro h dst hmember
      exact ⟨not_not.mp fun hne => h dst ⟨hmember, hne⟩, hid⟩
    · rintro h dst ⟨hmember, hne⟩
      exact hne (h dst hmember).1
  by_cases hmember : ∃ dst, r.IsMember dst
  swap
  · rw [broadcasts_iff_of_eq_self (forEachProgress_of_no_member hmember)]
    constructor
    · intro _ dst hdst
      exact absurd ⟨dst, hdst⟩ hmember
    · rintro - dst ⟨hdst, -⟩
      exact hmember ⟨dst, hdst⟩
  obtain ⟨id, p, hrest⟩ := exists_first_visit (fun r _ _ => heartbeatVisit_queues u r ctx) hmember
  have hvisit : r.heartbeatVisit u ctx = r.sendHeartbeat u r.id ctx := if_neg (not_not.mpr hid)
  rw [hvisit] at hrest
  apply iff_of_false
  · exact not_broadcasts_of_queued hrest fun hpeer => hpeer.2 rfl
  · intro h
    obtain ⟨dst, hdst⟩ := hmember
    exact (h dst hdst).2 hid

/-- **When broadcasts reach the other members**: when there is nobody they should reach. -/
theorem broadcasts_reach_iff (u : Unspecified) (r : Raft) (ctx : Bytes) :
    (BroadcastsAppend u r ↔ NoAppendDue r) ∧ (BroadcastsHeartbeat u r ctx ↔ NoHeartbeatDue r) :=
  ⟨broadcastsAppend_iff u r, broadcastsHeartbeat_iff u r ctx⟩

/-- The leader of three nodes sends nothing at all. -/
theorem broadcasts_reach_fails :
    ¬ ∀ (u : Unspecified) (r : Raft) (ctx : Bytes), (∀ i ∈ r.prs, i ∉ r.learnerPrs) →
      BroadcastsAppend u r ∧ BroadcastsHeartbeat u r ctx := by
  intro h
  have hlearners : ∀ i ∈ leaderOfThree.prs, i ∉ leaderOfThree.learnerPrs :=
    fun i _ => Std.TreeMap.not_mem_emptyc
  obtain ⟨-, sent, heq, -, hcount⟩ := h .filledIn leaderOfThree [] hlearners
  obtain rfl : sent = [] := (congrArg Raft.msgs heq).symm
  have hpeer : leaderOfThree.IsPeer 2 := ⟨by decide, by decide⟩
  exact absurd ((hcount 2).1 hpeer) Nat.zero_ne_one

end Raft

end Anraft
