import Anraft.Membership.Frame
import Anraft.Node

/-!
# Batches

`Run` reads the body of the first item of a batch and uses it for every item.
A batch therefore does what its items do one by one exactly when no item behind
the first one has a body to be read.
-/

namespace Anraft

/-- The types whose case in `Run` reads the message. -/
def NodeRecvMsg.HasMessage (x : NodeRecvMsg) : Prop :=
  x.type = .msgTypeProp ∨ x.type = .msgTypeRecv

instance (x : NodeRecvMsg) : Decidable x.HasMessage := inferInstanceAs (Decidable (_ ∨ _))

namespace Node

variable {u : Raft.Unspecified} {s : Node}

/-- A queue item with the answers during its processing. -/
abbrev Item : Type := Raft.Unspecified × NodeRecvMsg

/-- The items in separate calls of `Run`, in the same order. -/
def runEach (s : Node) (items : List Item) : Node := items.foldl (fun s x => s.run false [x]) s

/-! ## One item -/

/-- Without a message the pointer is not read. -/
theorem runItem_of_no_message {x : NodeRecvMsg} (h : ¬ x.HasMessage) (msg msg' : Address) :
    s.runItem u msg x = s.runItem u msg' x := by
  unfold runItem
  split
  · next htype => exact absurd (.inl htype) h
  · rfl
  · next htype => exact absurd (.inr htype) h
  · rfl
  all_goals rfl

/-- The lookup never fails, so the test of `MsgTypeRecv` is always passed. -/
theorem runItem_msgTypeRecv {x : NodeRecvMsg} (htype : x.type = .msgTypeRecv) (msg : Address) :
    s.runItem u msg x =
      step u { s with raft := (s.raft.getProgress (s.bodies msg).from_).2 } msg := by
  have hfound := Raft.getProgress_ne_none s.raft (s.bodies msg).from_
  unfold runItem
  rw [htype]
  dsimp only
  rw [Option.isSome_iff_ne_none.mpr hfound, Bool.true_or, if_pos rfl]

/-- The message in hand is stepped for every item that has one. -/
theorem runItem_stepped (x : NodeRecvMsg) (msg : Address) :
    (s.runItem u msg x).stepped = s.stepped ++ if x.HasMessage then [msg] else [] := by
  by_cases hprop : x.type = .msgTypeProp
  · rw [if_pos (.inl hprop), runItem, hprop]
    rfl
  by_cases hrecv : x.type = .msgTypeRecv
  · rw [if_pos (.inr hrecv), runItem_msgTypeRecv hrecv]
    rfl
  have hnone : ¬ x.HasMessage := not_or.mpr ⟨hprop, hrecv⟩
  rw [if_neg hnone, List.append_nil]
  unfold runItem
  split
  · next h => exact absurd h hprop
  · rfl
  · next h => exact absurd h hrecv
  all_goals rfl

/-! ## The batch -/

theorem runEach_cons (s : Node) (x : Item) (items : List Item) :
    s.runEach (x :: items) = runEach (s.runItem x.1 x.2.body x.2) items := rfl

/-- Whatever a batch steps is the body of its first item. -/
theorem foldl_runItem_stepped (items : List Item) (msg : Address) (s : Node) :
    ∀ body ∈ (items.foldl (fun s x => s.runItem x.1 msg x.2) s).stepped,
      body ∈ s.stepped ∨ body = msg := by
  induction items generalizing s with
  | nil => exact fun body h => .inl h
  | cons x items ih =>
      intro body hbody
      rcases ih (s.runItem x.1 msg x.2) body hbody with h | h
      · rw [runItem_stepped, List.mem_append] at h
        rcases h with h | h
        · exact .inl h
        · split at h
          · exact .inr (List.mem_singleton.mp h)
          · exact absurd h List.not_mem_nil
      · exact .inr h

/-- Items without a message are processed alike in a batch and one by one. -/
theorem foldl_runItem_of_no_message {items : List Item} (h : ∀ x ∈ items, ¬ x.2.HasMessage)
    (msg : Address) (s : Node) :
    items.foldl (fun s x => s.runItem x.1 msg x.2) s = s.runEach items ∧
      (s.runEach items).stepped = s.stepped := by
  induction items generalizing s with
  | nil => exact ⟨rfl, rfl⟩
  | cons x items ih =>
      have hx := h x List.mem_cons_self
      obtain ⟨hfold, hstepped⟩ := ih (fun y hy => h y (List.mem_cons_of_mem _ hy))
        (s.runItem x.1 x.2.body x.2)
      rw [List.foldl_cons, runItem_of_no_message hx msg x.2.body, runEach_cons]
      refine ⟨hfold, hstepped.trans ?_⟩
      rw [runItem_stepped, if_neg hx, List.append_nil]

/-- Every queued message is the body of one item alone. Items without a message may
share their bodies, as ticks do that carry none. -/
def OwnBodies (items : List Item) : Prop :=
  items.Pairwise fun x y => x.2.HasMessage ∨ y.2.HasMessage → x.2.body ≠ y.2.body

instance (items : List Item) : Decidable (OwnBodies items) :=
  inferInstanceAs (Decidable (items.Pairwise _))

/-- A batch over the messages `bodies` has the effect of its items one by one, and
steps every message queued in it exactly once. -/
structure Transparent (r : Raft) (bodies : Address → Message) (items : List Item) : Prop where
  raft : (run false { raft := r, bodies := bodies } items).raft =
    (runEach { raft := r, bodies := bodies } items).raft
  once : ∀ x ∈ items, x.2.HasMessage →
    (run false { raft := r, bodies := bodies } items).stepped.count x.2.body = 1

/-- **When batching is transparent.** For messages with an item each of their own, exactly
when no item behind the first one is a proposal or a received message. -/
theorem transparent_iff (r : Raft) (bodies : Address → Message) (items : List Item)
    (hown : OwnBodies items) :
    Transparent r bodies items ↔ ∀ x ∈ items.tail, ¬ x.2.HasMessage := by
  cases items with
  | nil => exact iff_of_true ⟨rfl, by simp⟩ (by simp)
  | cons first rest =>
      rw [OwnBodies, List.pairwise_cons] at hown
      rw [List.tail_cons]
      constructor
      · intro h x hx hmessage
        -- the body of `x` is not the one of the first item, and so was never stepped
        have hne : first.2.body ≠ x.2.body := hown.1 x hx (.inr hmessage)
        have honce := h.once x (List.mem_cons_of_mem _ hx) hmessage
        have hmem := List.count_pos_iff.mp (honce ▸ Nat.one_pos)
        rcases foldl_runItem_stepped (first :: rest) first.2.body _ _ hmem with h | h
        · exact absurd h List.not_mem_nil
        · exact hne h.symm
      · intro h
        obtain ⟨hfold, hstepped⟩ := foldl_runItem_of_no_message h first.2.body
          (runItem first.1 first.2.body { raft := r, bodies := bodies } first.2)
        have hrun : run false { raft := r, bodies := bodies } (first :: rest) =
            runEach { raft := r, bodies := bodies } (first :: rest) := hfold
        refine ⟨congrArg Node.raft hrun, fun x hx hmessage => ?_⟩
        rcases List.mem_cons.mp hx with rfl | hx
        · rw [hrun, runEach_cons, hstepped, runItem_stepped, if_pos hmessage]
          exact List.count_singleton_self
        · exact absurd hmessage (h x hx)

/-- A request for a vote and a tick. -/
theorem transparent_iff_request_and_tick :
    Transparent (Raft.started 1 [1, 2]) (fun _ => { type := .msgVote, from_ := 2, term := 5 })
      [(.filledIn, { type := .msgTypeRecv, body := 0 }),
        (.filledIn, { type := .msgTypeTick, body := 1 })] :=
  (transparent_iff _ _ _ (by decide)).mpr (by decide)

/-- A request for a pre-vote and a request for a vote in one batch: the pre-vote is
stepped twice, and the vote is not given. -/
theorem transparent_fails :
    ¬ ∀ (r : Raft) (bodies : Address → Message) (items : List Item),
      OwnBodies items → Transparent r bodies items := by
  intro h
  have hraft := (h (Raft.started 1 [1, 2])
    (fun body => { type := if body = 0 then .msgPreVote else .msgVote, from_ := 2, term := 5 })
    [(.filledIn, { type := .msgTypeRecv, body := 0 }),
      (.filledIn, { type := .msgTypeRecv, body := 1 })] (by decide)).raft
  exact absurd (congrArg Raft.vote hraft) (by decide)

end Node

end Anraft
