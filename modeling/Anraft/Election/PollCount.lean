import Anraft.Base.TreeMap
import Anraft.Election.Majority

/-!
# The count of `Poll`

`votes_` keeps the first answer of every id, so the entries that are `true` are the
distinct ids whose first answer was a grant. `Poll` counts them on top of a local
variable that nothing has set.
-/

namespace Anraft

namespace Raft

variable {r : Raft} {c d : PollCall} {calls : List PollCall}

/-- A call of `Poll`, with what it finds on its stack. -/
structure PollCall where
  u : Unspecified
  id : UInt64
  type : MessageType
  vote : Bool

def pollCall (r : Raft) (c : PollCall) : ℤ × Raft := r.poll c.u c.id c.type c.vote

def pollAll (r : Raft) (calls : List PollCall) : Raft :=
  calls.foldl (fun r c => (r.pollCall c).2) r

/-- What the call `c` returns after the calls `before`. -/
def pollCount (r : Raft) (before : List PollCall) (c : PollCall) : ℤ :=
  ((r.pollAll before).pollCall c).1

/-! ## First answers -/

def firstAnswer (calls : List PollCall) (id : UInt64) : Option Bool :=
  (calls.find? (·.id = id)).map (·.vote)

/-- The distinct ids whose first answer was a grant. -/
def grantedBy (calls : List PollCall) : Finset UInt64 :=
  (calls.map (·.id)).toFinset.filter fun id => firstAnswer calls id = some true

theorem firstAnswer_append (calls calls' : List PollCall) (id : UInt64) :
    firstAnswer (calls ++ calls') id = (firstAnswer calls id).or (firstAnswer calls' id) := by
  unfold firstAnswer
  rw [List.find?_append, Option.map_or]

theorem firstAnswer_singleton (c : PollCall) (id : UInt64) :
    firstAnswer [c] id = if c.id = id then some c.vote else none := by
  unfold firstAnswer
  by_cases hid : c.id = id
  · simp [hid]
  · simp [hid]

theorem firstAnswer_isSome_iff {id : UInt64} :
    (firstAnswer calls id).isSome ↔ ∃ c ∈ calls, c.id = id := by
  unfold firstAnswer
  simp

theorem mem_grantedBy {id : UInt64} : id ∈ grantedBy calls ↔ firstAnswer calls id = some true := by
  unfold grantedBy
  rw [Finset.mem_filter, List.mem_toFinset, List.mem_map]
  apply and_iff_right_of_imp
  intro h
  exact firstAnswer_isSome_iff.mp (Option.isSome_of_eq_some h)

theorem grantedBy_congr {calls' : List PollCall}
    (h : ∀ id, firstAnswer calls' id = firstAnswer calls id) :
    grantedBy calls' = grantedBy calls := by
  ext id
  rw [mem_grantedBy, mem_grantedBy, h]

/-- A further answer of an id does not count. -/
theorem grantedBy_snoc_of_answered (h : ∃ c ∈ calls, c.id = d.id) :
    grantedBy (calls ++ [d]) = grantedBy calls := by
  apply grantedBy_congr
  intro id
  rw [firstAnswer_append, firstAnswer_singleton]
  by_cases hid : d.id = id
  · subst hid
    obtain ⟨vote, hvote⟩ := Option.isSome_iff_exists.mp (firstAnswer_isSome_iff.mpr h)
    rw [hvote, Option.some_or]
  · rw [if_neg hid, Option.or_none]

/-! ## The map and the count -/

theorem pollAll_snoc (r : Raft) (calls : List PollCall) (c : PollCall) :
    r.pollAll (calls ++ [c]) = ((r.pollAll calls).pollCall c).2 := by
  unfold pollAll
  rw [List.foldl_append]
  rfl

theorem pollCall_votes (r : Raft) (c : PollCall) :
    (r.pollCall c).2.votes = r.votes.insertIfNew c.id c.vote := rfl

/-- **The map keeps first answers.** -/
theorem pollAll_votes (h : r.votes = ∅) (calls : List PollCall) (id : UInt64) :
    (r.pollAll calls).votes[id]? = firstAnswer calls id := by
  induction calls using List.reverseRecOn with
  | nil =>
      show r.votes[id]? = none
      rw [h]
      rfl
  | append_singleton calls c ih =>
      have hmem : id ∈ (r.pollAll calls).votes ↔ (firstAnswer calls id).isSome := by
        rw [Std.TreeMap.mem_iff_isSome_getElem?, ih]
      rw [pollAll_snoc, pollCall_votes, Std.TreeMap.getElem?_insertIfNew, firstAnswer_append,
        firstAnswer_singleton, ih]
      by_cases hid : c.id = id
      · subst hid
        cases hfirst : firstAnswer calls c.id with
        | none => simp [hmem, hfirst]
        | some vote => simp [hmem, hfirst]
      · simp [hid]

/-- **The count.** -/
theorem pollCount_eq (h : r.votes = ∅) (before : List PollCall) (c : PollCall) :
    r.pollCount before c = c.u.grant + (grantedBy (before ++ [c])).card := by
  unfold pollCount pollCall
  rw [poll_fst, yesVotes, TreeMap.countP_toList_eq_card (S := grantedBy (before ++ [c]))]
  intro id
  rw [mem_grantedBy, ← pollAll_votes h, pollAll_snoc, pollCall_votes]
  simp

/-! ## Runs -/

/-- What a run of `Poll` promises. -/
structure CountsGrants (r : Raft) (calls : List PollCall) : Prop where
  /-- The value of every call is the number of ids that first answered with a grant. -/
  counted : ∀ before c after, calls = before ++ c :: after →
    r.pollCount before c = (grantedBy (before ++ [c])).card
  /-- An id that answers again, in the same way or not, leaves the count as it is. -/
  repeated : ∀ before c d after, calls = before ++ c :: d :: after →
    (∃ e ∈ before ++ [c], e.id = d.id) → r.pollCount (before ++ [c]) d = r.pollCount before c
  /-- Calls in another order, with the same first answers, end with the same count. -/
  order : ∀ before c before' c', before ++ [c] <+: calls →
    (before' ++ [c']).Perm (before ++ [c]) →
    (∀ id, firstAnswer (before' ++ [c']) id = firstAnswer (before ++ [c]) id) →
    r.pollCount before' c' = r.pollCount before c

theorem CountsGrants.of_grant_eq_zero (h : r.votes = ∅) (hgrant : ∀ c ∈ calls, c.u.grant = 0) :
    CountsGrants r calls := by
  have hcount : ∀ before c, c ∈ calls →
      r.pollCount before c = (grantedBy (before ++ [c])).card := by
    intro before c hc
    rw [pollCount_eq h, hgrant c hc, zero_add]
  constructor
  · rintro before c after rfl
    exact hcount before c (by simp)
  · rintro before c d after rfl hanswered
    rw [hcount before c (by simp), hcount _ d (by simp), grantedBy_snoc_of_answered hanswered]
  · intro before c before' c' hprefix hperm hfirst
    have hmem : ∀ e ∈ before ++ [c], e ∈ calls := hprefix.subset
    have hc' : c' ∈ before ++ [c] := hperm.subset (by simp)
    rw [hcount before c (hmem c (by simp)), hcount before' c' (hmem c' hc'),
      grantedBy_congr hfirst]

/-- **The exact condition.** The counts of a run are those of the granting ids exactly
when every call finds a zero in the variable. -/
theorem countsGrants_iff (h : r.votes = ∅) :
    CountsGrants r calls ↔ ∀ c ∈ calls, c.u.grant = 0 := by
  constructor
  · intro hcounts c hc
    obtain ⟨before, after, rfl⟩ := List.append_of_mem hc
    have hcount := hcounts.counted before c after rfl
    rw [pollCount_eq h] at hcount
    exact add_eq_right.mp hcount
  · exact CountsGrants.of_grant_eq_zero h

theorem countsGrants_three :
    CountsGrants (started 1 [1, 2, 3])
      [⟨.filledIn, 2, .msgVoteResp, true⟩, ⟨.filledIn, 2, .msgVoteResp, false⟩,
        ⟨.filledIn, 3, .msgVoteResp, true⟩] :=
  (countsGrants_iff rfl).mpr (by simp [Unspecified.filledIn])

/-- A call that finds a two counts one grant as three. -/
theorem not_countsGrants_unset :
    ¬ ∀ (r : Raft) (calls : List PollCall), r.votes = ∅ → CountsGrants r calls := by
  intro h
  have hcount := (h (started 1 [1, 2, 3])
    [⟨{ Unspecified.filledIn with grant := 2 }, 2, .msgVoteResp, true⟩] rfl).counted [] _ [] rfl
  exact absurd hcount (by decide)

end Raft

end Anraft
