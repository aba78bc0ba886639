import Anraft.Replication.AckOrder

/-!
# A progress under acknowledgements

`MaybeUpdate` takes `match_` from the acknowledged index `n` and `next_` from `n + 1`.
The two part at the last index there is: `n + 1` is then zero, `match_` is raised to
the top and `next_` stays where it was.
-/

namespace Anraft

namespace Progress

variable {p : Progress} {n : UInt64} {ns : List UInt64}

abbrev updateMachine : Machine Progress UInt64 := .ofFun updated

/-- What one call promises: `match_` stays below `next_`, nothing decreases, and the
call reports and unpauses exactly when it has raised `match_`. -/
structure Acknowledges (p : Progress) (n : UInt64) : Prop where
  below : (p.updated n).match_ < (p.updated n).next
  match_le : p.match_ ≤ (p.updated n).match_
  next_le : p.next ≤ (p.updated n).next
  reports : (p.maybeUpdate n).1 = true ↔ p.match_ < (p.updated n).match_
  unpauses : (p.updated n).paused =
    if p.match_ < (p.updated n).match_ then false else p.paused

/-- Every call of the run keeps its promise, and `match_` ends as the greatest of its
old value and all acknowledged indexes. -/
structure AcknowledgesAll (p : Progress) (ns : List UInt64) : Prop where
  calls : updateMachine.Along Acknowledges p ns
  greatest : (ns.foldl updated p).match_ = ns.foldl max p.match_

/-! ## One call -/

theorem maybeUpdate_fst (p : Progress) (n : UInt64) :
    (p.maybeUpdate n).1 = decide (p.match_ < n) := rfl

theorem updated_paused (p : Progress) (n : UInt64) :
    (p.updated n).paused = if p.match_ < n then false else p.paused := by
  unfold updated maybeUpdate
  by_cases hm : p.match_ < n
  · simp only [if_pos hm]
    split <;> rfl
  · simp only [if_neg hm]
    split <;> rfl

/-- **One call** keeps its promise unless it acknowledges the last index there is. -/
theorem acknowledges_iff (h : p.match_ < p.next) :
    Acknowledges p n ↔ n.toNat ≠ 2 ^ 64 - 1 := by
  constructor
  · rintro ⟨hbelow, -, -, -, -⟩ htop
    rw [updated_match, max_eq_right (UInt64.le_of_toNat_eq_top htop)] at hbelow
    exact absurd hbelow (UInt64.le_of_toNat_eq_top htop).not_gt
  · intro hn
    refine ⟨?_, ?_, ?_, ?_, ?_⟩
    · rw [updated_match, updated_next, max_lt_iff]
      exact ⟨h.trans_le (le_max_left _ _),
        (UInt64.lt_add_one_of_ne_top hn).trans_le (le_max_right _ _)⟩
    · rw [updated_match]
      exact le_max_left _ _
    · rw [updated_next]
      exact le_max_left _ _
    · rw [maybeUpdate_fst, decide_eq_true_eq, updated_match, lt_max_iff]
      exact (or_iff_right (lt_irrefl _)).symm
    · rw [updated_paused, updated_match]
      simp only [lt_max_iff, lt_irrefl, false_or]

/-! ## Runs -/

theorem along_acknowledges_iff (h : p.match_ < p.next) :
    updateMachine.Along Acknowledges p ns ↔ ∀ n ∈ ns, n.toNat ≠ 2 ^ 64 - 1 := by
  induction ns generalizing p with
  | nil => simp [Machine.Along]
  | cons n ns ih =>
      rw [Machine.along_ofFun_cons, List.forall_mem_cons, ← acknowledges_iff h]
      exact and_congr_right fun hn => ih hn.below

/-- `match_` is below `next_` at the end of a run whose calls keep their promise. -/
theorem foldl_updated_below (h : p.match_ < p.next)
    (hcalls : updateMachine.Along Acknowledges p ns) :
    (ns.foldl updated p).match_ < (ns.foldl updated p).next := by
  refine Machine.traced_invariant
    (I := fun ns => (ns.foldl updated p).match_ < (ns.foldl updated p).next) h ?_ hcalls
  intro ns n hn _
  rw [List.foldl_append]
  exact hn.below

/-- **The exact condition.** A run of calls keeps `match_` below `next_`, and all else it
promises, exactly when none of them acknowledges the last index. -/
theorem acknowledgesAll_iff (h : p.match_ < p.next) :
    AcknowledgesAll p ns ↔ ∀ n ∈ ns, n.toNat ≠ 2 ^ 64 - 1 := by
  constructor
  · intro hall
    exact (along_acknowledges_iff h).mp hall.calls
  · intro hns
    exact ⟨(along_acknowledges_iff h).mpr hns, foldl_updated_match p ns⟩

theorem acknowledgesAll_three_two : AcknowledgesAll { next := 1, paused := true } [3, 2] :=
  (acknowledgesAll_iff (by decide)).mpr (by simp)

/-- A follower that acknowledges the last index leaves `next_` behind `match_`. -/
theorem not_acknowledgesAll_top :
    ¬ ∀ (p : Progress) (ns : List UInt64), p.match_ < p.next → AcknowledgesAll p ns := by
  intro h
  have hcalls := (h { next := 1 } [18446744073709551615] (by decide)).calls
  have hbelow := ((Machine.along_ofFun_cons _ _ _ _ _).mp hcalls).1.below
  exact absurd hbelow (by decide)

end Progress

namespace Raft

variable {r r' : Raft} {acks : List Message}

/-- What the acknowledgements of an index below the last one leave true of every member. -/
theorem Acked.match_lt_next (h : Acked r acks r')
    (hr : ∀ (i : UInt64) (p : Progress), r.prs[i]? = some p → p.match_ < p.next)
    (hacks : ∀ m ∈ acks, m.index.toNat ≠ 2 ^ 64 - 1) (i : UInt64) (p' : Progress)
    (hp' : r'.prs[i]? = some p') : p'.match_ < p'.next := by
  rw [h.prs, Option.map_eq_some_iff] at hp'
  obtain ⟨p, hp, rfl⟩ := hp'
  have hindexes : ∀ n ∈ indexesOf i acks, n.toNat ≠ 2 ^ 64 - 1 := by
    intro n hn
    obtain ⟨m, hm, rfl⟩ := List.mem_map.mp hn
    exact hacks m (List.mem_of_mem_filter hm)
  rw [foldl_ackedBy_eq]
  exact Progress.foldl_updated_below (hr i p hp)
    ((Progress.along_acknowledges_iff (hr i p hp)).mpr hindexes)

end Raft

end Anraft
