import Anraft.Impl.CommittedTerm

/-!
# The index a majority has

The match indexes are sorted in ascending order and read at `size / 2 - 1`. That is the
greatest index all but `size / 2 - 1` of them reach: a majority if the number of nodes is
even, one node more than a majority if it is odd. A single node has no such position.
-/

namespace Anraft

namespace AnraftImpl

open OrderStatistic

variable {u : Unspecified} {s : AnraftImpl} {index : ℤ}

/-- How many nodes have `index`; the local node has every index. -/
def holding (s : AnraftImpl) (index : ℤ) : ℕ :=
  (s.options.nodes.zip s.followerContexts).countP fun x =>
    decide (x.1 = s.options.localAddr ∨ index ≤ x.2.matchIndex)

/-- The indexes a majority has. -/
def majorityHeld (s : AnraftImpl) : Set ℤ := {i | s.options.nodes.length / 2 + 1 ≤ s.holding i}

/-- The position read lies in the vector. With another node in the cluster the value is the
greatest index a majority has, and it is the match index of another node. -/
structure ReadsMajorityIndex (u : Unspecified) (s : AnraftImpl) : Prop where
  inside : matchPosition s.options.nodes.length < (s.vecMatchIndex u).length
  greatest : 2 ≤ s.options.nodes.length → IsGreatest s.majorityHeld (s.matchedIndex u)
  notSentinel : 2 ≤ s.options.nodes.length →
    ∃ x ∈ s.options.nodes.zip s.followerContexts,
      x.1 ≠ s.options.localAddr ∧ x.2.matchIndex = s.matchedIndex u

/-- How many nodes have `index`, the local node none above `2 ^ 60`. -/
def holdingCapped (s : AnraftImpl) (index : ℤ) : ℕ :=
  (s.options.nodes.zip s.followerContexts).countP fun x =>
    decide (index ≤ if x.1 = s.options.localAddr then 2 ^ 60 else x.2.matchIndex)

/-- Every index a majority has is one that `n - n / 2 + 1` of the `n` nodes have, where
the local node has none above `2 ^ 60`. For an odd `n` that is a node more. -/
def MajorityIsEnough (s : AnraftImpl) : Prop :=
  ∀ index, s.options.nodes.length / 2 + 1 ≤ s.holding index →
    s.options.nodes.length - s.options.nodes.length / 2 + 1 ≤ s.holdingCapped index

theorem matchPosition_lt_iff {n : ℕ} : matchPosition n < n ↔ 2 ≤ n := by
  unfold matchPosition
  split <;> omega

theorem reaching_vecMatchIndex (u : Unspecified)
    (hlength : s.followerContexts.length = s.options.nodes.length) (index : ℤ) :
    reaching (s.vecMatchIndex u) index = s.holdingCapped index := by
  unfold reaching holdingCapped
  rw [vecMatchIndex_eq_zip u hlength, List.countP_map]
  rfl

/-- What is matched is held by a majority. -/
theorem mem_majorityHeld_of_matched
    (hlength : s.followerContexts.length = s.options.nodes.length) (h : s.Matched u index) :
    index ∈ s.majorityHeld := by
  have hreached : s.options.nodes.length - s.options.nodes.length / 2 <
      reaching (s.vecMatchIndex u) index := h.1
  have hheld : reaching (s.vecMatchIndex u) index ≤ s.holding index :=
    reaching_le_stored u hlength index
  show s.options.nodes.length / 2 + 1 ≤ s.holding index
  omega

/-- The greatest index of a majority is the match index of another node: with one that no
node has exactly, the next index would be held as well. -/
theorem exists_matchIndex_of_isGreatest (h : IsGreatest s.majorityHeld index) :
    ∃ x ∈ s.options.nodes.zip s.followerContexts,
      x.1 ≠ s.options.localAddr ∧ x.2.matchIndex = index := by
  by_contra hnone
  have hnext : s.holding index ≤ s.holding (index + 1) := by
    apply List.countP_mono_left
    intro x hx hheld
    rw [decide_eq_true_eq] at hheld ⊢
    by_cases hlocal : x.1 = s.options.localAddr
    · exact .inl hlocal
    · have hle := hheld.resolve_left hlocal
      have hne : x.2.matchIndex ≠ index := fun heq => hnone ⟨x, hx, hlocal, heq⟩
      exact .inr (Int.add_one_le_of_lt (lt_of_le_of_ne hle hne.symm))
  have hmem : index + 1 ∈ s.majorityHeld := le_trans h.1 hnext
  exact absurd (h.2 hmem) (Int.not_le.mpr (Int.lt_succ index))

/-- The value read is the greatest index of a majority if every such index is held by as
many nodes as the position demands. -/
theorem isGreatest_matchedIndex_iff
    (hlength : s.followerContexts.length = s.options.nodes.length)
    (hnodes : 2 ≤ s.options.nodes.length) :
    IsGreatest s.majorityHeld (s.matchedIndex u) ↔ s.MajorityIsEnough := by
  have hmatched := matched_matchedIndex (u := u) hlength hnodes
  constructor
  · intro h index hindex
    rw [← reaching_vecMatchIndex u hlength]
    exact lt_of_lt_of_le hmatched.1 (reaching_anti _ (h.2 hindex))
  · intro h
    refine ⟨mem_majorityHeld_of_matched hlength hmatched, fun index hindex => hmatched.2 ?_⟩
    show _ < reaching (s.vecMatchIndex u) index
    rw [reaching_vecMatchIndex u hlength]
    exact h index hindex

/-- **When the index of a majority is read.** With a context for each node, exactly if there
are two nodes or more, and the index of a majority is held by as many nodes as the
position demands. -/
theorem reads_majority_index_iff (u : Unspecified) (s : AnraftImpl)
    (hlength : s.followerContexts.length = s.options.nodes.length) :
    ReadsMajorityIndex u s ↔ 2 ≤ s.options.nodes.length ∧ s.MajorityIsEnough := by
  have hinside : matchPosition s.options.nodes.length < (s.vecMatchIndex u).length ↔
      2 ≤ s.options.nodes.length := by
    rw [length_vecMatchIndex, hlength, matchPosition_lt_iff]
  constructor
  · intro h
    have hnodes := hinside.mp h.inside
    exact ⟨hnodes, (isGreatest_matchedIndex_iff hlength hnodes).mp (h.greatest hnodes)⟩
  · rintro ⟨hnodes, henough⟩
    have hgreatest := (isGreatest_matchedIndex_iff (u := u) hlength hnodes).mpr henough
    exact ⟨hinside.mpr hnodes, fun _ => hgreatest,
      fun _ => exists_matchIndex_of_isGreatest hgreatest⟩

theorem holding_anti {i j : ℤ} (hij : i ≤ j) : s.holding j ≤ s.holding i := by
  apply List.countP_mono_left
  intro x _ hx
  rw [decide_eq_true_eq] at hx ⊢
  exact hx.imp_right hij.trans

/-- Two followers that match the same entry. -/
theorem reads_majority_index_iff_same_match : ReadsMajorityIndex sameTerm leaderInTermTwo := by
  refine (reads_majority_index_iff sameTerm leaderInTermTwo rfl).mpr ⟨by decide, ?_⟩
  intro index hheld
  have hle : index ≤ 1 := by
    by_contra hlt
    have htwo : leaderInTermTwo.holding index ≤ leaderInTermTwo.holding 2 :=
      holding_anti (Int.add_one_le_of_lt (not_le.mp hlt))
    exact absurd (hheld.trans htwo) (by decide)
  rw [← reaching_vecMatchIndex sameTerm rfl]
  exact le_trans (by decide) (reaching_anti _ hle)

/-- The leader of three nodes whose followers match entries 1 and 2. -/
def twoAndOne : AnraftImpl :=
  { leaderInTermTwo with
    followerContexts :=
      [{ nextIndex := 3, matchIndex := 0 }, { nextIndex := 2, matchIndex := 1 },
        { nextIndex := 3, matchIndex := 2 }] }

/-- Two of three nodes have entry 2, and the index read is 1. -/
theorem reads_majority_index_fails :
    ¬ ∀ (u : Unspecified) (s : AnraftImpl), 1 ≤ s.options.nodes.length →
      s.followerContexts.length = s.options.nodes.length →
      s.options.nodes.count s.options.localAddr = 1 →
      (∀ context ∈ s.followerContexts, 0 ≤ context.matchIndex) → ReadsMajorityIndex u s := by
  intro h
  have hread := h sameTerm twoAndOne (by decide) rfl (by decide) (by decide)
  have htwo : (2 : ℤ) ∈ twoAndOne.majorityHeld := by
    show twoAndOne.options.nodes.length / 2 + 1 ≤ twoAndOne.holding 2
    decide
  have hle := (hread.greatest (by decide)).2 htwo
  revert hle
  decide

/-! ## Indexes below the one that stands for the local node -/

theorem holdingCapped_eq_holding (hindex : index ≤ 2 ^ 60) :
    s.holdingCapped index = s.holding index := by
  unfold holdingCapped holding
  congr 1
  funext x
  by_cases hlocal : x.1 = s.options.localAddr
  · simp only [hlocal, if_true, hindex, true_or]
  · simp only [hlocal, if_false, false_or]

/-- No index above the matches of all others has a majority. -/
theorem le_of_majority (hlength : s.followerContexts.length = s.options.nodes.length)
    (hlocal : s.options.nodes.count s.options.localAddr = 1)
    (hnodes : 2 ≤ s.options.nodes.length)
    (hsmall : ∀ context ∈ s.followerContexts, context.matchIndex ≤ 2 ^ 60)
    (hheld : s.options.nodes.length / 2 + 1 ≤ s.holding index) : index ≤ 2 ^ 60 := by
  by_contra hlt
  have hone : s.holding index ≤ 1 := by
    have hfst : (s.options.nodes.zip s.followerContexts).map Prod.fst = s.options.nodes :=
      List.map_fst_zip hlength.ge
    rw [← hlocal, ← hfst, List.count, List.countP_map]
    apply List.countP_mono_left
    intro x hx hheld
    rw [decide_eq_true_eq] at hheld
    rw [Function.comp_apply, beq_iff_eq]
    exact hheld.resolve_right fun hle => hlt (hle.trans (hsmall x.2 (List.of_mem_zip hx).2))
  have hhalf : 1 ≤ s.options.nodes.length / 2 := (Nat.le_div_iff_mul_le two_pos).mpr hnodes
  exact absurd (hheld.trans hone) (Nat.not_le.mpr (Nat.lt_add_one_of_le hhalf))

/-- **The condition for small indexes**: the number of nodes is even, or a majority is never
reached without one node to spare. -/
theorem majorityIsEnough_iff (hlength : s.followerContexts.length = s.options.nodes.length)
    (hlocal : s.options.nodes.count s.options.localAddr = 1)
    (hnodes : 2 ≤ s.options.nodes.length)
    (hsmall : ∀ context ∈ s.followerContexts, context.matchIndex ≤ 2 ^ 60) :
    s.MajorityIsEnough ↔
      Even s.options.nodes.length ∨
        ∀ index ∈ s.majorityHeld, s.options.nodes.length / 2 + 2 ≤ s.holding index := by
  have hcapped : s.MajorityIsEnough ↔ ∀ index ∈ s.majorityHeld,
      s.options.nodes.length - s.options.nodes.length / 2 + 1 ≤ s.holding index := by
    apply forall₂_congr
    intro index hheld
    rw [holdingCapped_eq_holding (le_of_majority hlength hlocal hnodes hsmall hheld)]
  rw [hcapped]
  rcases Nat.even_or_odd s.options.nodes.length with heven | hodd
  · refine iff_of_true (fun index hheld => ?_) (.inl heven)
    have hhalf := Nat.two_mul_div_two_of_even heven
    have hheld : s.options.nodes.length / 2 + 1 ≤ s.holding index := hheld
    omega
  · have hhalf := Nat.two_mul_div_two_add_one_of_odd hodd
    have hposition : s.options.nodes.length - s.options.nodes.length / 2 + 1 =
        s.options.nodes.length / 2 + 2 := by omega
    rw [hposition, or_iff_right (Nat.not_even_iff_odd.mpr hodd)]

end AnraftImpl

end Anraft
