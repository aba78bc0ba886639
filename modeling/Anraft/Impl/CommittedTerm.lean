import Anraft.AnraftImpl
import Anraft.Base.OrderStatistic

/-!
# What a leader commits

The guard before a commit looks at the last entry of the batch just acknowledged; the
index that is committed is read off the indexes all followers match. The two are
different entries in general. The majority is there for every cluster of two nodes or
more; the term is the current one exactly if the log says so at the index matched.
-/

namespace Anraft

namespace AnraftImpl

variable {u : Unspecified} {s : AnraftImpl} {id : ℕ} {index : ℤ}

/-- The entry of the log at `index` has the term `term`. -/
def HasTerm (u : Unspecified) (index term : ℤ) : Prop :=
  ∃ entry, u.entryAt index = some entry ∧ entry.term.toInt = term

/-- A strict majority of the nodes, each with its context, stores `index`; the leader
itself counts as storing it. -/
def StoredByMajority (s : AnraftImpl) (index : ℤ) : Prop :=
  s.options.nodes.length <
    2 * (s.options.nodes.zip s.followerContexts).countP fun x =>
      decide (x.1 = s.options.localAddr ∨ index ≤ x.2.matchIndex)

/-- A call that raises the commit index raises it to an entry of the current term that a
majority stores. -/
def CommitsSafely (u : Unspecified) (s : AnraftImpl) (id : ℕ) : Prop :=
  s.commitIndex < (s.replicateLogToFollower u id).commitIndex →
    HasTerm u (s.replicateLogToFollower u id).commitIndex s.currentTerm ∧
      s.StoredByMajority (s.replicateLogToFollower u id).commitIndex

/-- The greatest index that all but `n / 2 - 1` of the `n` match indexes reach. -/
def Matched (u : Unspecified) (s : AnraftImpl) (index : ℤ) : Prop :=
  IsGreatest
    {y | s.options.nodes.length - s.options.nodes.length / 2 <
      OrderStatistic.reaching (s.vecMatchIndex u) y} index

/-- The condition on what is matched. With fewer than two nodes the vector is read out of
range, and the value found there has to fit. -/
def MatchedFits (u : Unspecified) (s : AnraftImpl) : Prop :=
  if 2 ≤ s.options.nodes.length then
    ∀ index, s.Matched u index → s.commitIndex < index → HasTerm u index s.currentTerm
  else
    s.commitIndex < u.outsideMatch →
      HasTerm u u.outsideMatch s.currentTerm ∧ s.StoredByMajority u.outsideMatch

/-! ## The index that is committed -/

/-- A call that does not pass its guards commits nothing. -/
theorem replicate_commitIndex_of_not_passesGuards (h : ¬ s.PassesGuards u id) :
    (s.replicateLogToFollower u id).commitIndex = s.commitIndex := by
  apply replicate_elim (P := fun s' => s'.commitIndex = s.commitIndex)
  · rfl
  · intro _ _
    rfl
  · rfl
  · intro hguards
    exact absurd hguards h

theorem replicate_commitIndex_of_passesGuards (h : s.PassesGuards u id) :
    (s.replicateLogToFollower u id).commitIndex = max s.commitIndex (s.matchedIndex u) := by
  obtain ⟨_, _, _, heq⟩ := commitMatches_eq u s
  rw [replicate_of_passesGuards h, heq]

/-- **The guard and the commit.** A commit is safe exactly if the index matched is. -/
theorem commitsSafely_iff_matchedIndex (h : s.PassesGuards u id) :
    CommitsSafely u s id ↔
      (s.commitIndex < s.matchedIndex u →
        HasTerm u (s.matchedIndex u) s.currentTerm ∧ s.StoredByMajority (s.matchedIndex u)) := by
  unfold CommitsSafely
  rw [replicate_commitIndex_of_passesGuards h]
  rcases lt_or_ge s.commitIndex (s.matchedIndex u) with hlt | hle
  · rw [max_eq_right hlt.le]
  · rw [max_eq_left hle]
    exact iff_of_true (fun h => absurd h (lt_irrefl _)) fun h => absurd h hle.not_gt

/-! ## The index that is matched -/

theorem length_vecMatchIndex (u : Unspecified) (s : AnraftImpl) :
    (s.vecMatchIndex u).length = s.followerContexts.length := List.length_mapIdx

/-- With a context for each node the match indexes are those of the nodes. -/
theorem vecMatchIndex_eq_zip (u : Unspecified)
    (hlength : s.followerContexts.length = s.options.nodes.length) :
    s.vecMatchIndex u =
      (s.options.nodes.zip s.followerContexts).map fun x =>
        if x.1 = s.options.localAddr then 2 ^ 60 else x.2.matchIndex := by
  unfold vecMatchIndex
  apply List.ext_getElem
  · rw [List.length_mapIdx, List.length_map, List.length_zip, hlength, min_self]
  · intro i hi hi'
    have hnode : i < s.options.nodes.length := by rwa [List.length_mapIdx, hlength] at hi
    rw [List.getElem_mapIdx, List.getElem_map, List.getElem_zip, List.getD_eq_getElem _ _ hnode]

/-- Who reaches an index in the vector stores it. -/
theorem reaching_le_stored (u : Unspecified)
    (hlength : s.followerContexts.length = s.options.nodes.length) (index : ℤ) :
    OrderStatistic.reaching (s.vecMatchIndex u) index ≤
      (s.options.nodes.zip s.followerContexts).countP fun x =>
        decide (x.1 = s.options.localAddr ∨ index ≤ x.2.matchIndex) := by
  unfold OrderStatistic.reaching
  rw [vecMatchIndex_eq_zip u hlength, List.countP_map]
  apply List.countP_mono_left
  rintro ⟨node, context⟩ - hreaches
  simp only [Function.comp_apply, decide_eq_true_eq] at hreaches ⊢
  split at hreaches
  · next hlocal => exact .inl hlocal
  · exact .inr hreaches

theorem matched_storedByMajority (hlength : s.followerContexts.length = s.options.nodes.length)
    (h : s.Matched u index) : s.StoredByMajority index := by
  have hreached : s.options.nodes.length - s.options.nodes.length / 2 <
      OrderStatistic.reaching (s.vecMatchIndex u) index := h.1
  have hstored := reaching_le_stored u hlength index
  unfold StoredByMajority
  omega

/-- **The index matched**, for two nodes or more. -/
theorem matched_matchedIndex (hlength : s.followerContexts.length = s.options.nodes.length)
    (hnodes : 2 ≤ s.options.nodes.length) : s.Matched u (s.matchedIndex u) := by
  have hlen : (s.vecMatchIndex u).length = s.options.nodes.length :=
    (length_vecMatchIndex u s).trans hlength
  have hposition : matchPosition s.options.nodes.length = s.options.nodes.length / 2 - 1 :=
    if_neg (by omega)
  obtain ⟨x, hx, hgreatest⟩ := OrderStatistic.exists_isGreatest_insertionSort_le
    (s.vecMatchIndex u) (k := s.options.nodes.length / 2 - 1) (by omega)
  have hmatched : s.matchedIndex u = x := by
    unfold matchedIndex
    dsimp only
    rw [hposition, List.getD_eq_getElem?_getD, hx, Option.getD_some]
  have hcount : (s.vecMatchIndex u).length - 1 - (s.options.nodes.length / 2 - 1) =
      s.options.nodes.length - s.options.nodes.length / 2 := by omega
  rw [hcount] at hgreatest
  rw [hmatched]
  exact hgreatest

theorem matchedIndex_of_outside (hlength : s.followerContexts.length = s.options.nodes.length)
    (hnodes : ¬ 2 ≤ s.options.nodes.length) : s.matchedIndex u = u.outsideMatch := by
  have hposition : matchPosition s.options.nodes.length = 2 ^ 64 - 1 := if_pos (by omega)
  unfold matchedIndex
  dsimp only
  rw [hposition, List.getD_eq_default]
  rw [List.length_insertionSort, length_vecMatchIndex]
  omega

/-- **When a commit is safe.** With a context for each node, exactly if the call fails its
guards or the entry at the index matched has the current term. -/
theorem commits_safely_iff (u : Unspecified) (s : AnraftImpl) (id : ℕ)
    (hlength : s.followerContexts.length = s.options.nodes.length) :
    CommitsSafely u s id ↔ (s.PassesGuards u id → s.MatchedFits u) := by
  by_cases hguards : s.PassesGuards u id
  · rw [commitsSafely_iff_matchedIndex hguards, forall_prop_of_true hguards]
    unfold MatchedFits
    split
    · next hnodes =>
        have hmatched := matched_matchedIndex (u := u) hlength hnodes
        constructor
        · intro h index hindex hlt
          obtain rfl := hindex.unique hmatched
          exact (h hlt).1
        · intro h hlt
          exact ⟨h _ hmatched hlt, matched_storedByMajority hlength hmatched⟩
    · next hnodes => rw [matchedIndex_of_outside hlength hnodes]
  · apply iff_of_true
    · intro hlt
      rw [replicate_commitIndex_of_not_passesGuards hguards] at hlt
      exact absurd hlt (lt_irrefl _)
    · intro h
      exact absurd h hguards

/-- The leader of three nodes in term 2. Both followers match entry 1. -/
def leaderInTermTwo : AnraftImpl where
  options := { nodes := [[1], [2], [3]], localAddr := [1] }
  currentTerm := 2
  followerContexts :=
    [{ nextIndex := 3, matchIndex := 0 }, { nextIndex := 2, matchIndex := 1 },
      { nextIndex := 2, matchIndex := 1 }]
  lastLogTerm := 2
  lastLogIndex := 2
  role := .kLeader
  leader := [1]

/-- A log of the leader's term, and a follower that accepts. -/
def sameTerm : Unspecified :=
  .ofLog [{ term := 2, index := 1 }, { term := 2, index := 2 }] { success := true }

/-- Node 2 accepts entry 2, and entry 1 of the same term is committed. -/
theorem commits_safely_iff_same_term : CommitsSafely sameTerm leaderInTermTwo 1 := by
  refine (commits_safely_iff sameTerm leaderInTermTwo 1 rfl).mpr fun _ => ?_
  unfold MatchedFits
  rw [if_pos (by decide)]
  intro index hindex _
  obtain rfl := hindex.unique (matched_matchedIndex rfl (by decide))
  exact ⟨{ term := 2, index := 1 }, by decide, by decide⟩

/-- Node 2 accepts entry 2 of term 2, and entry 1 of term 1 is committed. -/
theorem commits_safely_fails :
    ¬ ∀ (u : Unspecified) (s : AnraftImpl) (id : ℕ), s.role = .kLeader →
      s.followerContexts.length = s.options.nodes.length → CommitsSafely u s id := by
  intro h
  obtain ⟨⟨entry, hentry, hterm⟩, -⟩ := h
    (.ofLog [{ term := 1, index := 1 }, { term := 2, index := 2 }] { success := true })
    leaderInTermTwo 1 rfl rfl (by decide)
  have hfirst : some entry = some { term := 1, index := 1 } :=
    hentry.symm.trans (by decide)
  obtain rfl := Option.some.inj hfirst
  exact absurd hterm (by decide)

end AnraftImpl

end Anraft
