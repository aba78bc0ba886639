import Anraft.AnraftImpl
import Anraft.Base.Machine

/-!
# The progress of a follower

`next_index` is lowered when a request is turned down. Nothing moves the two indexes
of a follower up: an acknowledged request leaves them where they were. So they stay
consistent in every run, and record what is acknowledged in no run where something
is.
-/

namespace Anraft

namespace AnraftImpl

variable {u : Unspecified} {s : AnraftImpl} {id : ℕ} {context : FollowerContext}
  {batch : Batch} {resp : AppendEntriesResponse}

/-! ## The request -/

/-- What the loop adds are the entries of the log from `i` on. -/
theorem addEntries_entries {n : ℕ} {i : ℤ} {batch' : Batch}
    (h : addEntries u n i batch = some batch') :
    ∃ added, batch'.req.entries = batch.req.entries ++ added ∧
      ∀ (k : ℕ) (e : LogEntry), added[k]? = some e → u.entryAt (i + k) = some e := by
  induction n generalizing i batch with
  | zero =>
      obtain rfl := Option.some.inj h
      exact ⟨[], (List.append_nil _).symm, nofun⟩
  | succ n ih =>
      unfold addEntries at h
      split at h
      · cases h
      · next entry hentry =>
          have hfirst : ∀ (k : ℕ) (e : LogEntry), [entry][k]? = some e →
              u.entryAt (i + k) = some e := by
            intro k e hk
            rcases k with _ | k
            · obtain rfl := Option.some.inj hk
              simpa using hentry
            · cases hk
          dsimp only at h
          split at h
          · obtain rfl := Option.some.inj h
            exact ⟨[entry], rfl, hfirst⟩
          · obtain ⟨added, hadded, hrest⟩ := ih h
            refine ⟨entry :: added, by rw [hadded, List.append_assoc, List.singleton_append], ?_⟩
            intro k e hk
            cases k with
            | zero => simpa using hfirst 0 e (by simpa using hk)
            | succ k =>
                have hnext := hrest k e (by simpa using hk)
                rw [← hnext]
                congr 1
                push_cast
                ring

/-- **The request carries the log** from the next index of the follower on. -/
theorem appendRequest_entries (h : s.appendRequest u context = some batch) (k : ℕ) (e : LogEntry)
    (he : batch.req.entries[k]? = some e) : u.entryAt (context.nextIndex + k) = some e := by
  unfold appendRequest at h
  dsimp only at h
  split at h
  · split at h
    · cases h
    · obtain ⟨added, hadded, hlog⟩ := addEntries_entries h
      apply hlog
      rwa [hadded] at he
  · obtain rfl := Option.some.inj h
    cases he

/-! ## The two indexes -/

/-- The context of the follower, with the documented start values if there is none. -/
def follower (s : AnraftImpl) (id : ℕ) : FollowerContext :=
  s.followerContexts.getD id { nextIndex := 1, matchIndex := 0 }

/-- `assert(follower->match_index <= follower->next_index)`, with a positive next index. -/
def InRange (id : ℕ) (s : AnraftImpl) : Prop :=
  (s.follower id).matchIndex ≤ (s.follower id).nextIndex ∧ 1 ≤ (s.follower id).nextIndex

/-- The follower answers in a term that is not newer. -/
def Answers (u : Unspecified) (s : AnraftImpl) (id : ℕ) (batch : Batch) (success : Bool) : Prop :=
  ∃ resp, s.exchange u id = some (batch, resp) ∧ resp.term ≤ s.currentTerm ∧
    resp.success = success

/-- What a call is to do with the indexes. The entries of a request end at position
`next_index + size - 1` of the log. -/
structure RecordsProgress (id : ℕ) (s : AnraftImpl) (u : Unspecified) : Prop where
  matchIndex : (s.follower id).matchIndex ≤ ((s.replicateLogToFollower u id).follower id).matchIndex
  rejected : ∀ batch, s.Answers u id batch false →
    (s.follower id).nextIndex - 1 ≤ ((s.replicateLogToFollower u id).follower id).nextIndex ∧
      ((s.replicateLogToFollower u id).follower id).nextIndex ≤ (s.follower id).nextIndex ∧
        max 1 (s.follower id).matchIndex ≤
          ((s.replicateLogToFollower u id).follower id).nextIndex
  accepted : ∀ batch m, s.Answers u id batch true → batch.req.entries ≠ [] →
    m = (s.follower id).nextIndex + batch.req.entries.length - 1 →
      ((s.replicateLogToFollower u id).follower id) = { matchIndex := m, nextIndex := m + 1 }

/-- The call is a successful answer to a request that carries entries. -/
def Acknowledges (id : ℕ) (s : AnraftImpl) (u : Unspecified) : Prop :=
  ∃ batch, s.Answers u id batch true ∧ batch.req.entries ≠ []

/-! ## What a call does to them -/

theorem lowerNextIndex_follower (s : AnraftImpl) (id : ℕ) :
    (s.lowerNextIndex id).follower id = s.follower id ∨
      (s.follower id).matchIndex < (s.follower id).nextIndex ∧ 1 < (s.follower id).nextIndex ∧
        (s.lowerNextIndex id).follower id =
          { s.follower id with nextIndex := (s.follower id).nextIndex - 1 } := by
  unfold lowerNextIndex follower
  simp only [List.getD_eq_getElem?_getD, List.getElem?_modify_eq]
  cases s.followerContexts[id]? with
  | none => exact .inl rfl
  | some context =>
      dsimp only [Option.map_eq_map, Option.map_some, Option.getD_some]
      split
      · next h => exact .inr ⟨h.1, h.2, rfl⟩
      · exact .inl rfl

/-- Only a rejection touches the indexes. -/
theorem replicate_follower (u : Unspecified) (s : AnraftImpl) (id : ℕ) :
    (s.replicateLogToFollower u id).follower id = s.follower id ∨
      (s.replicateLogToFollower u id).follower id = (s.lowerNextIndex id).follower id := by
  apply replicate_elim (P := fun s' => s'.follower id = s.follower id ∨
    s'.follower id = (s.lowerNextIndex id).follower id)
  · exact .inl rfl
  · intro _ _
    exact .inl rfl
  · exact .inr rfl
  · intro _
    obtain ⟨_, _, _, heq⟩ := commitMatches_eq u s
    rw [heq]
    exact .inl rfl

/-- The invariant: nothing is ever known to match, and the next index is positive. -/
def NothingMatched (id : ℕ) (s : AnraftImpl) : Prop :=
  (s.follower id).matchIndex = 0 ∧ 1 ≤ (s.follower id).nextIndex

theorem NothingMatched.inRange (h : NothingMatched id s) : InRange id s := by
  refine ⟨?_, h.2⟩
  rw [h.1]
  exact zero_le_one.trans h.2

theorem NothingMatched.replicate (h : NothingMatched id s) (u : Unspecified) :
    NothingMatched id (s.replicateLogToFollower u id) := by
  unfold NothingMatched
  have hlowered : NothingMatched id (s.lowerNextIndex id) := by
    unfold NothingMatched
    rcases lowerNextIndex_follower s id with hsame | ⟨-, hlt, hlower⟩
    · rw [hsame]
      exact h
    · rw [hlower]
      exact ⟨h.1, Int.le_sub_one_of_lt hlt⟩
  rcases replicate_follower u s id with hsame | hlower
  · rw [hsame]
    exact h
  · rw [hlower]
    exact hlowered

/-- **One call.** As long as nothing matches, a call records the progress of the follower
exactly if there is none to record. -/
theorem recordsProgress_iff (h : NothingMatched id s) (u : Unspecified) :
    RecordsProgress id s u ↔ ¬ Acknowledges id s u := by
  have hafter := h.replicate u
  constructor
  · rintro hrecords ⟨batch, hanswers, hentries⟩
    have hmatch := congrArg FollowerContext.matchIndex
      (hrecords.accepted batch _ hanswers hentries rfl)
    dsimp only at hmatch
    rw [hafter.1] at hmatch
    have hpos := List.length_pos_iff.mpr hentries
    have hnext := h.2
    omega
  · intro hnone
    refine ⟨by rw [h.1, hafter.1], ?_, ?_⟩
    · rintro batch ⟨resp, hexchange, hterm, hrejected⟩
      have hfollower := replicate_of_rejected hexchange hterm hrejected
      have hbound : max 1 (s.follower id).matchIndex ≤
          ((s.replicateLogToFollower u id).follower id).nextIndex := by
        rw [h.1]
        exact hafter.2
      refine ⟨?_, ?_, hbound⟩
      all_goals
        rw [hfollower]
        rcases lowerNextIndex_follower s id with hsame | ⟨-, -, hlower⟩
      · rw [hsame]
        exact sub_le_self _ zero_le_one
      · rw [hlower]
      · rw [hsame]
      · rw [hlower]
        exact sub_le_self _ zero_le_one
    · intro batch m hanswers hentries
      exact absurd ⟨batch, hanswers, hentries⟩ hnone

/-! ## Runs -/

abbrev followerMachine (id : ℕ) : Machine AnraftImpl Unspecified :=
  .ofFun fun s u => s.replicateLogToFollower u id

/-- **When the progress of a follower is recorded.** In a run of calls for one follower, of
which nothing is known at first, exactly when no call acknowledges entries. -/
theorem follower_progress_iff (start : AnraftImpl) (id : ℕ) (calls : List Unspecified)
    (hstart : start.followerContexts[id]? =
      some { nextIndex := start.lastLogIndex + 1, matchIndex := 0 }) :
    ((followerMachine id).Always (InRange id) start calls ∧
      (followerMachine id).Along (RecordsProgress id) start calls) ↔
      0 ≤ start.lastLogIndex ∧
        (followerMachine id).Along (fun s u => ¬ Acknowledges id s u) start calls := by
  have hfollower : start.follower id =
      { nextIndex := start.lastLogIndex + 1, matchIndex := 0 } := by
    unfold follower
    rw [List.getD_eq_getElem?_getD, hstart, Option.getD_some]
  have halong (hlog : 0 ≤ start.lastLogIndex) :
      (followerMachine id).Along (RecordsProgress id) start calls ↔
        (followerMachine id).Along (fun s u => ¬ Acknowledges id s u) start calls := by
    apply Machine.along_congr (I := NothingMatched id) (P := fun _ => True)
    · intro s u s' h _ hs'
      exact Option.some.inj hs' ▸ h.replicate u
    · intro s u h _
      exact recordsProgress_iff h u
    · rw [NothingMatched, hfollower]
      exact ⟨rfl, Int.le_add_of_nonneg_left hlog⟩
    · intro _ _
      trivial
  constructor
  · rintro ⟨halways, hrecords⟩
    have hlog : 0 ≤ start.lastLogIndex := by
      have hnext := halways.start.2
      rw [hfollower] at hnext
      exact Int.le_of_add_le_add_right hnext
    exact ⟨hlog, (halong hlog).mp hrecords⟩
  · rintro ⟨hlog, hnone⟩
    refine ⟨?_, (halong hlog).mpr hnone⟩
    apply Machine.always_ofFun_of_invariant (I := NothingMatched id)
    · intro s u h
      exact h.replicate u
    · intro s h
      exact h.inRange
    · rw [NothingMatched, hfollower]
      exact ⟨rfl, Int.le_add_of_nonneg_left hlog⟩

/-- A leader of two nodes with two entries of its term, before it has replicated any. -/
def leaderOfTwo : AnraftImpl where
  options := { nodes := [[1], [2]], localAddr := [1] }
  currentTerm := 1
  followerContexts := [{ nextIndex := 3, matchIndex := 0 }, { nextIndex := 3, matchIndex := 0 }]
  lastLogTerm := 1
  lastLogIndex := 2
  role := .kLeader
  leader := [1]

def twoEntries : List LogEntry := [{ term := 1, index := 1 }, { term := 1, index := 2 }]

/-- The follower turns down every request. -/
theorem follower_progress_iff_rejected :
    (followerMachine 1).Always (InRange 1) leaderOfTwo [.ofLog twoEntries { success := false }] :=
  ((follower_progress_iff leaderOfTwo 1 [.ofLog twoEntries { success := false }] rfl).mpr
    ⟨by decide, by
      rw [Machine.along_ofFun_cons]
      refine ⟨?_, trivial⟩
      rintro ⟨batch, ⟨resp, hexchange, -, hsuccess⟩, -⟩
      have hresp := congrArg (Option.map Prod.snd) hexchange
      rw [show (leaderOfTwo.exchange (.ofLog twoEntries { success := false }) 1).map Prod.snd =
        some { success := false } by decide] at hresp
      obtain rfl := Option.some.inj hresp
      cases hsuccess⟩).1

/-- The follower turns the first request down and accepts the second one, which carries
entry 2. It is not known to match afterwards. -/
theorem follower_progress_fails :
    ¬ ∀ (start : AnraftImpl) (id : ℕ) (calls : List Unspecified),
      start.followerContexts[id]? =
        some { nextIndex := start.lastLogIndex + 1, matchIndex := 0 } →
      (followerMachine id).Always (InRange id) start calls ∧
        (followerMachine id).Along (RecordsProgress id) start calls := by
  intro h
  have halong := (h leaderOfTwo 1
    [.ofLog twoEntries { success := false }, .ofLog twoEntries { success := true }] rfl).2
  rw [Machine.along_ofFun_cons, Machine.along_ofFun_cons] at halong
  have haccepted := halong.2.1.accepted
    { req := { term := 1, leaderId := [1], prevLogIndex := 1, prevLogTerm := 1,
               entries := [{ term := 1, index := 2 }], leaderCommit := 0 }
      maxIndex := 2
      maxTerm := 1 } 2 ⟨{ success := true }, by decide, by decide, rfl⟩ (by decide) (by decide)
  exact absurd haccepted (by decide)

end AnraftImpl

end Anraft
