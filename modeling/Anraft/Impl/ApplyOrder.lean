import Anraft.AnraftImpl
import Anraft.Base.ApplyQueue
import Anraft.Base.Machine

/-!
# Completions of clients

`apply_callbacks_` with the two indexes beside it is a queue of completions: the loop at
the end of `ReplicateLogToFollower` commits, and nothing else touches the queue but
the clients that register. What is proved of such queues holds of the callbacks.
-/

namespace Anraft

namespace AnraftImpl

variable {u : Unspecified} {s s' start : AnraftImpl}

/-! ## The queue of the node -/

/-- The queue the apply state stands for. -/
def completions (s : AnraftImpl) : ApplyQueue Callback where
  committed := s.commitIndex
  applied := s.lastApplied
  pending i := s.applyCallbacks[i]?
  done := s.invoked

theorem applyNext_completions (s : AnraftImpl) :
    s.applyNext.completions = s.completions.applyNext := by
  unfold applyNext ApplyQueue.applyNext completions
  dsimp only
  split
  · next callback hcallback =>
      rw [hcallback]
      congr 1
      funext i
      rw [Std.TreeMap.getElem?_erase]
      by_cases hi : i = s.lastApplied + 1
      · rw [hi, Function.update_self, if_pos Std.ReflCmp.compare_self]
      · rw [Function.update_of_ne hi, if_neg]
        rw [Std.compare_eq_iff_eq]
        exact Ne.symm hi
  · next hnone =>
      rw [hnone]
      congr 1
      · funext i
        by_cases hi : i = s.lastApplied + 1
        · rw [hi, Function.update_self, hnone]
        · rw [Function.update_of_ne hi]
      · simp

/-- **The loop applies up to the commit index.** -/
theorem applyLoop_completions {commitIndex : ℤ} {n : ℕ}
    (hn : n = (commitIndex - s.lastApplied).toNat) :
    (s.applyLoop commitIndex n).completions = s.completions.applyUpTo commitIndex := by
  induction n generalizing s with
  | zero =>
      rw [ApplyQueue.applyUpTo_of_le]
      · rfl
      · show commitIndex ≤ s.lastApplied
        omega
  | succ n ih =>
      have hlt : s.lastApplied < commitIndex := by omega
      have happlied : s.applyNext.lastApplied = s.lastApplied + 1 :=
        congrArg ApplyQueue.applied (applyNext_completions s)
      unfold applyLoop
      rw [if_pos hlt, ih (by omega), applyNext_completions]
      exact (ApplyQueue.applyUpTo_of_lt (q := s.completions) hlt).symm

theorem commitMatches_completions (u : Unspecified) (s : AnraftImpl) :
    (s.commitMatches u).completions = s.completions ∨
      s.commitIndex < s.matchedIndex u ∧
        (s.commitMatches u).completions = s.completions.commit (s.matchedIndex u) := by
  unfold commitMatches
  dsimp only
  split
  · next hraised => exact .inr ⟨hraised, applyLoop_completions rfl⟩
  · exact .inl rfl

/-- A call leaves the queue alone or commits. -/
theorem replicate_completions (u : Unspecified) (s : AnraftImpl) (id : ℕ) :
    (s.replicateLogToFollower u id).completions = s.completions ∨
      ∃ target, s.commitIndex < target ∧
        (s.replicateLogToFollower u id).completions = s.completions.commit target := by
  apply replicate_elim (P := fun s' => s'.completions = s.completions ∨
    ∃ target, s.commitIndex < target ∧ s'.completions = s.completions.commit target)
  · exact .inl rfl
  · intro _ _
    exact .inl rfl
  · exact .inl rfl
  · intro _
    rcases commitMatches_completions u s with hsame | ⟨hlt, hcommit⟩
    · exact .inl hsame
    · exact .inr ⟨_, hlt, hcommit⟩

/-! ## Runs -/

/-- A call, a client that registers a callback, or whatever else happens to the node:
elections, appended entries, changes of its followers. -/
inductive ApplyCall where
  | replicate (u : Unspecified) (id : ℕ)
  | register (index : ℤ) (callback : Callback)
  | elsewhere (t : AnraftImpl)

def serve (s : AnraftImpl) : ApplyCall → AnraftImpl
  | .replicate u id => s.replicateLogToFollower u id
  | .register index callback =>
    { s with applyCallbacks := s.applyCallbacks.insert index callback }
  | .elsewhere t =>
    { t with
      commitIndex := s.commitIndex
      lastApplied := s.lastApplied
      applyCallbacks := s.applyCallbacks
      invoked := s.invoked }

abbrev applyMachine : Machine AnraftImpl ApplyCall := .ofFun serve

/-- A client registers its callback above what has been applied. -/
def RegistersAbove (s : AnraftImpl) : ApplyCall → Prop
  | .register index _ => s.lastApplied < index
  | _ => True

theorem register_completions (s : AnraftImpl) (index : ℤ) (callback : Callback) :
    (s.serve (.register index callback)).completions = s.completions.register index callback := by
  unfold serve ApplyQueue.register completions
  congr 1
  funext i
  show (s.applyCallbacks.insert index callback)[i]? = _
  rw [Std.TreeMap.getElem?_insert]
  by_cases hi : i = index
  · rw [hi, Function.update_self, if_pos Std.ReflCmp.compare_self]
  · rw [Function.update_of_ne hi, if_neg]
    rw [Std.compare_eq_iff_eq]
    exact Ne.symm hi

/-- What a call does to the queue. -/
theorem serve_completions (s : AnraftImpl) (c : ApplyCall) :
    (s.serve c).completions = s.completions ∨
      (∃ target, s.commitIndex < target ∧
        (s.serve c).completions = s.completions.commit target) ∨
      ∃ index callback, c = .register index callback ∧
        (s.serve c).completions = s.completions.register index callback := by
  cases c with
  | replicate u id =>
      rcases replicate_completions u s id with hsame | hcommit
      · exact .inl hsame
      · exact .inr (.inl hcommit)
  | register index callback =>
      exact .inr (.inr ⟨index, callback, rfl, register_completions s index callback⟩)
  | elsewhere t => exact .inl rfl

/-- The callback was waiting at the start, or a client registered it in `calls`. -/
def Registered (start : AnraftImpl) (calls : List ApplyCall) (x : ℤ × Callback) : Prop :=
  start.applyCallbacks[x.1]? = some x.2 ∨ .register x.1 x.2 ∈ calls

/-- The callbacks that have run by the end of `calls`: in the order of their indexes, at
committed indexes, and registered. -/
structure InvokedInOrder (start : AnraftImpl) (calls : List ApplyCall) (s : AnraftImpl) :
    Prop where
  increasing : (s.invoked.map Prod.fst).Pairwise (· < ·)
  committed : ∀ x ∈ s.invoked, x.1 ≤ s.commitIndex
  registered : ∀ x ∈ s.invoked, Registered start calls x

/-- What the call `c` does between `s` and `s'`: no index falls, a commit is applied in
full, and a callback goes on waiting, runs, or is replaced by another at its index. -/
structure AppliesCommitted (s : AnraftImpl) (c : ApplyCall) (s' : AnraftImpl) : Prop where
  lastApplied : s.lastApplied ≤ s'.lastApplied
  commitIndex : s.commitIndex ≤ s'.commitIndex
  invoked : s.invoked <+: s'.invoked
  applied : s.commitIndex < s'.commitIndex → s'.lastApplied = s'.commitIndex
  noneLeft : s.commitIndex < s'.commitIndex → ∀ i ∈ s'.applyCallbacks, s'.commitIndex < i
  kept : ∀ i callback, s.applyCallbacks[i]? = some callback →
    s'.applyCallbacks[i]? = some callback ∨ (i, callback) ∈ s'.invoked ∨
      ∃ other, c = .register i other

/-- The invariant of a run: an ordered queue of callbacks that were registered. -/
structure Applying (start : AnraftImpl) (calls : List ApplyCall) (q : ApplyQueue Callback) :
    Prop where
  ordered : q.Ordered
  waiting : ∀ i callback, q.pending i = some callback → Registered start calls (i, callback)
  done : ∀ x ∈ q.done, Registered start calls x

variable {calls : List ApplyCall} {c : ApplyCall} {q : ApplyQueue Callback}

theorem Registered.snoc {x : ℤ × Callback} (h : Registered start calls x) (c : ApplyCall) :
    Registered start (calls ++ [c]) x :=
  h.imp_right fun h => List.mem_append_left _ h

theorem Applying.snoc (h : Applying start calls q) (c : ApplyCall) :
    Applying start (calls ++ [c]) q where
  ordered := h.ordered
  waiting i callback hi := (h.waiting i callback hi).snoc c
  done x hx := (h.done x hx).snoc c

theorem Applying.commit (h : Applying start calls q) {target : ℤ} (htarget : q.committed ≤ target) :
    Applying start calls (q.commit target) where
  ordered := h.ordered.commit htarget
  waiting i callback hi := by
    rw [(q.commit_passes target).pending] at hi
    split at hi
    · cases hi
    · exact h.waiting i callback hi
  done x hx := by
    rcases (q.commit_passes target).mem_done x hx with hx | hx
    · exact h.done x hx
    · exact h.waiting x.1 x.2 hx

theorem Applying.register (h : Applying start calls q) {index : ℤ} (hindex : q.applied < index)
    (callback : Callback) :
    Applying start (calls ++ [.register index callback]) (q.register index callback) where
  ordered := h.ordered.register hindex callback
  waiting i other hi := by
    change Function.update q.pending index (some callback) i = some other at hi
    by_cases heq : i = index
    · rw [heq, Function.update_self] at hi
      obtain rfl := Option.some.inj hi
      rw [heq]
      exact .inr (List.mem_append_right _ (List.mem_singleton_self _))
    · rw [Function.update_of_ne heq] at hi
      exact (h.waiting i other hi).snoc _
  done x hx := (h.done x hx).snoc _

/-- **One call** keeps the invariant. -/
theorem applying_serve (h : Applying start calls s.completions) (hc : s.RegistersAbove c) :
    Applying start (calls ++ [c]) (s.serve c).completions := by
  rcases serve_completions s c with hsame | ⟨target, hlt, hcommit⟩ |
    ⟨index, callback, rfl, hregister⟩
  · rw [hsame]
    exact h.snoc c
  · rw [hcommit]
    exact (h.commit hlt.le).snoc c
  · rw [hregister]
    exact h.register hc callback

theorem applying_invokedInOrder (h : Applying start calls s.completions) :
    InvokedInOrder start calls s where
  increasing := h.ordered.increasing
  committed x hx := (h.ordered.done_le x hx).trans h.ordered.applied_le
  registered := h.done

/-- What a call does to the queue decides what it does to the node. -/
theorem AppliesCommitted.of_completions (hq : s'.completions = q)
    (happlied : s.lastApplied ≤ q.applied) (hcommitted : s.commitIndex ≤ q.committed)
    (hdone : s.invoked <+: q.done)
    (hraised : s.commitIndex < q.committed →
      q.applied = q.committed ∧ ∀ i, q.pending i ≠ none → q.committed < i)
    (hkept : ∀ i callback, s.applyCallbacks[i]? = some callback →
      q.pending i = some callback ∨ (i, callback) ∈ q.done ∨ ∃ other, c = .register i other) :
    AppliesCommitted s c s' := by
  subst hq
  refine ⟨happlied, hcommitted, hdone, fun h => (hraised h).1, fun h i hi => ?_, hkept⟩
  apply (hraised h).2 i
  exact Option.isSome_iff_ne_none.mp (Std.TreeMap.mem_iff_isSome_getElem?.mp hi)

theorem serve_appliesCommitted (h : s.completions.Ordered) (c : ApplyCall) :
    AppliesCommitted s c (s.serve c) := by
  rcases serve_completions s c with hsame | ⟨target, hlt, hcommit⟩ |
    ⟨index, callback, rfl, hregister⟩
  · apply AppliesCommitted.of_completions hsame le_rfl le_rfl List.prefix_rfl
    · intro hraised
      exact absurd hraised (lt_irrefl _)
    · intro i callback hi
      exact .inl hi
  · have hpasses := s.completions.commit_passes target
    have hcommitted := s.completions.commit_committed target
    apply AppliesCommitted.of_completions hcommit hpasses.applied ?_ hpasses.done
    · intro _
      rw [hcommitted]
      refine ⟨ApplyQueue.commit_applied (h.applied_le.trans hlt.le), ?_⟩
      intro i hi
      exact h.commit_lt_pending hlt.le hi
    · intro i callback hi
      rcases hpasses.kept hi with hwaits | hdone
      · exact .inl hwaits
      · exact .inr (.inl hdone)
    · rw [hcommitted]
      exact hlt.le
  · apply AppliesCommitted.of_completions hregister le_rfl le_rfl List.prefix_rfl
    · intro hraised
      exact absurd hraised (lt_irrefl _)
    · intro i other hi
      by_cases heq : i = index
      · exact .inr (.inr ⟨callback, by rw [heq]⟩)
      · exact .inl ((Function.update_of_ne heq _ _).trans hi)

/-- **Callbacks run once and in order.** In a run from a node that has applied no more than
is committed, with callbacks registered above what has been applied. -/
theorem callbacks_in_order (start : AnraftImpl) (calls : List ApplyCall)
    (happlied : start.lastApplied ≤ start.commitIndex) (hinvoked : start.invoked = [])
    (hregistered : ∀ i ∈ start.applyCallbacks, start.lastApplied < i)
    (hcalls : applyMachine.Along RegistersAbove start calls) :
    ∀ before c after, calls = before ++ c :: after →
      InvokedInOrder start (before ++ [c]) ((before.foldl serve start).serve c) ∧
        AppliesCommitted (before.foldl serve start) c ((before.foldl serve start).serve c) := by
  rintro before c after rfl
  obtain ⟨hearly, hlate⟩ := Machine.along_ofFun_append.mp hcalls
  have hc := ((Machine.along_ofFun_cons _ _ _ _ _).mp hlate).1
  have hstart : Applying start [] start.completions := by
    have hdone : start.completions.done = [] := hinvoked
    refine ⟨⟨?_, ?_, ?_, happlied⟩, fun i callback hi => .inl hi, ?_⟩
    · rw [hdone]
      exact .nil
    · rw [hdone]
      exact fun x hx => absurd hx List.not_mem_nil
    · intro i hi
      apply hregistered i
      exact Std.TreeMap.mem_iff_isSome_getElem?.mpr (Option.isSome_iff_ne_none.mpr hi)
    · rw [hdone]
      exact fun x hx => absurd hx List.not_mem_nil
  have hbefore : Applying start before (before.foldl serve start).completions := by
    apply Machine.traced_invariant (s := start)
      (I := fun calls => Applying start calls (calls.foldl serve start).completions) hstart ?_ hearly
    intro is i hi h
    rw [List.foldl_append]
    exact applying_serve h hi
  exact ⟨applying_invokedInOrder (applying_serve hbefore hc),
    serve_appliesCommitted hbefore.ordered c⟩

/-- A leader of two nodes in term 1 whose follower matches entry 1 of two. -/
def oneMatched : AnraftImpl where
  options := { nodes := [[1], [2]], localAddr := [1] }
  currentTerm := 1
  followerContexts := [{ nextIndex := 3, matchIndex := 0 }, { nextIndex := 2, matchIndex := 1 }]
  lastLogTerm := 1
  lastLogIndex := 2
  role := .kLeader
  leader := [1]

/-- The follower accepts entry 2. -/
def acceptsSecond : Unspecified :=
  .ofLog [{ term := 1, index := 1 }, { term := 1, index := 2 }] { success := true }

/-- The callback of entry 1 runs when the follower accepts entry 2. -/
theorem callbacks_in_order_one :
    InvokedInOrder oneMatched [.register 1 7, .replicate acceptsSecond 1]
        ((oneMatched.serve (.register 1 7)).serve (.replicate acceptsSecond 1)) ∧
      ((oneMatched.serve (.register 1 7)).serve (.replicate acceptsSecond 1)).invoked = [(1, 7)] :=
  ⟨(callbacks_in_order oneMatched [.register 1 7, .replicate acceptsSecond 1] (by decide) rfl
    (fun _ hi => absurd hi Std.TreeMap.not_mem_emptyc)
    ((Machine.along_ofFun_cons _ _ _ _ _).mpr
      ⟨show (0 : ℤ) < 1 by decide, (Machine.along_ofFun_cons _ _ _ _ _).mpr ⟨trivial, trivial⟩⟩)
    [.register 1 7] (.replicate acceptsSecond 1) [] rfl).1, by decide⟩

end AnraftImpl

end Anraft
