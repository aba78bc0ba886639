import Mathlib

/-!
# Voting once

A vote in which every voter supports at most one candidate and never takes that
back. A candidate counts voters that support it, and is elected once it has counted
a quorum. If two quorums overlap, at most one candidate is ever elected, in whatever
order the votes are cast and counted.
-/

structure Ballot (ν : Type*) where
  /-- Whom a voter supports. -/
  support : ν → Option ν
  /-- The voters a candidate has counted. -/
  counted : ν → Finset ν
  elected : Set ν

namespace Ballot

variable {ν : Type*}

/-- Nobody has voted yet. -/
def blank : Ballot ν where
  support _ := none
  counted _ := ∅
  elected := ∅

def elect (b : Ballot ν) (c : ν) : Ballot ν := { b with elected := insert c b.elected }

variable [DecidableEq ν]

/-- Voter `v` casts its vote for `c`. -/
def cast (b : Ballot ν) (v c : ν) : Ballot ν :=
  { b with support := Function.update b.support v (some c) }

/-- Candidate `c` counts the vote of `v`. -/
def count (b : Ballot ν) (v c : ν) : Ballot ν :=
  { b with counted := Function.update b.counted c (insert v (b.counted c)) }

/-- Nobody votes for itself. -/
inductive Step (members : Finset ν) (quorum : ℕ) (b : Ballot ν) : Ballot ν → Prop where
  | cast (v c : ν) (hv : v ∈ members) (hne : v ≠ c) (hfree : b.support v = none) :
      Step members quorum b (b.cast v c)
  | count (v c : ν) (hsupport : b.support v = some c) : Step members quorum b (b.count v c)
  | elect (c : ν) (hquorum : quorum ≤ (b.counted c).card) : Step members quorum b (b.elect c)

/-- The ballots that steps lead to. -/
abbrev Reaches (members : Finset ν) (quorum : ℕ) : Ballot ν → Ballot ν → Prop :=
  Relation.ReflTransGen (Step members quorum)

section Updates

variable (b : Ballot ν) (v c : ν)

theorem cast_support (w : ν) :
    (b.cast v c).support w = if w = v then some c else b.support w := by
  simp [cast, Function.update_apply]

theorem mem_count_counted (w d : ν) :
    w ∈ (b.count v c).counted d ↔ (w = v ∧ d = c) ∨ w ∈ b.counted d := by
  by_cases hd : d = c
  · subst hd
    simp [count]
  · simp [count, hd]

omit [DecidableEq ν] in
@[simp] theorem mem_elect_elected (d : ν) : d ∈ (b.elect c).elected ↔ d = c ∨ d ∈ b.elected :=
  Set.mem_insert_iff

end Updates

variable {members : Finset ν} {quorum : ℕ} {b b' : Ballot ν}

/-- Support is not taken back. -/
theorem Step.support (hstep : Step members quorum b b') {v c : ν} (h : b.support v = some c) :
    b'.support v = some c := by
  cases hstep with
  | cast w d hw hne hfree =>
      rw [cast_support, if_neg]
      · exact h
      · rintro rfl
        rw [hfree] at h
        cases h
  | count w d hsupport => exact h
  | elect d hquorum => exact h

theorem Reaches.support (hsteps : Reaches members quorum b b') {v c : ν}
    (h : b.support v = some c) : b'.support v = some c := by
  induction hsteps with
  | refl => exact h
  | tail _ hstep ih => exact hstep.support ih

/-- What holds of every ballot that is reached. -/
structure Sound (members : Finset ν) (quorum : ℕ) (b : Ballot ν) : Prop where
  voter : ∀ v c, b.support v = some c → v ∈ members ∧ v ≠ c
  counted : ∀ v c, v ∈ b.counted c → b.support v = some c
  elected : ∀ c ∈ b.elected, quorum ≤ (b.counted c).card

omit [DecidableEq ν] in
theorem sound_blank : (blank : Ballot ν).Sound members quorum where
  voter := by simp [blank]
  counted := by simp [blank]
  elected := by simp [blank]

theorem Sound.step (h : b.Sound members quorum) (hstep : Step members quorum b b') :
    b'.Sound members quorum := by
  have hkept : ∀ v c, b.support v = some c → b'.support v = some c := fun _ _ => hstep.support
  cases hstep with
  | cast v c hv hne hfree =>
      refine ⟨fun w d hw => ?_, fun w d hw => ?_, h.elected⟩
      · rw [cast_support] at hw
        split at hw
        · next hwv =>
            obtain rfl := Option.some.inj hw
            exact hwv ▸ ⟨hv, hne⟩
        · exact h.voter w d hw
      · exact hkept w d (h.counted w d hw)
  | count v c hsupport =>
      refine ⟨h.voter, fun w d hw => ?_, fun d hd => ?_⟩
      · rcases (mem_count_counted b v c w d).mp hw with ⟨rfl, rfl⟩ | hw
        · exact hsupport
        · exact h.counted w d hw
      · apply (h.elected d hd).trans (Finset.card_le_card _)
        intro w hw
        exact (mem_count_counted b v c w d).mpr (.inr hw)
  | elect c hquorum =>
      refine ⟨h.voter, h.counted, fun d hd => ?_⟩
      rcases (mem_elect_elected b c d).mp hd with rfl | hd
      · exact hquorum
      · exact h.elected d hd

theorem Sound.reaches (h : b.Sound members quorum) (hsteps : Reaches members quorum b b') :
    b'.Sound members quorum := by
  induction hsteps with
  | refl => exact h
  | tail _ hstep ih => exact ih.step hstep

/-- A candidate counts other members. -/
theorem Sound.counted_subset (h : b.Sound members quorum) (c : ν) :
    b.counted c ⊆ members.erase c := by
  intro v hv
  obtain ⟨hmem, hne⟩ := h.voter v c (h.counted v c hv)
  exact Finset.mem_erase.mpr ⟨hne, hmem⟩

omit [DecidableEq ν] in
/-- No voter is counted by two candidates. -/
theorem Sound.counted_disjoint (h : b.Sound members quorum) {c d : ν} (hne : c ≠ d) :
    Disjoint (b.counted c) (b.counted d) := by
  rw [Finset.disjoint_left]
  intro v hc hd
  have hsame : some c = some d := (h.counted v c hc).symm.trans (h.counted v d hd)
  exact hne (Option.some.inj hsame)

/-- **At most one is elected.** -/
theorem Sound.elected_unique (h : b.Sound members quorum) (hoverlap : members.card < 2 * quorum)
    {c d : ν} (hc : c ∈ b.elected) (hd : d ∈ b.elected) : c = d := by
  by_contra hne
  have hunion : b.counted c ∪ b.counted d ⊆ members :=
    Finset.union_subset ((h.counted_subset c).trans (Finset.erase_subset _ _))
      ((h.counted_subset d).trans (Finset.erase_subset _ _))
  have hcard := Finset.card_le_card hunion
  rw [Finset.card_union_of_disjoint (h.counted_disjoint hne)] at hcard
  have hcq := h.elected c hc
  have hdq := h.elected d hd
  omega

/-- Whoever is elected has a supporter. -/
theorem Sound.exists_support (h : b.Sound members quorum) (hpos : 0 < quorum) {c : ν}
    (hc : c ∈ b.elected) : ∃ v ∈ members, b.support v = some c := by
  obtain ⟨v, hv⟩ : (b.counted c).Nonempty := Finset.card_pos.mp (hpos.trans_le (h.elected c hc))
  exact ⟨v, Finset.mem_of_mem_erase (h.counted_subset c hv), h.counted v c hv⟩

/-- A candidate is elected by others. -/
theorem Sound.quorum_le (h : b.Sound members quorum) {c : ν} (hc : c ∈ b.elected) :
    quorum ≤ (members.erase c).card :=
  (h.elected c hc).trans (Finset.card_le_card (h.counted_subset c))

end Ballot
