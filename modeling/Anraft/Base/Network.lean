import Anraft.Base.Machine

/-!
# Families of machines

Components of one kind, each with a state of its own. In one action of the family one
component reacts to an input, and the others stand still.
-/

namespace Network

variable {κ σ ι : Type*} [DecidableEq κ] {f : σ → ι → σ} {c : κ → σ} {a : κ × ι} {k : κ}

/-- Component `a.1` reacts to `a.2`. -/
def act (f : σ → ι → σ) (c : κ → σ) (a : κ × ι) : κ → σ :=
  Function.update c a.1 (f (c a.1) a.2)

/-- The family under its actions. -/
abbrev machine (κ : Type*) [DecidableEq κ] (f : σ → ι → σ) : Machine (κ → σ) (κ × ι) :=
  .ofFun (act f)

@[simp] theorem act_self : act f c a a.1 = f (c a.1) a.2 := Function.update_self ..

@[simp] theorem act_of_ne (h : k ≠ a.1) : act f c a k = c k := Function.update_of_ne h ..

/-- Inputs to one component alone. -/
theorem foldl_act_map (f : σ → ι → σ) (c : κ → σ) (k : κ) (is : List ι) :
    (is.map (Prod.mk k)).foldl (act f) c = Function.update c k (is.foldl f (c k)) := by
  induction is generalizing c with
  | nil => exact (Function.update_eq_self k c).symm
  | cons i is ih =>
      rw [List.map_cons, List.foldl_cons, ih, act_self, List.foldl_cons]
      exact Function.update_idem _ _ _

/-- Properties of the components, of which the acting one gains its own and the others keep
theirs. -/
theorem forall_act_of_ne {Q : κ → σ → Prop} (hself : Q a.1 (f (c a.1) a.2))
    (h : ∀ k ≠ a.1, Q k (c k)) (k : κ) : Q k (act f c a k) := by
  by_cases hk : k = a.1
  · subst hk
    rwa [act_self]
  · rw [act_of_ne hk]
    exact h k hk

/-- A family of properties that the acting component restores and the action does not take
from the others. -/
theorem forall_act {Q : κ → σ → Prop} (h : ∀ k, Q k (c k)) (hself : Q a.1 (f (c a.1) a.2)) (k : κ) :
    Q k (act f c a k) :=
  forall_act_of_ne hself (fun k _ => h k) k

end Network
