import Mathlib

/-!
# Runs of a deterministic machine

A machine answers a call in a state with the next state, or with `none` where
the behaviour of the call is undefined. A run is a list of calls. Two ways of
speaking about a run:

* `Always Q`: every call is defined and every state passed satisfies `Q`;
* `Along C`: every call meets `C`, a condition on the state before the call
  and on the call itself.

The rules below reduce statements about runs to statements about one call.
-/

structure Machine (σ ι : Type*) where
  step : σ → ι → Option σ

namespace Machine

variable {σ ι : Type*} (M : Machine σ ι)

def run : σ → List ι → Option σ
  | s, [] => some s
  | s, i :: is => (M.step s i).bind fun s' => run s' is

def Always (Q : σ → Prop) : σ → List ι → Prop
  | s, [] => Q s
  | s, i :: is => Q s ∧ ∃ s', M.step s i = some s' ∧ Always Q s' is

def Along (C : σ → ι → Prop) : σ → List ι → Prop
  | _, [] => True
  | s, i :: is => C s i ∧ ∀ s', M.step s i = some s' → Along C s' is

variable {M}

/-- Two conditions that agree wherever an invariant `I` holds, on calls admitted
by `P`, agree along every run of such calls. -/
theorem along_congr {I : σ → Prop} {P : ι → Prop} {C D : σ → ι → Prop}
    (hinv : ∀ s i s', I s → P i → M.step s i = some s' → I s')
    (hcongr : ∀ s i, I s → P i → (C s i ↔ D s i)) {s : σ} {is : List ι} (hI : I s)
    (hP : ∀ i ∈ is, P i) : M.Along C s is ↔ M.Along D s is := by
  induction is generalizing s with
  | nil => exact Iff.rfl
  | cons i is ih =>
      have hi : P i := hP i List.mem_cons_self
      have htail : ∀ j ∈ is, P j := fun j hj => hP j (List.mem_cons_of_mem _ hj)
      apply and_congr (hcongr s i hI hi)
      apply forall₂_congr
      intro s' hs'
      exact ih (hinv s i s' hI hi hs') htail

/-- **Invariant rule.** What the start satisfies and every call that meets its
condition preserves holds at the end of the run. -/
theorem run_invariant {C : σ → ι → Prop} {Q : σ → Prop}
    (hstep : ∀ s i s', C s i → Q s → M.step s i = some s' → Q s') {s s' : σ} {is : List ι}
    (hC : M.Along C s is) (hs : Q s) (hrun : M.run s is = some s') : Q s' := by
  induction is generalizing s with
  | nil =>
      obtain rfl := Option.some.inj hrun
      exact hs
  | cons i is ih =>
      rw [run, Option.bind_eq_some_iff] at hrun
      obtain ⟨t, ht, hrun⟩ := hrun
      exact ih (hC.2 t ht) (hstep s i t hC.1 hs ht) hrun

/-- A run that meets a condition meets every weaker one. -/
theorem Along.mono {C D : σ → ι → Prop} (hCD : ∀ s i, C s i → D s i) {s : σ} {is : List ι}
    (h : M.Along C s is) : M.Along D s is := by
  induction is generalizing s with
  | nil => trivial
  | cons i is ih => exact ⟨hCD s i h.1, fun s' hs' => ih (h.2 s' hs')⟩

/-- A condition on the calls alone. -/
theorem along_of_forall {P : ι → Prop} (s : σ) {is : List ι} (h : ∀ i ∈ is, P i) :
    M.Along (fun _ i => P i) s is := by
  induction is generalizing s with
  | nil => trivial
  | cons i is ih =>
      exact ⟨h i List.mem_cons_self,
        fun s' _ => ih s' fun j hj => h j (List.mem_cons_of_mem _ hj)⟩

theorem Always.start {Q : σ → Prop} {s : σ} {is : List ι} (h : M.Always Q s is) : Q s := by
  cases is with
  | nil => exact h
  | cons i is => exact h.1

/-- **Exact condition for a run.** If, in the states an invariant `I` admits, a
call keeps `Q` exactly when it meets `C`, then a run keeps `Q` throughout exactly
when all its calls meet `C`. -/
theorem always_iff_along {I Q : σ → Prop} {C : σ → ι → Prop}
    (hinv : ∀ s i s', I s → M.step s i = some s' → I s')
    (hstep : ∀ s i, I s → Q s → (C s i ↔ ∃ s', M.step s i = some s' ∧ Q s'))
    {s : σ} {is : List ι} (hI : I s) (hQ : Q s) : M.Always Q s is ↔ M.Along C s is := by
  induction is generalizing s with
  | nil => exact iff_of_true hQ trivial
  | cons i is ih =>
      constructor
      · rintro ⟨-, t, ht, htail⟩
        refine ⟨(hstep s i hI hQ).mpr ⟨t, ht, htail.start⟩, fun s' hs' => ?_⟩
        obtain rfl : t = s' := Option.some.inj (ht.symm.trans hs')
        exact (ih (hinv s i t hI ht) htail.start).mp htail
      · rintro ⟨hC, htail⟩
        obtain ⟨t, ht, hQt⟩ := (hstep s i hI hQ).mp hC
        exact ⟨hQ, t, ht, (ih (hinv s i t hI ht) hQt).mpr (htail t ht)⟩

/-- The machine of a total function: every call is defined. -/
def ofFun (f : σ → ι → σ) : Machine σ ι where
  step s i := some (f s i)

@[simp] theorem along_ofFun_cons (f : σ → ι → σ) (C : σ → ι → Prop) (s : σ) (i : ι)
    (is : List ι) :
    (ofFun f).Along C s (i :: is) ↔ C s i ∧ (ofFun f).Along C (f s i) is :=
  and_congr_right fun _ =>
    ⟨fun h => h _ rfl, fun h _ heq => Option.some.inj heq ▸ h⟩

instance decidableAlongOfFun (f : σ → ι → σ) (C : σ → ι → Prop) [∀ s i, Decidable (C s i)] :
    (s : σ) → (is : List ι) → Decidable ((ofFun f).Along C s is)
  | _, [] => inferInstanceAs (Decidable True)
  | s, i :: is =>
    have := decidableAlongOfFun f C (f s i) is
    decidable_of_iff _ (along_ofFun_cons f C s i is).symm

/-- The exact condition for a run of a total machine. -/
theorem always_ofFun_iff_along {f : σ → ι → σ} {I Q : σ → Prop} {C : σ → ι → Prop}
    (hinv : ∀ s i, I s → I (f s i)) (hstep : ∀ s i, I s → Q s → (C s i ↔ Q (f s i)))
    {s : σ} {is : List ι} (hI : I s) (hQ : Q s) :
    (ofFun f).Always Q s is ↔ (ofFun f).Along C s is := by
  apply always_iff_along (I := I) ?_ ?_ hI hQ
  · intro s i s' hs heq
    exact Option.some.inj heq ▸ hinv s i hs
  · intro s i hs hQs
    rw [hstep s i hs hQs]
    constructor
    · intro h
      exact ⟨f s i, rfl, h⟩
    · rintro ⟨s', heq, h⟩
      exact Option.some.inj heq ▸ h

theorem along_ofFun_append {f : σ → ι → σ} {C : σ → ι → Prop} {s : σ} {is js : List ι} :
    (ofFun f).Along C s (is ++ js) ↔
      (ofFun f).Along C s is ∧ (ofFun f).Along C (is.foldl f s) js := by
  induction is generalizing s with
  | nil => exact (iff_of_eq (true_and _)).symm
  | cons i is ih =>
      rw [List.cons_append, along_ofFun_cons, along_ofFun_cons, ih, List.foldl_cons, and_assoc]

/-- **Traced invariant rule.** The invariant speaks of the calls made so far. -/
theorem traced_invariant {f : σ → ι → σ} {C : σ → ι → Prop} {I : List ι → Prop} {s : σ}
    (hstart : I []) (hstep : ∀ is i, C (is.foldl f s) i → I is → I (is ++ [i])) {is : List ι}
    (hC : (ofFun f).Along C s is) : I is := by
  induction is using List.reverseRecOn with
  | nil => exact hstart
  | append_singleton is i ih =>
      obtain ⟨hearly, hlast⟩ := along_ofFun_append.mp hC
      exact hstep is i ((along_ofFun_cons f C _ i []).mp hlast).1 (ih hearly)

/-- **Preorder rule.** What every call keeps between the states before and after it,
and what can be chained, a run keeps between its start and its end. -/
theorem foldl_related {f : σ → ι → σ} {R : σ → σ → Prop} (hrefl : ∀ s, R s s)
    (htrans : ∀ s t u, R s t → R t u → R s u) (hstep : ∀ s i, R s (f s i)) (s : σ) (is : List ι) :
    R s (is.foldl f s) := by
  induction is generalizing s with
  | nil => exact hrefl s
  | cons i is ih => exact htrans s (f s i) _ (hstep s i) (ih (f s i))

@[simp] theorem always_ofFun_cons (f : σ → ι → σ) (Q : σ → Prop) (s : σ) (i : ι) (is : List ι) :
    (ofFun f).Always Q s (i :: is) ↔ Q s ∧ (ofFun f).Always Q (f s i) is :=
  and_congr_right fun _ =>
    ⟨fun ⟨_, heq, h⟩ => Option.some.inj heq ▸ h, fun h => ⟨_, rfl, h⟩⟩

instance decidableAlwaysOfFun (f : σ → ι → σ) (Q : σ → Prop) [DecidablePred Q] :
    (s : σ) → (is : List ι) → Decidable ((ofFun f).Always Q s is)
  | s, [] => inferInstanceAs (Decidable (Q s))
  | s, i :: is =>
    have := decidableAlwaysOfFun f Q (f s i) is
    decidable_of_iff _ (always_ofFun_cons f Q s i is).symm

theorem always_ofFun_append {f : σ → ι → σ} {Q : σ → Prop} {s : σ} {is js : List ι} :
    (ofFun f).Always Q s (is ++ js) ↔
      (ofFun f).Always Q s is ∧ (ofFun f).Always Q (is.foldl f s) js := by
  induction is generalizing s with
  | nil => exact (and_iff_right_of_imp fun h => h.start).symm
  | cons i is ih =>
      rw [List.cons_append, always_ofFun_cons, always_ofFun_cons, ih, List.foldl_cons, and_assoc]

/-- What always holds along a run holds at its end. -/
theorem always_ofFun_foldl {f : σ → ι → σ} {Q : σ → Prop} {s : σ} {is : List ι}
    (h : (ofFun f).Always Q s is) : Q (is.foldl f s) := by
  induction is generalizing s with
  | nil => exact h
  | cons i is ih =>
      obtain ⟨-, t, ht, htail⟩ := h
      obtain rfl : f s i = t := Option.some.inj ht
      exact ih htail

/-- What an invariant that every call keeps implies always holds. -/
theorem always_ofFun_of_invariant {f : σ → ι → σ} {I Q : σ → Prop}
    (hstep : ∀ s i, I s → I (f s i)) (hQ : ∀ s, I s → Q s) {s : σ} (is : List ι) (hs : I s) :
    (ofFun f).Always Q s is := by
  induction is generalizing s with
  | nil => exact hQ s hs
  | cons i is ih => exact ⟨hQ s hs, f s i, rfl, ih (hstep s i hs)⟩

/-! ## Moments -/

/-- The states a run passes, each with the call that is made in it. -/
def moments (f : σ → ι → σ) : σ → List ι → List (σ × ι)
  | _, [] => []
  | s, i :: is => (s, i) :: moments f (f s i) is

/-- What every call keeps holds at every moment. -/
theorem forall_mem_moments {f : σ → ι → σ} {I : σ → Prop} (hstep : ∀ s i, I s → I (f s i))
    {s : σ} (is : List ι) (hs : I s) : ∀ a ∈ moments f s is, I a.1 := by
  induction is generalizing s with
  | nil => nofun
  | cons i is ih =>
      intro a ha
      rcases List.mem_cons.mp ha with rfl | ha
      · exact hs
      · exact ih (hstep s i hs) a ha

/-- What the calls add one by one to a list is read off the moments of the run. -/
theorem foldl_recorded {f : σ → ι → σ} {α : Type*} (out : σ → List α) {g : σ × ι → Option α}
    (hstep : ∀ s i, out (f s i) = out s ++ (g (s, i)).toList) (s : σ) (is : List ι) :
    out (is.foldl f s) = out s ++ (moments f s is).filterMap g := by
  induction is generalizing s with
  | nil => exact (List.append_nil _).symm
  | cons i is ih =>
      rw [List.foldl_cons, ih, hstep, List.append_assoc, moments, List.filterMap_cons]
      cases g (s, i) <;> rfl

end Machine
