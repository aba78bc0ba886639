import Anraft.Base.Machine

/-!
# Simulations

A machine is simulated by an abstract system when each of its calls can be followed
by steps of that system. What the system can reach then bounds what the machine can.
-/

namespace Machine

variable {σ ι τ : Type*} {f : σ → ι → σ} {C : σ → ι → Prop} {Step : τ → τ → Prop}
  {R : σ → τ → Prop}

/-- What every call that meets its condition preserves holds at the end of the run. -/
theorem foldl_invariant {Q : σ → Prop} (hstep : ∀ s i, C s i → Q s → Q (f s i)) {s : σ}
    {is : List ι} (hC : (ofFun f).Along C s is) (hs : Q s) : Q (is.foldl f s) := by
  induction is generalizing s with
  | nil => exact hs
  | cons i is ih =>
      obtain ⟨hi, htail⟩ := (along_ofFun_cons f C s i is).mp hC
      exact ih htail (hstep s i hi hs)

/-- A run that meets two conditions. -/
theorem Along.and {M : Machine σ ι} {D : σ → ι → Prop} {s : σ} {is : List ι} (hC : M.Along C s is)
    (hD : M.Along D s is) : M.Along (fun s i => C s i ∧ D s i) s is := by
  induction is generalizing s with
  | nil => trivial
  | cons i is ih => exact ⟨⟨hC.1, hD.1⟩, fun s' hs' => ih (hC.2 s' hs') (hD.2 s' hs')⟩

/-- **Progress rule.** If a call that meets its condition is defined in the states of an
invariant, then so is a run, and what its calls keep between their states it keeps between its
start and its end. -/
theorem exists_run_related {M : Machine σ ι} {I : σ → Prop} {Q : σ → σ → Prop} (hrefl : ∀ s, Q s s)
    (htrans : ∀ {s t u}, Q s t → Q t u → Q s u)
    (hstep : ∀ s i, I s → C s i → ∃ s', M.step s i = some s' ∧ I s' ∧ Q s s') {s : σ} {is : List ι}
    (hC : M.Along C s is) (hs : I s) : ∃ s', M.run s is = some s' ∧ I s' ∧ Q s s' := by
  induction is generalizing s with
  | nil => exact ⟨s, rfl, hs, hrefl s⟩
  | cons i is ih =>
      obtain ⟨t, ht, hIt, hst⟩ := hstep s i hs hC.1
      obtain ⟨s', hrun, hIs', hts'⟩ := ih (hC.2 t ht) hIt
      refine ⟨s', ?_, hIs', htrans hst hts'⟩
      rw [run, ht]
      exact hrun

/-- What always holds along a run is what holds after each part of it. -/
theorem always_ofFun_iff_prefix {Q : σ → Prop} {s : σ} {is : List ι} :
    (ofFun f).Always Q s is ↔ ∀ js, js <+: is → Q (js.foldl f s) := by
  constructor
  · rintro h js ⟨ks, rfl⟩
    exact always_ofFun_foldl (always_ofFun_append.mp h).1
  · intro h
    induction is generalizing s with
    | nil => exact h [] List.prefix_rfl
    | cons i is ih =>
        refine (always_ofFun_cons f Q s i is).mpr ⟨h [] List.nil_prefix, ih fun js hjs => ?_⟩
        exact h (i :: js) (List.cons_prefix_cons.mpr ⟨rfl, hjs⟩)

/-- Some run that meets its condition ends in `Q`. -/
def CanReach (f : σ → ι → σ) (C : σ → ι → Prop) (s : σ) (Q : σ → Prop) : Prop :=
  ∃ is, (ofFun f).Along C s is ∧ Q (is.foldl f s)

namespace CanReach

variable {Q Q' : σ → Prop} {s : σ}

theorem now (h : Q s) : CanReach f C s Q := ⟨[], trivial, h⟩

theorem call {i : ι} (hC : C s i) (h : Q (f s i)) : CanReach f C s Q :=
  ⟨[i], (along_ofFun_cons f C s i []).mpr ⟨hC, trivial⟩, h⟩

/-- One run after another. -/
theorem trans (h : CanReach f C s Q) (hnext : ∀ t, Q t → CanReach f C t Q') :
    CanReach f C s Q' := by
  obtain ⟨is, hC, hQ⟩ := h
  obtain ⟨js, hC', hQ'⟩ := hnext _ hQ
  refine ⟨is ++ js, along_ofFun_append.mpr ⟨hC, hC'⟩, ?_⟩
  rw [List.foldl_append]
  exact hQ'

theorem mono (h : CanReach f C s Q) (himp : ∀ t, Q t → Q' t) : CanReach f C s Q' :=
  h.trans fun t ht => now (himp t ht)

end CanReach

/-- Every call that meets `C` is followed by steps of the abstract system, from related
states to related states. -/
def Simulates (f : σ → ι → σ) (C : σ → ι → Prop) (Step : τ → τ → Prop) (R : σ → τ → Prop) : Prop :=
  ∀ s i a, C s i → R s a → ∃ a', Relation.ReflTransGen Step a a' ∧ R (f s i) a'

/-- **Simulation rule.** A run is followed by the abstract system from start to end. -/
theorem Simulates.run (h : Simulates f C Step R) {s : σ} {a : τ} {is : List ι}
    (hC : (ofFun f).Along C s is) (hR : R s a) :
    ∃ a', Relation.ReflTransGen Step a a' ∧ R (is.foldl f s) a' := by
  induction is generalizing s a with
  | nil => exact ⟨a, .refl, hR⟩
  | cons i is ih =>
      obtain ⟨hi, htail⟩ := (along_ofFun_cons f C s i is).mp hC
      obtain ⟨b, hab, hRb⟩ := h s i a hi hR
      obtain ⟨a', hba', hRa'⟩ := ih htail hRb
      exact ⟨a', hab.trans hba', hRa'⟩

end Machine
