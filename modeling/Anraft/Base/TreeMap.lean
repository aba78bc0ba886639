import Mathlib

/-!
# Ordered maps as lists

How a map relates to the list of its entries, and when an insertion has nothing to do.
-/

namespace TreeMap

variable {α β : Type*} [Ord α] {s t : Std.TreeMap α β}

/-- Inserting a key that is there changes nothing. -/
theorem insertIfNew_of_mem {k : α} (h : k ∈ t) (v : β) : t.insertIfNew k v = t := by
  have hcontains : t.inner.inner.contains k = true := h
  unfold Std.TreeMap.insertIfNew Std.DTreeMap.insertIfNew Std.DTreeMap.Internal.Impl.insertIfNew
  simp [hcontains]

variable [Std.TransOrd α] [Std.LawfulEqOrd α]

/-- A key has its value in the list of the map. -/
theorem mem_iff_exists_mem_toList {k : α} : k ∈ t ↔ ∃ v, (k, v) ∈ t.toList := by
  simp only [Std.TreeMap.mem_toList_iff_getElem?_eq_some]
  rw [Std.TreeMap.mem_iff_isSome_getElem?, Option.isSome_iff_exists]

/-- Two maps that agree up to a function of the value agree so as lists. -/
theorem toList_eq_map_of_getElem? {f : α → β → β} (h : ∀ i : α, t[i]? = s[i]?.map (f i)) :
    t.toList = s.toList.map fun x => (x.1, f x.1 x.2) := by
  have hequiv : Std.TreeMap.Equiv t (s.map f) := by
    apply Std.TreeMap.Equiv.of_forall_constGet?_eq
    intro i
    rw [h i, Std.TreeMap.getElem?_map]
  rw [hequiv.toList_eq, Std.TreeMap.toList_map]

/-- Counting the entries that satisfy `p` counts their keys. -/
theorem countP_toList_eq_card [DecidableEq α] {p : α × β → Bool} {S : Finset α}
    (h : ∀ k, k ∈ S ↔ ∃ v, t[k]? = some v ∧ p (k, v) = true) : t.toList.countP p = S.card := by
  have hnodup : ((t.toList.filter p).map Prod.fst).Nodup := by
    rw [List.Nodup, List.pairwise_map]
    apply List.Pairwise.filter
    refine (Std.TreeMap.distinct_keys_toList (t := t)).imp fun {x y} hne heq => hne ?_
    exact Std.LawfulEqCmp.compare_eq_iff_eq.mpr heq
  have hkeys : ((t.toList.filter p).map Prod.fst).toFinset = S := by
    ext k
    rw [h, List.mem_toFinset, List.mem_map]
    constructor
    · rintro ⟨⟨k, v⟩, hmem, rfl⟩
      obtain ⟨hmem, hp⟩ := List.mem_filter.mp hmem
      exact ⟨v, Std.TreeMap.mem_toList_iff_getElem?_eq_some.mp hmem, hp⟩
    · rintro ⟨v, hv, hp⟩
      exact ⟨(k, v), List.mem_filter.mpr
        ⟨Std.TreeMap.mem_toList_iff_getElem?_eq_some.mpr hv, hp⟩, rfl⟩
  rw [← hkeys, List.toFinset_card_of_nodup hnodup, List.length_map, List.countP_eq_length_filter]

end TreeMap
