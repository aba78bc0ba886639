import Mathlib

/-!
# Segments of a numbered sequence

A segment is a list whose items carry the positions `start`, `start + 1`, … of a
longer sequence. Its items can be told apart by their positions, so cutting a
segment at a position and continuing one segment with another are statements
about positions only.
-/

namespace Segment

variable {α : Type*}

/-- The `k`-th item of `v` has position `start + k`. -/
def Numbered (pos : α → ℕ) (start : ℕ) (v : List α) : Prop :=
  ∀ (k : ℕ) (x : α), v[k]? = some x → pos x = start + k

variable {pos : α → ℕ} {start first : ℕ} {v w : List α}

theorem append_eq_take_append_iff (v u w : List α) (n : ℕ) :
    v ++ w = v.take n ++ (u ++ w) ↔ v.drop n = u := by
  conv_lhs =>
    lhs
    rw [← List.take_append_drop n v, List.append_assoc]
  rw [List.append_cancel_left_eq, List.append_cancel_right_eq]

/-- A window of a list, read position by position. -/
theorem map_some_window (v : List α) {m n : ℕ} (h : m + n ≤ v.length) :
    ((v.drop m).take n).map some = (List.range' m n).map fun i => v[i]? := by
  apply List.ext_getElem?
  intro k
  rcases lt_or_ge k n with hk | hk
  · rw [List.getElem?_map, List.getElem?_map, List.getElem?_take_of_lt hk, List.getElem?_drop,
      List.getElem?_range' hk, List.getElem?_eq_getElem (by omega), Nat.one_mul, Option.map_some,
      Option.map_some, List.getElem?_eq_getElem (by omega)]
  · rw [List.getElem?_eq_none, List.getElem?_eq_none]
    · rw [List.length_map, List.length_range']
      exact hk
    · rw [List.length_map, List.length_take]
      exact (min_le_left _ _).trans hk

/-- The positions from `a` up to `b`, below a border `c` and from it on. -/
theorem range'_split (a b c : ℕ) :
    List.range' a (b - a) = List.range' a (min b c - a) ++ List.range' (max a c) (b - max a c) := by
  rcases le_total b c with hbc | hcb
  · rw [min_eq_left hbc, Nat.sub_eq_zero_of_le (hbc.trans (le_max_right a c)), List.range'_zero,
      List.append_nil]
  rcases le_total c a with hca | hac
  · rw [min_eq_right hcb, max_eq_left hca, Nat.sub_eq_zero_of_le hca, List.range'_zero,
      List.nil_append]
  · rw [min_eq_right hcb, max_eq_right hac, show b - a = (c - a) + (b - c) by omega,
      ← List.range'_append_1, Nat.add_sub_cancel' hac]

namespace Numbered

theorem append (hv : Numbered pos start v) (hw : Numbered pos (start + v.length) w) :
    Numbered pos start (v ++ w) := by
  intro k x hx
  rw [List.getElem?_append] at hx
  split at hx
  · exact hv k x hx
  · rw [hw _ x hx]
    omega

theorem take (hv : Numbered pos start v) (n : ℕ) : Numbered pos start (v.take n) := by
  intro k x hx
  rw [List.getElem?_take] at hx
  split at hx
  · exact hv k x hx
  · cases hx

theorem drop (hv : Numbered pos start v) (n : ℕ) : Numbered pos (start + n) (v.drop n) := by
  intro k x hx
  rw [List.getElem?_drop] at hx
  rw [hv _ x hx, Nat.add_assoc]

theorem tail {x : α} (hv : Numbered pos start (x :: v)) : Numbered pos (start + 1) v :=
  hv.drop 1

/-- An item lies at the place its position says. -/
theorem getElem?_of_mem (hv : Numbered pos start v) {x : α} (hx : x ∈ v) :
    start ≤ pos x ∧ v[pos x - start]? = some x := by
  obtain ⟨k, hk⟩ := List.mem_iff_getElem?.mp hx
  have hpos := hv k x hk
  refine ⟨by omega, ?_⟩
  rwa [hpos, Nat.add_sub_cancel_left]

theorem pos_lt_of_mem (hv : Numbered pos start v) {x : α} (hx : x ∈ v) :
    pos x < start + v.length := by
  obtain ⟨hle, hget⟩ := hv.getElem?_of_mem hx
  have hlt := (List.getElem?_eq_some_iff.mp hget).1
  omega

theorem lt_of_mem_take (hv : Numbered pos start v) {n : ℕ} {x : α}
    (hx : x ∈ v.take (n - start)) : pos x < n := by
  have hlt := (hv.take _).pos_lt_of_mem hx
  have hge := ((hv.take _).getElem?_of_mem hx).1
  have hle := List.length_take_le (n - start) v
  omega

theorem le_of_mem_drop (hv : Numbered pos start v) {n : ℕ} {x : α}
    (hx : x ∈ v.drop (n - start)) : n ≤ pos x := by
  have hge := ((hv.drop _).getElem?_of_mem hx).1
  omega

/-- What follows an item lies beyond it. -/
theorem lt_of_append_cons {x : α} (hv : Numbered pos start (v ++ x :: w)) {y : α} (hy : y ∈ w) :
    pos x < pos y := by
  have hx : pos x = start + v.length := hv v.length x (by simp)
  have hw := hv.drop (v.length + 1)
  rw [List.drop_length_add_append, List.drop_one, List.tail_cons] at hw
  have hge := (hw.getElem?_of_mem hy).1
  omega

/-- The items below a position are the first ones. -/
theorem filter_lt (hv : Numbered pos start v) (n : ℕ) :
    v.filter (fun x => pos x < n) = v.take (n - start) := by
  conv_lhs => rw [← List.take_append_drop (n - start) v]
  rw [List.filter_append, List.filter_eq_self.mpr, List.filter_eq_nil_iff.mpr, List.append_nil]
  · intro x hx
    simpa using hv.le_of_mem_drop hx
  · intro x hx
    simpa using hv.lt_of_mem_take hx

/-- The items from a position on are the last ones. -/
theorem filter_ge (hv : Numbered pos start v) (n : ℕ) :
    v.filter (fun x => n ≤ pos x) = v.drop (n - start) := by
  conv_lhs => rw [← List.take_append_drop (n - start) v]
  rw [List.filter_append, List.filter_eq_nil_iff.mpr, List.filter_eq_self.mpr, List.nil_append]
  · intro x hx
    simpa using hv.le_of_mem_drop hx
  · intro x hx
    simpa using hv.lt_of_mem_take hx

theorem mem_drop_iff (hv : Numbered pos start v) {n : ℕ} {x : α} :
    x ∈ v.drop (n - start) ↔ x ∈ v ∧ n ≤ pos x := by
  rw [← hv.filter_ge, List.mem_filter, decide_eq_true_eq]

/-- No two items share a position. -/
theorem eq_of_pos_eq (hv : Numbered pos start v) {x y : α} (hx : x ∈ v) (hy : y ∈ v)
    (h : pos x = pos y) : x = y := by
  obtain ⟨-, hx⟩ := hv.getElem?_of_mem hx
  obtain ⟨-, hy⟩ := hv.getElem?_of_mem hy
  rw [h] at hx
  exact Option.some.inj (hx.symm.trans hy)

/-- Two segments that cover the same positions are equal when they agree on the
positions they share. -/
theorem eq_of_agree (hv : Numbered pos start v) (hw : Numbered pos start w)
    (hlen : v.length = w.length) (h : ∀ x ∈ v, ∀ y ∈ w, pos x = pos y → x = y) : v = w := by
  apply List.ext_getElem hlen
  intro k hkv hkw
  apply h _ (List.getElem_mem hkv) _ (List.getElem_mem hkw)
  rw [hv k _ (List.getElem?_eq_getElem hkv), hw k _ (List.getElem?_eq_getElem hkw)]

/-- The items of a segment that starts no later, cut below `start` and placed
after the items of `v` below their first one, are a segment again. -/
theorem splice (hv : Numbered pos start v) (hw : Numbered pos first w)
    (hle : first ≤ start + v.length) :
    Numbered pos start (v.take (first - start) ++ w.drop (start - first)) := by
  apply (hv.take _).append
  have hcut := hw.drop (start - first)
  rw [List.length_take]
  convert hcut using 1
  omega

/-- **Appending what is new is splicing, where the segments agree.** Leaving out
of `w` the positions `v` covers already gives the spliced segment exactly when
`v` and `w` have the same items at the positions they share. -/
theorem append_drop_eq_splice_iff (hv : Numbered pos start v) (hw : Numbered pos first w)
    (hle : first ≤ start + v.length) (hreach : start + v.length ≤ first + w.length) :
    v ++ w.drop (start + v.length - first) =
        v.take (first - start) ++ w.drop (start - first) ↔
      ∀ x ∈ v, ∀ y ∈ w, pos x = pos y → x = y := by
  -- the part of `w` that `v` covers lies between the two cuts
  have hsplit : w.drop (start - first) =
      (w.drop (start - first)).take (start + v.length - first - (start - first)) ++
        w.drop (start + v.length - first) := by
    have hcut := (List.take_append_drop (start + v.length - first - (start - first))
      (w.drop (start - first))).symm
    rwa [List.drop_drop, Nat.add_sub_cancel' (by omega)] at hcut
  rw [hsplit, append_eq_take_append_iff]
  constructor
  · intro heq x hx y hy hpos
    have hxw : x ∈ v.drop (first - start) := by
      rw [hv.mem_drop_iff]
      exact ⟨hx, hpos ▸ (hw.getElem?_of_mem hy).1⟩
    rw [heq] at hxw
    exact hw.eq_of_pos_eq (List.mem_of_mem_drop (List.mem_of_mem_take hxw)) hy hpos
  · intro h
    have hdrop := (hw.drop (start - first)).take (start + v.length - first - (start - first))
    rw [show first + (start - first) = start + (first - start) by omega] at hdrop
    apply (hv.drop _).eq_of_agree hdrop
    · rw [List.length_take, List.length_drop, List.length_drop]
      omega
    · intro x hx y hy
      exact h x (List.mem_of_mem_drop hx) y (List.mem_of_mem_drop (List.mem_of_mem_take hy))

end Numbered

end Segment
