import Mathlib.Data.List.Sort

/-!
# Order statistics

What stands above an entry of the sorted list: no more than stands behind it.
-/

namespace Tributary.Lib

variable {α : Type*} [LinearOrder α]

/-- In a sorted list only the entries behind an entry can be above it. -/
theorem countP_above_sorted {v : List α} (hv : v.Pairwise (· ≤ ·)) {i : Nat} (hi : i < v.length) :
    v.countP (fun x => decide (v[i] < x)) ≤ v.length - 1 - i := by
  have hsplit : v.countP (fun x => decide (v[i] < x))
      = (v.take (i + 1)).countP (fun x => decide (v[i] < x))
        + (v.drop (i + 1)).countP fun x => decide (v[i] < x) := by
    rw [← List.countP_append, List.take_append_drop]
  have hfront : (v.take (i + 1)).countP (fun x => decide (v[i] < x)) = 0 := by
    refine List.countP_eq_zero.mpr fun x hx => ?_
    obtain ⟨j, hj, rfl⟩ := List.mem_take_iff_getElem.mp hx
    have hle : v[j] ≤ v[i] := by
      rcases Nat.lt_or_eq_of_le (Nat.le_of_lt_succ (lt_of_lt_of_le hj (Nat.min_le_left _ _)))
        with hlt | rfl
      · exact List.pairwise_iff_getElem.mp hv j i _ hi hlt
      · exact le_refl _
    simpa using hle
  have hback : (v.drop (i + 1)).countP (fun x => decide (v[i] < x)) ≤ v.length - (i + 1) := by
    rw [← List.length_drop]
    exact List.countP_le_length
  omega

/-- The entry of index `i` in order, in any list. -/
theorem countP_above_orderStat (l : List α) {i : Nat} (hi : i < l.length) (d : α) :
    l.countP (fun x => decide ((l.insertionSort (· ≤ ·)).getD i d < x)) ≤ l.length - 1 - i := by
  have hlen : (l.insertionSort (· ≤ ·)).length = l.length := List.length_insertionSort _ l
  have hi' : i < (l.insertionSort (· ≤ ·)).length := hlen ▸ hi
  have hget : (l.insertionSort (· ≤ ·)).getD i d = (l.insertionSort (· ≤ ·))[i] := by
    rw [List.getD_eq_getElem?_getD, List.getElem?_eq_getElem hi', Option.getD_some]
  rw [hget, ← (List.perm_insertionSort (· ≤ ·) l).countP_eq, ← hlen]
  exact countP_above_sorted (List.pairwise_insertionSort (· ≤ ·) l) hi'

/-- A higher bound has fewer entries above it. -/
theorem countP_above_anti (l : List α) {a b : α} (h : a ≤ b) :
    l.countP (fun x => decide (b < x)) ≤ l.countP fun x => decide (a < x) :=
  List.countP_mono_left fun x _ hx => by
    simpa using lt_of_le_of_lt h (by simpa using hx)

end Tributary.Lib
