import Mathlib.Data.List.Basic
import Mathlib.Data.List.Infix
import Mathlib.Data.List.Nodup

/-!
# The last `n` openings

A bounded memory that forgets in insertion order: `slide n w x` leaves a known
`x` where it is and appends an unknown one, keeping the `n` newest entries.
Two such memories of which one knows a suffix of the other stay in that
relation as long as no input is known to the longer one only.
-/

namespace Tributary.Lib

variable {α : Type*}

/-- The last `n` entries of a list. -/
def lastN (n : Nat) (l : List α) : List α := l.drop (l.length - n)

theorem lastN_suffix (n : Nat) (l : List α) : lastN n l <:+ l :=
  List.drop_suffix _ _

theorem length_lastN (n : Nat) (l : List α) :
    (lastN n l).length = min n l.length := by
  simp only [lastN, List.length_drop]
  omega

theorem lastN_of_le {n : Nat} {l : List α} (h : l.length ≤ n) : lastN n l = l := by
  rw [lastN, Nat.sub_eq_zero_of_le h, List.drop_zero]

theorem lastN_cons {n : Nat} {x : α} {l : List α} (h : n ≤ l.length) :
    lastN n (x :: l) = lastN n l := by
  rw [lastN, lastN, List.length_cons, Nat.succ_sub h, List.drop_succ_cons]

/-- The newest entries of a suffix are newest entries of the whole list. -/
theorem lastN_mono {n : Nat} {v w : List α} (h : v <:+ w) :
    lastN n v <:+ lastN n w := by
  apply List.suffix_of_suffix_length_le ((lastN_suffix n v).trans h) (lastN_suffix n w)
  have hle : v.length ≤ w.length := h.length_le
  rw [length_lastN, length_lastN]
  omega

theorem lastN_lastN_append {n : Nat} (v w : List α) :
    lastN n (lastN n v ++ w) = lastN n (v ++ w) := by
  have hsuf : lastN n v ++ w <:+ v ++ w := by
    obtain ⟨p, hp⟩ := lastN_suffix n v
    exact ⟨p, by rw [← List.append_assoc, hp]⟩
  apply List.IsSuffix.eq_of_length (lastN_mono hsuf)
  rw [length_lastN, length_lastN, List.length_append, List.length_append, length_lastN]
  omega

/-- A full memory forgets its oldest entry for a new one. -/
theorem lastN_push {n : Nat} {l : List α} (h : l.length ≤ n) (hpos : 0 < n) (x : α) :
    (if l.length = n then l.tail else l) ++ [x] = lastN n (l ++ [x]) := by
  split
  · rename_i hfull
    cases l with
    | nil => exact absurd hfull (Nat.ne_of_lt hpos)
    | cons y l =>
        rw [List.cons_append, lastN_cons (by simp [← hfull]), lastN_of_le (by simp [← hfull])]
        rfl
  · rename_i hroom
    rw [lastN_of_le]
    rw [List.length_append, List.length_singleton]
    omega

/-- An entry with fewer than `n` entries behind it is among the last `n`. -/
theorem mem_lastN_of_few {n : Nat} {x : α} {v w : List α} (h : w.length < n) :
    x ∈ lastN n (v ++ x :: w) := by
  have hlast : lastN n (x :: w) = x :: w := lastN_of_le h
  have hsuf := lastN_mono (n := n) (List.suffix_append v (x :: w))
  rw [hlast] at hsuf
  exact hsuf.subset (List.mem_cons_self ..)

variable [DecidableEq α]

/-- One input: a known entry changes nothing, an unknown one is remembered
and the oldest beyond `n` are forgotten. -/
def slide (n : Nat) (w : List α) (x : α) : List α :=
  if x ∈ w then w else lastN n (w ++ [x])

/-- The memory after a whole input. -/
def slides (n : Nat) (w : List α) (xs : List α) : List α := xs.foldl (slide n) w

@[simp] theorem slides_nil (n : Nat) (w : List α) : slides n w [] = w := rfl

@[simp] theorem slides_cons (n : Nat) (w : List α) (x : α) (xs : List α) :
    slides n w (x :: xs) = slides n (slide n w x) xs := rfl

theorem slides_append (n : Nat) (w xs ys : List α) :
    slides n w (xs ++ ys) = slides n (slides n w xs) ys := by
  simp [slides, List.foldl_append]

theorem slide_known {n : Nat} {w : List α} {x : α} (h : x ∈ w) : slide n w x = w :=
  if_pos h

theorem slide_fresh {n : Nat} {w : List α} {x : α} (h : x ∉ w) :
    slide n w x = lastN n (w ++ [x]) :=
  if_neg h

theorem slide_nodup {n : Nat} {w : List α} (h : w.Nodup) (x : α) :
    (slide n w x).Nodup := by
  by_cases hx : x ∈ w
  · rwa [slide_known hx]
  · rw [slide_fresh hx]
    have hcat : (w ++ [x]).Nodup := by
      rw [← List.concat_eq_append]
      exact (List.nodup_concat w x).mpr ⟨hx, h⟩
    exact hcat.sublist (lastN_suffix _ _).sublist

/-- What is remembered after an input was remembered before it, or is it. -/
theorem mem_slide {n : Nat} {w : List α} {x y : α} (h : y ∈ slide n w x) :
    y = x ∨ y ∈ w := by
  by_cases hx : x ∈ w
  · exact .inr (slide_known (n := n) hx ▸ h)
  · rw [slide_fresh hx] at h
    rcases List.mem_append.mp ((lastN_suffix _ _).subset h) with h | h
    · exact .inr h
    · exact .inl (List.mem_singleton.mp h)

theorem mem_slide_self {n : Nat} (hn : 0 < n) (w : List α) (x : α) : x ∈ slide n w x := by
  by_cases hx : x ∈ w
  · rwa [slide_known hx]
  · rw [slide_fresh hx]
    exact mem_lastN_of_few hn

/-- **The suffix law**: a memory that knows the newest entries of another keeps
knowing them, as long as the input is not known to the other one alone. -/
theorem slide_suffix {n : Nat} {v w : List α} {x : α} (h : v <:+ w)
    (hx : x ∈ w → x ∈ v) : slide n v x <:+ slide n w x := by
  by_cases hw : x ∈ w
  · rw [slide_known hw, slide_known (hx hw)]
    exact h
  · have hv : x ∉ v := fun hv => hw (h.subset hv)
    rw [slide_fresh hw, slide_fresh hv]
    apply lastN_mono
    obtain ⟨p, rfl⟩ := h
    exact ⟨p, by simp⟩

/-! ## Openings -/

/-- The inputs that were not known at their turn, in order. -/
def openings (n : Nat) (w : List α) : List α → List α
  | [] => []
  | x :: xs =>
      if x ∈ w then openings n (slide n w x) xs
      else x :: openings n (slide n w x) xs

theorem openings_append (n : Nat) (w xs ys : List α) :
    openings n w (xs ++ ys) = openings n w xs ++ openings n (slides n w xs) ys := by
  induction xs generalizing w with
  | nil => rfl
  | cons x xs ih =>
      by_cases hx : x ∈ w
      · simp [openings, hx, ih]
      · simp [openings, hx, ih]

/-- **The window is the last `n` openings.** -/
theorem slides_eq_lastN {n : Nat} {w : List α} (hw : w.length ≤ n) (xs : List α) :
    slides n w xs = lastN n (w ++ openings n w xs) := by
  induction xs generalizing w with
  | nil => simp [openings, lastN_of_le hw]
  | cons x xs ih =>
      by_cases hx : x ∈ w
      · simp only [slides_cons, openings, if_pos hx, slide_known hx, ih hw]
      · have hlen : (slide n w x).length ≤ n := by
          rw [slide_fresh hx, length_lastN]
          exact Nat.min_le_left _ _
        rw [slides_cons, ih hlen, openings, if_neg hx, slide_fresh hx, lastN_lastN_append,
          List.append_assoc, List.singleton_append]

/-- What is opened stays known while fewer than `n` others are opened. -/
theorem mem_slides_of_few {n : Nat} {w xs : List α} {x : α} (hx : x ∉ w)
    (hfew : (openings n (slide n w x) xs).length < n) : x ∈ slides n (slide n w x) xs := by
  have hlen : (slide n w x).length ≤ n := by
    rw [slide_fresh hx, length_lastN]
    exact Nat.min_le_left _ _
  rw [slides_eq_lastN hlen]
  simp only [slide_fresh hx] at hfew ⊢
  rw [lastN_lastN_append, List.append_assoc]
  exact mem_lastN_of_few hfew

/-- What is known now was opened at some turn and has been known since. -/
theorem exists_opening {n : Nat} {x : α} {xs : List α} (h : x ∈ slides n [] xs) :
    ∃ a b, xs = a ++ x :: b ∧ x ∉ slides n [] a ∧
      ∀ c, c <+: b → x ∈ slides n [] (a ++ x :: c) := by
  induction xs using List.reverseRecOn with
  | nil => cases h
  | append_singleton xs y ih =>
      by_cases hx : x ∈ slides n [] xs
      · obtain ⟨a, b, rfl, ha, hb⟩ := ih hx
        refine ⟨a, b ++ [y], by simp, ha, fun c hc => ?_⟩
        rcases List.prefix_concat_iff.mp (by simpa using hc) with rfl | hc
        · simpa using h
        · exact hb c hc
      · have hxy : x = y := by
          rw [slides_append] at h
          exact (mem_slide h).resolve_right hx
        subst hxy
        refine ⟨xs, [], rfl, hx, fun c hc => ?_⟩
        rw [List.prefix_nil.mp hc]
        exact h

end Tributary.Lib
