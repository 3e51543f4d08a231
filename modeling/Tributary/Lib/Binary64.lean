import Mathlib.Algebra.Ring.Nat
import Mathlib.Data.List.Basic

/-!
# Doubles in decimal

The non-negative doubles by their bit pattern `u`, in units of the least positive
one, `2 ^ -1074`: `units u` is the value, `nearest a b` the pattern that `a / b`
units round to. `shortest` is the decimal with the fewest digits that rounds back,
and among those the closest.

A decimal is a pair `(num, frac)`, which stands for `num / 10 ^ frac`.
-/

namespace Tributary.Lib.Binary64

/-- The value of a pattern in units of the least positive double. -/
def units (u : Nat) : Nat :=
  if u < 2 ^ 52 then u else (2 ^ 52 + u % 2 ^ 52) * 2 ^ (u / 2 ^ 52 - 1)

/-- From the value of a pattern to that of the next. -/
def gap (u : Nat) : Nat := 2 ^ (u / 2 ^ 52 - 1)

/-- The greatest pattern whose value is at most `a`. -/
def floor (a : Nat) : Nat :=
  let e := a.log2 - 52
  e * 2 ^ 52 + a / 2 ^ e

/-- The pattern of infinity. -/
def infinity : Nat := 2047 * 2 ^ 52

/-- Round `a / b` units to the nearest pattern, ties to even. -/
def nearest (a b : Nat) : Nat :=
  let u := floor (a / b)
  let half := (2 * units u + gap u) * b
  let v := if 2 * a < half then u else if half < 2 * a then u + 1 else u + u % 2
  min v infinity

theorem floor_units (u : Nat) : floor (units u) = u := by
  rw [units]
  split
  · rename_i h
    have hlog : u.log2 - 52 = 0 := by
      by_cases h0 : u = 0
      · subst h0
        rfl
      · have := (Nat.log2_lt h0).mpr h
        omega
    rw [floor, hlog]
    simp
  · rename_i h
    have hx : 1 ≤ u / 2 ^ 52 := (Nat.one_le_div_iff (by decide)).mpr (Nat.not_lt.mp h)
    have hm : u % 2 ^ 52 < 2 ^ 52 := Nat.mod_lt _ (by decide)
    generalize hk : u / 2 ^ 52 - 1 = k
    have hpos : 0 < 2 ^ k := Nat.two_pow_pos k
    have hne : (2 ^ 52 + u % 2 ^ 52) * 2 ^ k ≠ 0 :=
      Nat.ne_of_gt (Nat.mul_pos (Nat.add_pos_left (by decide) _) hpos)
    have hlog : ((2 ^ 52 + u % 2 ^ 52) * 2 ^ k).log2 = 52 + k := by
      rw [Nat.log2_eq_iff hne]
      constructor
      · rw [Nat.pow_add]
        exact Nat.mul_le_mul_right _ (by omega)
      · rw [show 52 + k + 1 = 53 + k by omega, Nat.pow_add]
        exact Nat.mul_lt_mul_of_pos_right (by omega) hpos
    rw [floor, hlog]
    simp only [Nat.add_sub_cancel_left, Nat.mul_div_cancel _ hpos]
    have hdiv := Nat.div_add_mod u (2 ^ 52)
    omega

/-- A value that is exact rounds to itself. -/
theorem nearest_exact {u b : Nat} (hu : u ≤ infinity) (hb : 0 < b) :
    nearest (units u * b) b = u := by
  have hgap : 0 < gap u * b := Nat.mul_pos (Nat.two_pow_pos _) hb
  rw [nearest, Nat.mul_div_cancel _ hb, floor_units]
  have hhalf : 2 * (units u * b) < (2 * units u + gap u) * b := by
    rw [Nat.add_mul, Nat.mul_assoc]
    omega
  simp only [if_pos hhalf]
  exact Nat.min_eq_left hu

/-! ## The shortest decimal -/

/-- The least positive double is `2 ^ -places`. -/
def places : Nat := 1074

/-- The decimal rounds to the pattern. -/
def Rounds (d : Nat × Nat) (u : Nat) : Prop := nearest (d.1 * 2 ^ places) (10 ^ d.2) = u

instance (d : Nat × Nat) (u : Nat) : Decidable (Rounds d u) := inferInstanceAs (Decidable (_ = _))

/-- The decimal without trailing zeros behind the point. -/
def trimZeros : Nat → Nat → Nat × Nat
  | num, 0 => (num, 0)
  | num, frac + 1 => if num % 10 = 0 then trimZeros (num / 10) frac else (num, frac + 1)

/-- For `a` units below one: how far behind the point the first digit stands. -/
def leading (a : Nat) : Nat :=
  ((List.range 325).find? fun j => 2 ^ places ≤ a * 10 ^ j).getD 0

/-- The two decimals of `n` digits around `a` units, the closer one first. -/
def candidates (a n : Nat) : List (Nat × Nat) :=
  -- zeros before the point and digits behind it
  let (zeros, frac) :=
    if 2 ^ places ≤ a then
      let k := (Nat.toDigits 10 (a / 2 ^ places)).length
      (k - n, n - k)
    else (0, n - 1 + leading a)
  let den := 2 ^ places * 10 ^ zeros
  let below := a * 10 ^ frac / den
  let decimal (d : Nat) := trimZeros (d * 10 ^ zeros) frac
  if 2 * (a * 10 ^ frac % den) < den then [decimal below, decimal (below + 1)]
  else [decimal (below + 1), decimal below]

/-- The decimal with the fewest digits that rounds to the pattern. Seventeen digits
are enough; that the exact value stands behind them saves proving it. -/
def shortest (u : Nat) : Nat × Nat :=
  if u = 0 then (0, 0)
  else
    match ((List.range 17).flatMap fun n => candidates (units u) (n + 1)).find?
        fun d => decide (Rounds d u) with
    | some d => d
    | none => (units u * 5 ^ places, places)

theorem ten_pow (k : Nat) : 10 ^ k = 5 ^ k * 2 ^ k := by
  rw [← Nat.mul_pow]

theorem rounds_exact {u : Nat} (hu : u ≤ infinity) : Rounds (units u * 5 ^ places, places) u := by
  rw [Rounds, Nat.mul_assoc, ← ten_pow]
  exact nearest_exact hu (Nat.pow_pos (by decide))

/-- **The shortest decimal rounds back.** -/
theorem rounds_shortest {u : Nat} (hu : u ≤ infinity) : Rounds (shortest u) u := by
  rw [shortest]
  split
  · rename_i h0
    rw [h0, Rounds, Nat.zero_mul]
    decide
  · split
    · rename_i d hd
      have hfound := List.find?_some hd
      simpa only [decide_eq_true_eq] using hfound
    · exact rounds_exact hu

/-! ## Numerals -/

/-- Fill up with zeros on the left. -/
def pad (w : Nat) (ds : List Char) : List Char := List.replicate (w - ds.length) '0' ++ ds

/-- The numeral of a decimal, with at least one digit before the point. -/
def render (d : Nat × Nat) : List Char :=
  let ds := pad (d.2 + 1) (Nat.toDigits 10 d.1)
  ds.take (ds.length - d.2) ++ if d.2 = 0 then [] else '.' :: ds.drop (ds.length - d.2)

/-- The decimal a numeral stands for. -/
def read (t : List Char) : Option (Nat × Nat) :=
  let whole := t.takeWhile (· ≠ '.')
  let digits (ds : List Char) : Bool := !ds.isEmpty && ds.all Char.isDigit
  match t.dropWhile (· ≠ '.') with
  | [] => if digits whole then some (Nat.ofDigitChars 10 whole 0, 0) else none
  | _ :: frac =>
      if digits whole && digits frac then
        some (Nat.ofDigitChars 10 (whole ++ frac) 0, frac.length)
      else none

theorem isDigit_of_mem_pad {w n : Nat} {c : Char} (h : c ∈ pad w (Nat.toDigits 10 n)) :
    c.isDigit = true := by
  rcases List.mem_append.mp h with h | h
  · rw [List.eq_of_mem_replicate h]
    rfl
  · exact Nat.isDigit_of_mem_toDigits (by decide) (by decide) h

theorem length_pad (w : Nat) (ds : List Char) : w ≤ (pad w ds).length := by
  rw [pad, List.length_append, List.length_replicate]
  omega

theorem ofDigitChars_pad (w n : Nat) :
    Nat.ofDigitChars 10 (pad w (Nat.toDigits 10 n)) 0 = n := by
  rw [pad, Nat.ofDigitChars_append, Nat.ofDigitChars_replicate_zero, Nat.mul_zero,
    Nat.ofDigitChars_ten_toDigits]

/-- Only digits and a point. -/
theorem mem_render {d : Nat × Nat} {c : Char} (h : c ∈ render d) : c.isDigit = true ∨ c = '.' := by
  rcases List.mem_append.mp h with h | h
  · exact .inl (isDigit_of_mem_pad (List.mem_of_mem_take h))
  · split at h
    · cases h
    · rcases List.mem_cons.mp h with rfl | h
      · exact .inr rfl
      · exact .inl (isDigit_of_mem_pad (List.mem_of_mem_drop h))

theorem exists_digit_render (d : Nat × Nat) : ∃ c ∈ render d, c.isDigit = true := by
  have hlen := length_pad (d.2 + 1) (Nat.toDigits 10 d.1)
  have hne : (pad (d.2 + 1) (Nat.toDigits 10 d.1)).take
      ((pad (d.2 + 1) (Nat.toDigits 10 d.1)).length - d.2) ≠ [] := by
    refine List.ne_nil_of_length_pos ?_
    rw [List.length_take]
    omega
  obtain ⟨c, hc⟩ := List.exists_mem_of_ne_nil _ hne
  exact ⟨c, List.mem_append_left _ hc, isDigit_of_mem_pad (List.mem_of_mem_take hc)⟩

/-- **A numeral reads back.** -/
theorem read_render (d : Nat × Nat) : read (render d) = some d := by
  obtain ⟨num, frac⟩ := d
  generalize hds : pad (frac + 1) (Nat.toDigits 10 num) = ds
  have hdigit : ∀ c ∈ ds, c.isDigit = true := fun c hc => isDigit_of_mem_pad (hds ▸ hc)
  have hlen : frac + 1 ≤ ds.length := hds ▸ length_pad _ _
  have hvalue : Nat.ofDigitChars 10 ds 0 = num := hds ▸ ofDigitChars_pad _ _
  have hwhole : ∀ c ∈ ds.take (ds.length - frac), c ≠ '.' := by
    rintro c hc rfl
    exact absurd (hdigit _ (List.mem_of_mem_take hc)) (by decide)
  have hne : ds.take (ds.length - frac) ≠ [] := by
    refine List.ne_nil_of_length_pos ?_
    rw [List.length_take]
    omega
  have hcut : render (num, frac) = ds.take (ds.length - frac)
      ++ if frac = 0 then [] else '.' :: ds.drop (ds.length - frac) := by
    rw [render, hds]
  have htake : (render (num, frac)).takeWhile (· ≠ '.') = ds.take (ds.length - frac) := by
    rw [hcut, List.takeWhile_append_of_pos (by simpa using hwhole)]
    split <;> simp
  have hdrop : (render (num, frac)).dropWhile (· ≠ '.')
      = if frac = 0 then [] else '.' :: ds.drop (ds.length - frac) := by
    rw [hcut, List.dropWhile_append_of_pos (by simpa using hwhole)]
    split <;> simp
  have hall : ∀ p : List Char, (∀ c ∈ p, c ∈ ds) → p.all Char.isDigit = true := by
    intro p hp
    rw [List.all_eq_true]
    exact fun c hc => hdigit c (hp c hc)
  rw [read, htake, hdrop]
  by_cases hfrac : frac = 0
  · subst hfrac
    have hempty : (ds.take (ds.length - 0)).isEmpty = false := by
      simpa using hne
    simp only [if_pos, hall _ fun c hc => List.mem_of_mem_take hc, hempty]
    simp [hvalue]
  · have hfne : ds.drop (ds.length - frac) ≠ [] := by
      refine List.ne_nil_of_length_pos ?_
      rw [List.length_drop]
      omega
    have hflen : (ds.drop (ds.length - frac)).length = frac := by
      rw [List.length_drop]
      omega
    rw [if_neg hfrac]
    simp only [hall _ fun c hc => List.mem_of_mem_take hc, hall _ fun c hc => List.mem_of_mem_drop hc,
      List.take_append_drop, hvalue, hflen]
    simp [hne, hfne]

end Tributary.Lib.Binary64
