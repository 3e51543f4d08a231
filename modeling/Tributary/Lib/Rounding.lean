import Mathlib.Order.Monotone.Basic
import Tributary.Lib.Binary64

/-!
# Arithmetic on doubles

The operations on non-negative doubles, by their patterns: the exact result, rounded once.
Patterns are in the order of their values and rounding keeps the order, so a bound on the exact
result that is itself a double bounds the rounded one.
-/

namespace Tributary.Lib.Binary64

variable {u v p q r a b c d : Nat}

/-! ## The order of patterns -/

theorem gap_pos (u : Nat) : 0 < gap u := Nat.two_pow_pos _

theorem units_succ (u : Nat) : units (u + 1) = units u + gap u := by
  rw [units, units, gap]
  by_cases hsub : u + 1 < 2 ^ 52
  · have hexp : u / 2 ^ 52 - 1 = 0 := by omega
    rw [if_pos hsub, if_pos (by omega), hexp, Nat.pow_zero]
  by_cases hlast : u + 1 = 2 ^ 52
  · have hu : u = 2 ^ 52 - 1 := by omega
    subst hu
    decide
  rw [if_neg hsub, if_neg (by omega)]
  by_cases hcarry : u % 2 ^ 52 = 2 ^ 52 - 1
  · -- the mantissa is full: the next pattern is the first of the next exponent
    have hmod : (u + 1) % 2 ^ 52 = 0 := by omega
    have hexp : (u + 1) / 2 ^ 52 - 1 = u / 2 ^ 52 - 1 + 1 := by omega
    rw [hmod, hexp, hcarry, Nat.pow_succ]
    omega
  · have hmod : (u + 1) % 2 ^ 52 = u % 2 ^ 52 + 1 := by omega
    have hexp : (u + 1) / 2 ^ 52 = u / 2 ^ 52 := by omega
    rw [hmod, hexp, ← Nat.add_assoc, Nat.add_mul _ 1, Nat.one_mul]

theorem units_strictMono : StrictMono units :=
  strictMono_nat_of_lt_succ fun u => by
    rw [units_succ]
    exact Nat.lt_add_of_pos_right (gap_pos u)

/-- The value lies between that of the pattern below it and the next. -/
theorem floor_spec (a : Nat) :
    units (floor a) ≤ a ∧ a < units (floor a) + gap (floor a) := by
  by_cases hsmall : a < 2 ^ 53
  · have hexp : a.log2 - 52 = 0 := by
      by_cases h0 : a = 0
      · subst h0
        rfl
      · have hlog := (Nat.log2_lt h0).mpr hsmall
        omega
    have hfloor : floor a = a := by
      rw [floor, hexp]
      simp
    rw [hfloor, units, gap]
    have hgap : a / 2 ^ 52 - 1 = 0 := by omega
    rw [hgap, Nat.pow_zero, Nat.mul_one]
    split <;> omega
  · have hne : a ≠ 0 := by omega
    have hlow : 2 ^ a.log2 ≤ a := Nat.log2_self_le hne
    have hhigh : a < 2 ^ (a.log2 + 1) := Nat.lt_log2_self
    have hbig : 53 ≤ a.log2 := (Nat.le_log2 hne).mpr (Nat.not_lt.mp hsmall)
    generalize he : a.log2 - 52 = e
    have hlog : a.log2 = 52 + e := by omega
    rw [hlog, Nat.pow_add] at hlow
    rw [hlog, Nat.add_right_comm, Nat.pow_add] at hhigh
    have hpos : 0 < 2 ^ e := Nat.two_pow_pos e
    -- the 53 leading bits
    generalize hq : a / 2 ^ e = q
    have hqlow : 2 ^ 52 ≤ q := hq ▸ (Nat.le_div_iff_mul_le hpos).mpr hlow
    have hqhigh : q < 2 ^ 53 := hq ▸ (Nat.div_lt_iff_lt_mul hpos).mpr hhigh
    have hfloor : floor a = e * 2 ^ 52 + q := by rw [floor, he, hq]
    have hexp : (e * 2 ^ 52 + q) / 2 ^ 52 - 1 = e := by omega
    have hmantissa : 2 ^ 52 + (e * 2 ^ 52 + q) % 2 ^ 52 = q := by omega
    rw [hfloor, units, if_neg (by omega), gap, hexp, hmantissa, ← hq, Nat.mul_comm]
    exact ⟨Nat.mul_div_le a _, Nat.lt_mul_div_succ a hpos⟩

theorem le_floor_iff : u ≤ floor a ↔ units u ≤ a := by
  obtain ⟨hlow, hhigh⟩ := floor_spec a
  constructor
  · intro h
    exact Nat.le_trans (units_strictMono.monotone h) hlow
  · intro h
    by_contra hlt
    have hnext := units_strictMono.monotone (Nat.succ_le_of_lt (Nat.not_le.mp hlt))
    rw [Nat.succ_eq_add_one, units_succ] at hnext
    omega

theorem floor_mono (h : a ≤ b) : floor a ≤ floor b :=
  le_floor_iff.mpr (Nat.le_trans (floor_spec a).1 h)

/-! ## Rounding keeps the order -/

/-- The pattern below, or the next, as the middle between them tells. -/
theorem pick_bounds (u x half : Nat) :
    u ≤ (if x < half then u else if half < x then u + 1 else u + u % 2)
      ∧ (if x < half then u else if half < x then u + 1 else u + u % 2) ≤ u + 1 := by
  split
  · omega
  · split <;> omega

/-- **A greater quotient is not rounded to less.** -/
theorem nearest_mono (hb : 0 < b) (hd : 0 < d) (h : a * d ≤ c * b) :
    nearest a b ≤ nearest c d := by
  have hdiv : a / b ≤ c / d := by
    rw [Nat.le_div_iff_mul_le hd]
    refine Nat.le_of_mul_le_mul_right ?_ hb
    calc a / b * d * b = a / b * b * d := Nat.mul_right_comm ..
      _ ≤ a * d := Nat.mul_le_mul_right _ (Nat.div_mul_le_self a b)
      _ ≤ c * b := h
  have hfloor := floor_mono hdiv
  simp only [nearest]
  refine Nat.le_min.mpr ⟨Nat.le_trans (Nat.min_le_left ..) ?_, Nat.min_le_right ..⟩
  rcases Nat.lt_or_ge (floor (a / b)) (floor (c / d)) with hlt | hge
  · -- at most up from the lower pattern, at most down to the higher one
    exact Nat.le_trans (pick_bounds _ _ _).2 (Nat.le_trans hlt (pick_bounds _ _ _).1)
  · rw [Nat.le_antisymm hge hfloor]
    generalize floor (a / b) = u
    generalize 2 * units u + gap u = half
    -- twice the quotients against the middle, over one denominator
    have hscale : 2 * a * d ≤ 2 * c * b := by
      rw [Nat.mul_assoc, Nat.mul_assoc]
      exact Nat.mul_le_mul_left 2 h
    by_cases hbelow : 2 * a < half * b
    · rw [if_pos hbelow]
      exact (pick_bounds _ _ _).1
    have hmiddle : half * d * b ≤ 2 * c * b := by
      refine Nat.le_trans ?_ hscale
      rw [Nat.mul_right_comm]
      exact Nat.mul_le_mul_right d (Nat.not_lt.mp hbelow)
    have hcd : ¬ 2 * c < half * d := Nat.not_lt.mpr (Nat.le_of_mul_le_mul_right hmiddle hb)
    rw [if_neg hbelow, if_neg hcd]
    by_cases habove : half * b < 2 * a
    · have hstrict : half * d * b < 2 * c * b := by
        refine Nat.lt_of_lt_of_le ?_ hscale
        rw [Nat.mul_right_comm]
        exact Nat.mul_lt_mul_of_pos_right habove hd
      rw [if_pos habove, if_pos (Nat.lt_of_mul_lt_mul_right hstrict)]
    · rw [if_neg habove]
      split <;> omega

/-- What is at most a double is not rounded to more. -/
theorem nearest_le (hb : 0 < b) (hp : p ≤ infinity) (h : a ≤ units p * b) : nearest a b ≤ p :=
  Nat.le_trans (nearest_mono hb hb (Nat.mul_le_mul_right b h)) (Nat.le_of_eq (nearest_exact hp hb))

/-! ## The operations -/

/-- `n as f64`. -/
def ofNat (n : Nat) : Nat := nearest (n * 2 ^ places) 1

/-- Both finite, and the second not zero. -/
def div (p q : Nat) : Nat := nearest (units p * 2 ^ places) (units q)

/-- Both finite. -/
def mul (p q : Nat) : Nat := nearest (units p * units q) (2 ^ places)

/-- Both finite; zero where the second is the greater. -/
def sub (p q : Nat) : Nat := nearest (units p - units q) 1

def one : Nat := 1023 * 2 ^ 52

theorem units_one : units one = 2 ^ places := by decide +kernel

theorem ofNat_mono (h : a ≤ b) : ofNat a ≤ ofNat b :=
  nearest_mono Nat.one_pos Nat.one_pos
    (by simpa only [Nat.mul_one] using Nat.mul_le_mul_right _ h)

/-- More, divided by less. -/
theorem div_mono {s : Nat} (hp : p ≤ q) (hs : units s ≠ 0) (hsr : s ≤ r) : div p r ≤ div q s :=
  have hunits := units_strictMono.monotone hsr
  nearest_mono (Nat.lt_of_lt_of_le (Nat.pos_of_ne_zero hs) hunits) (Nat.pos_of_ne_zero hs)
    (Nat.mul_le_mul (Nat.mul_le_mul_right _ (units_strictMono.monotone hp)) hunits)

theorem div_le_one (h : p ≤ q) (hq : units q ≠ 0) : div p q ≤ one :=
  nearest_le (Nat.pos_of_ne_zero hq) (by decide) (by
    rw [units_one, Nat.mul_comm]
    exact Nat.mul_le_mul_left _ (units_strictMono.monotone h))

theorem mul_mono (h : p ≤ q) : mul p r ≤ mul q r :=
  nearest_mono (Nat.two_pow_pos _) (Nat.two_pow_pos _)
    (Nat.mul_le_mul_right _ (Nat.mul_le_mul_right _ (units_strictMono.monotone h)))

theorem mul_one_left (hr : r ≤ infinity) : mul one r = r := by
  rw [mul, units_one, Nat.mul_comm]
  exact nearest_exact hr (Nat.two_pow_pos _)

theorem sub_le (hp : p ≤ infinity) : sub p q ≤ p :=
  nearest_le Nat.one_pos hp (by simp)

end Tributary.Lib.Binary64
