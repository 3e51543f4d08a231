import Mathlib.Data.Nat.Digits.Lemmas
import Mathlib.Data.List.Lex
import Mathlib.Data.List.Sort

/-!
# Zero-padded decimal numerals

Numerals as lists of character codes, most significant first. `zeroPad w n` is
what a `{:0w}` format prints and `parse` what a digit parser reads back. For
numbers that fit the width, the lexicographic order of the numerals is the
order of the numbers, so sorting names sorts numbers.
-/

namespace Tributary.Lib.Decimal

/-- The character code of a digit: `'0'` is 48. -/
def code (d : Nat) : Nat := 48 + d

/-- The decimal digits of `n`, filled up with zeros on the left to width `w`;
a longer number keeps all its digits. -/
def digits (w n : Nat) : List Nat :=
  List.replicate (w - (Nat.digits 10 n).length) 0 ++ (Nat.digits 10 n).reverse

/-- `format!("{:0w}", n)`. -/
def zeroPad (w n : Nat) : List Nat := (digits w n).map code

/-- The number a digit string stands for. -/
def value (ds : List Nat) : Nat := Nat.ofDigits 10 ds.reverse

/-- `str::parse::<u64>`: an optional plus sign, then digits, in range. -/
def parse (codes : List Nat) : Option Nat :=
  let ds := match codes with
    | 43 :: rest => rest
    | rest => rest
  if ds ≠ [] ∧ ∀ c ∈ ds, 48 ≤ c ∧ c < 58 then
    let n := value (ds.map (· - 48))
    if n < 2 ^ 64 then some n else none
  else none

/-! ## Reading back -/

theorem digits_lt {w n d : Nat} (h : d ∈ digits w n) : d < 10 := by
  rcases List.mem_append.mp h with h | h
  · have hd : d = 0 := List.eq_of_mem_replicate h
    omega
  · exact Nat.digits_lt_base (by decide) (List.mem_reverse.mp h)

theorem value_digits (w n : Nat) : value (digits w n) = n := by
  rw [value, digits, List.reverse_append, List.reverse_reverse, List.reverse_replicate,
    Nat.ofDigits_append, Nat.ofDigits_digits, Nat.ofDigits_replicate_zero, Nat.mul_zero,
    Nat.add_zero]

theorem length_digits {w n : Nat} (h : n < 10 ^ w) : (digits w n).length = w := by
  have hle := (Nat.digits_length_le_iff (by decide : 1 < 10) n).mpr h
  simp only [digits, List.length_append, List.length_replicate, List.length_reverse]
  omega

theorem zeroPad_inj {w n m : Nat} (h : zeroPad w n = zeroPad w m) : n = m := by
  have hinj : Function.Injective code := fun a b hab => by
    simp only [code] at hab
    omega
  have hd : digits w n = digits w m := List.map_injective_iff.mpr hinj h
  rw [← value_digits w n, hd, value_digits]

/-- A padded numeral reads back as its number. -/
theorem parse_zeroPad {w n : Nat} (hw : 0 < w) (h : n < 10 ^ w) (h64 : n < 2 ^ 64) :
    parse (zeroPad w n) = some n := by
  have hlen := length_digits h
  have hcodes : ∀ c ∈ zeroPad w n, 48 ≤ c ∧ c < 58 := by
    intro c hc
    obtain ⟨d, hd, rfl⟩ := List.mem_map.mp hc
    have := digits_lt hd
    simp only [code]
    omega
  have hne : zeroPad w n ≠ [] := by
    intro hnil
    have hl : (zeroPad w n).length = w := by rw [zeroPad, List.length_map, hlen]
    rw [hnil] at hl
    simp only [List.length_nil] at hl
    omega
  have hplain : (match zeroPad w n with
      | 43 :: rest => rest
      | rest => rest) = zeroPad w n := by
    split
    · rename_i rest heq
      have := hcodes 43 (by rw [heq]; simp)
      omega
    · rfl
  have hback : (zeroPad w n).map (· - 48) = digits w n := by
    rw [zeroPad, List.map_map]
    conv_rhs => rw [← List.map_id (digits w n)]
    apply List.map_congr_left
    intro d _
    simp [code]
  simp only [parse, hplain, hback, value_digits]
  rw [if_pos ⟨hne, hcodes⟩, if_pos h64]

/-! ## Order -/

theorem value_cons (d : Nat) (ds : List Nat) :
    value (d :: ds) = value ds + 10 ^ ds.length * d := by
  rw [value, List.reverse_cons, Nat.ofDigits_append, List.length_reverse,
    Nat.ofDigits_singleton]
  rfl

theorem value_lt {ds : List Nat} (h : ∀ d ∈ ds, d < 10) : value ds < 10 ^ ds.length := by
  have hlt := Nat.ofDigits_lt_base_pow_length (b := 10) (l := ds.reverse) (by decide)
    (fun d hd => h d (List.mem_reverse.mp hd))
  rwa [List.length_reverse] at hlt

/-- On digit strings of one length the lexicographic order is the order of the
values. -/
theorem lt_of_value_lt {as bs : List Nat} (hlen : as.length = bs.length)
    (hbs : ∀ d ∈ bs, d < 10) (h : value as < value bs) : as < bs := by
  induction as generalizing bs with
  | nil =>
      cases bs with
      | nil => exact absurd h (Nat.lt_irrefl _)
      | cons b bs => simp at hlen
  | cons a as ih =>
      cases bs with
      | nil => simp at hlen
      | cons b bs =>
          have hl : as.length = bs.length := by simpa using hlen
          rw [value_cons, value_cons, hl] at h
          rw [List.cons_lt_cons_iff]
          rcases Nat.lt_trichotomy a b with hab | hab | hab
          · exact .inl hab
          · subst hab
            exact .inr ⟨rfl, ih hl (fun d hd => hbs d (by simp [hd])) (by omega)⟩
          · have hb : value bs < 10 ^ bs.length := value_lt fun d hd => hbs d (by simp [hd])
            have hmul : 10 ^ bs.length * b + 10 ^ bs.length ≤ 10 ^ bs.length * a := by
              calc 10 ^ bs.length * b + 10 ^ bs.length = 10 ^ bs.length * (b + 1) := by
                    rw [Nat.mul_add, Nat.mul_one]
                _ ≤ 10 ^ bs.length * a := Nat.mul_le_mul_left _ hab
            omega

theorem map_code_lt {as bs : List Nat} (h : as < bs) : as.map code < bs.map code := by
  induction as generalizing bs with
  | nil =>
      cases bs with
      | nil => exact absurd h (lt_irrefl _)
      | cons b bs => exact List.nil_lt_cons _ _
  | cons a as ih =>
      cases bs with
      | nil => exact absurd h (List.not_lt_nil _)
      | cons b bs =>
          rw [List.map_cons, List.map_cons, List.cons_lt_cons_iff]
          rcases List.cons_lt_cons_iff.mp h with hab | ⟨hab, hrest⟩
          · exact .inl (Nat.add_lt_add_left hab 48)
          · exact .inr ⟨by rw [hab], ih hrest⟩

/-- **Padded numerals sort as their numbers do.** -/
theorem zeroPad_lt {w n m : Nat} (hm : m < 10 ^ w) (h : n < m) :
    zeroPad w n < zeroPad w m := by
  have hn : n < 10 ^ w := Nat.lt_trans h hm
  apply map_code_lt
  apply lt_of_value_lt
  · rw [length_digits hn, length_digits hm]
  · exact fun d hd => digits_lt hd
  · rwa [value_digits, value_digits]

/-! ## Fields of fixed width -/

theorem append_lt_append {as bs : List Nat} (hlen : as.length = bs.length) (h : as < bs)
    (s t : List Nat) : as ++ s < bs ++ t := by
  induction as generalizing bs with
  | nil =>
      rw [List.length_nil] at hlen
      rw [List.length_eq_zero_iff.mp hlen.symm] at h
      exact absurd h (lt_irrefl _)
  | cons a as ih =>
      cases bs with
      | nil => simp at hlen
      | cons b bs =>
          rw [List.cons_append, List.cons_append, List.cons_lt_cons_iff]
          rcases List.cons_lt_cons_iff.mp h with hab | ⟨hab, hrest⟩
          · exact .inl hab
          · exact .inr ⟨hab, ih (by simpa using hlen) hrest⟩

theorem length_zeroPad {w n : Nat} (h : n < 10 ^ w) : (zeroPad w n).length = w := by
  rw [zeroPad, List.length_map, length_digits h]

/-- Numerals of their width are told from what follows them. -/
theorem zeroPad_append_inj {w n m : Nat} {s t : List Nat} (hn : n < 10 ^ w) (hm : m < 10 ^ w)
    (h : zeroPad w n ++ s = zeroPad w m ++ t) : n = m ∧ s = t := by
  obtain ⟨hnum, hrest⟩ := List.append_inj h (by rw [length_zeroPad hn, length_zeroPad hm])
  exact ⟨zeroPad_inj hnum, hrest⟩

/-- A numeral of its width decides, and what follows it only where it is the same. -/
theorem zeroPad_append_lt {w n m : Nat} {s t : List Nat} (hm : m < 10 ^ w)
    (h : n < m ∨ n = m ∧ s < t) : zeroPad w n ++ s < zeroPad w m ++ t := by
  rcases h with hlt | ⟨rfl, hrest⟩
  · refine append_lt_append ?_ (zeroPad_lt hm hlt) s t
    rw [length_zeroPad hm, length_zeroPad (hlt.trans hm)]
  · exact List.append_left_lt hrest

end Tributary.Lib.Decimal
