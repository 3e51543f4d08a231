import Mathlib.Data.List.TakeWhile
import Tributary.Glob
import Tributary.Lib.Wildcard

/-!
# What the wildcard loop decides

The loop compares a byte of the pattern with the byte of the name before it asks whether
it is a `*`, so that a `*` of the pattern that stands before a `*` of the name takes that
byte and is not gone back to. It decides the literal part of the pattern's language, in
which the last `*` is the only one that ever has to be revisited.
-/

namespace Tributary.Glob

open Lib Wildcard

/-! ## The language -/

/-- The reference language: `*` is any run of bytes, `?` one byte, and every other byte
itself. -/
def Matches (pat s : List UInt8) : Prop := Wildcard.Matches 42 63 pat s

/-- The name has a reading in which each `*` of the pattern that stands before a `*` of
the name takes that byte and no more. -/
def Literal (pat s : List UInt8) : Prop := Wildcard.Literal 42 63 pat s

variable {pat s : List UInt8} {p c star mark : Nat}

/-- The rest of the pattern matches the rest of the name. -/
def Reads (pat s : List UInt8) (p c : Nat) : Prop := Literal (pat.drop p) (s.drop c)

theorem star_ne_one : (42 : UInt8) ≠ 63 := by decide

/-! ## Invariant -/

/-- What is still to be tried: from here, or with a longer run of the last `*`. -/
def Possible (pat s : List UInt8) (p c : Nat) (back : Option (Nat × Nat)) : Prop :=
  Reads pat s p c ∨ ∃ b ∈ back, ∃ m, b.2 < m ∧ Reads pat s (b.1 + 1) m

/-- No longer run of the last `*` brings the rest of the pattern to an earlier place. -/
def Furthest (pat s : List UInt8) (p c : Nat) (back : Option (Nat × Nat)) : Prop :=
  ∀ b ∈ back, ∀ m, b.2 < m → Reads pat s (b.1 + 1) m → ∃ d, c ≤ d ∧ Reads pat s p d

theorem Furthest.possible {back : Option (Nat × Nat)} (h : Furthest pat s p c back)
    (hpos : Possible pat s p c back) : ∃ d, c ≤ d ∧ Reads pat s p d := by
  rcases hpos with hreads | ⟨b, hb, m, hm, hreads⟩
  · exact ⟨c, Nat.le_refl c, hreads⟩
  · exact h b hb m hm hreads

theorem furthest_none : Furthest pat s p c none := fun _ hb => absurd hb (by simp)

theorem furthest_back : Furthest pat s (star + 1) (mark + 1) (some (star, mark + 1)) := by
  rintro b ⟨⟩ m hm hreads
  exact ⟨m, Nat.le_of_lt hm, hreads⟩

theorem furthest_star : Furthest pat s (p + 1) c (some (p, c)) := by
  rintro b ⟨⟩ m hm hreads
  exact ⟨m, Nat.le_of_lt hm, hreads⟩

theorem drop_eq_cons (hc : c < s.length) : s.drop c = s[c] :: s.drop (c + 1) :=
  List.drop_eq_getElem_cons hc

/-- A suffix of the rest of the name is the rest from a place further on. -/
theorem exists_drop {t : List UInt8} (h : t <:+ s.drop c) : ∃ d, c ≤ d ∧ t = s.drop d := by
  rw [List.suffix_iff_eq_drop] at h
  rw [List.drop_drop] at h
  exact ⟨_, Nat.le_add_right c _, h⟩

/-- What follows a `*` matches further on, wherever the `*` stood. -/
theorem reads_past_star {d : Nat} (hp : p < pat.length) (hstar : pat[p] = 42)
    (h : Reads pat s p d) : ∃ e, d ≤ e ∧ Reads pat s (p + 1) e := by
  unfold Reads at h
  rw [drop_eq_cons hp, hstar] at h
  obtain ⟨t, ht, hrest⟩ := Wildcard.Literal.exists_suffix h
  obtain ⟨e, hle, rfl⟩ := exists_drop ht
  exact ⟨e, hle, hrest⟩

/-! ## One turn -/

/-- A byte that fits is taken, be it a `*`. -/
theorem reads_symbol_iff (hp : p < pat.length) (hc : c < s.length)
    (hfit : pat[p] = 63 ∨ pat[p] = s[c]) :
    Reads pat s p c ↔ Reads pat s (p + 1) (c + 1) := by
  unfold Reads
  rw [drop_eq_cons hp, drop_eq_cons hc]
  by_cases hstar : pat[p] = 42
  · have hsc : s[c] = 42 := by
      rcases hfit with h | h
      · rw [hstar] at h
        exact absurd h star_ne_one
      · rw [← h, hstar]
    rw [hstar, hsc]
    exact literal_star_star_iff
  · exact (literal_symbol_iff hstar).trans (and_iff_right hfit)

/-- The attempts that are left stay behind the one under way. -/
theorem furthest_symbol {back : Option (Nat × Nat)} (hp : p < pat.length) (hc : c < s.length)
    (hfit : pat[p] = 63 ∨ pat[p] = s[c]) (h : Furthest pat s p c back) :
    Furthest pat s (p + 1) (c + 1) back := by
  intro b hb m hm hreads
  obtain ⟨d, hle, hd⟩ := h b hb m hm hreads
  rcases Nat.lt_or_eq_of_le hle with hlt | rfl
  · by_cases hstar : pat[p] = 42
    · obtain ⟨e, hde, he⟩ := reads_past_star hp hstar hd
      exact ⟨e, by omega, he⟩
    · unfold Reads at hd
      rw [drop_eq_cons hp] at hd
      by_cases hds : d < s.length
      · rw [drop_eq_cons hds] at hd
        exact ⟨d + 1, by omega, ((literal_symbol_iff hstar).mp hd).2⟩
      · have hnil : s.drop d = [] := List.drop_eq_nil_of_le (Nat.not_lt.mp hds)
        rw [hnil] at hd
        exact absurd (literal_nil_iff.mp hd _ (List.mem_cons_self ..)) hstar
  · exact ⟨c + 1, Nat.le_refl _, (reads_symbol_iff hp hc hfit).mp hd⟩

/-- At a `*` before another byte, only its own run is left to try. -/
theorem possible_star_iff {back : Option (Nat × Nat)} (hp : p < pat.length) (hc : c < s.length)
    (hstar : pat[p] = 42) (hother : s[c] ≠ 42) (h : Furthest pat s p c back) :
    Possible pat s p c back ↔ Possible pat s (p + 1) c (some (p, c)) := by
  constructor
  · intro hpos
    obtain ⟨d, hcd, hd⟩ := h.possible hpos
    obtain ⟨e, hde, he⟩ := reads_past_star hp hstar hd
    rcases Nat.lt_or_eq_of_le (Nat.le_trans hcd hde) with hlt | rfl
    · exact .inr ⟨(p, c), rfl, e, hlt, he⟩
    · exact .inl he
  · intro hpos
    obtain ⟨d, hcd, hd⟩ := furthest_star.possible hpos
    refine .inl ?_
    unfold Reads Literal
    rw [drop_eq_cons hp, hstar, literal_run_iff star_ne_one]
    · refine ⟨s.drop d, ?_, hd⟩
      rw [show d = c + (d - c) by omega, ← List.drop_drop]
      exact List.drop_suffix _ _
    · rw [drop_eq_cons hc, List.head?_cons]
      exact fun h => hother (Option.some.inj h)

/-- A byte that does not fit ends the attempt. -/
theorem not_reads (hc : c < s.length) (hstar : pat[p]? ≠ some 42)
    (hfit : ¬ (p < pat.length ∧ (pat[p]? = some 63 ∨ pat[p]? = s[c]?))) : ¬ Reads pat s p c := by
  unfold Reads Literal
  rw [drop_eq_cons hc]
  by_cases hp : p < pat.length
  · rw [List.getElem?_eq_getElem hp] at hstar hfit
    rw [List.getElem?_eq_getElem hc] at hfit
    rw [drop_eq_cons hp, literal_symbol_iff fun h => hstar (congrArg some h)]
    rintro ⟨h, -⟩
    exact hfit ⟨hp, h.imp (congrArg some) (congrArg some)⟩
  · rw [List.drop_eq_nil_of_le (by omega)]
    exact not_literal_nil_cons

/-! ## The loop -/

theorem dropWhile_eq_nil_iff {t : List UInt8} :
    t.dropWhile (· = 42) = [] ↔ ∀ x ∈ t, x = 42 := by
  rw [List.dropWhile_eq_nil_iff]
  simp

/-- **What the loop answers** is whether one of the attempts that are left succeeds. -/
theorem wildcardLoop_eq_true_iff {fuel : Nat} {back : Option (Nat × Nat)} {b : Bool}
    (hrun : wildcardLoop pat s fuel p c back = some b) (h : Furthest pat s p c back) :
    b = true ↔ Possible pat s p c back := by
  induction fuel generalizing p c back with
  | zero => cases hrun
  | succ fuel ih =>
      unfold wildcardLoop at hrun
      by_cases hc : c < s.length
      · rw [if_pos hc] at hrun
        split at hrun
        · -- the byte fits
          rename_i hfits
          obtain ⟨hp, hfit⟩ := hfits
          rw [List.getElem?_eq_getElem hp, List.getElem?_eq_getElem hc, Option.some.injEq,
            Option.some.injEq] at hfit
          rw [ih hrun (furthest_symbol hp hc hfit h), Possible, Possible,
            reads_symbol_iff hp hc hfit]
        · rename_i hfit
          split at hrun
          · -- a `*` before another byte
            rename_i hstar
            obtain ⟨hp, hstar'⟩ := List.getElem?_eq_some_iff.mp hstar
            have hother : s[c] ≠ 42 := by
              intro hsc
              exact hfit ⟨hp, .inr (by rw [hstar, List.getElem?_eq_getElem hc, hsc])⟩
            rw [ih hrun furthest_star]
            exact (possible_star_iff hp hc hstar' hother h).symm
          · rename_i hstar
            have hnot := not_reads hc hstar hfit
            split at hrun
            · -- back to the last `*`, with a longer run
              rename_i star mark
              rw [ih hrun furthest_back]
              constructor
              · rintro (hreads | ⟨b, ⟨⟩, m, hm, hreads⟩)
                · exact .inr ⟨_, rfl, mark + 1, Nat.lt_succ_self mark, hreads⟩
                · exact .inr ⟨_, rfl, m, Nat.lt_of_succ_lt hm, hreads⟩
              · rintro (hreads | ⟨b, ⟨⟩, m, hm, hreads⟩)
                · exact absurd hreads hnot
                · rcases Nat.lt_or_eq_of_le (Nat.succ_le_of_lt hm) with hlt | rfl
                  · exact .inr ⟨_, rfl, m, hlt, hreads⟩
                  · exact .inl hreads
            · cases hrun
              refine ⟨nofun, ?_⟩
              rintro (hreads | ⟨b, hb, -⟩)
              · exact absurd hreads hnot
              · cases hb
      · -- the name is used up
        rw [if_neg hc, Option.some.injEq] at hrun
        rw [← hrun, decide_eq_true_iff, dropWhile_eq_nil_iff]
        have hend : ∀ d, c ≤ d → (Reads pat s p d ↔ ∀ x ∈ pat.drop p, x = 42) := by
          intro d hd
          have hnil : s.drop d = [] := List.drop_eq_nil_of_le (by omega)
          unfold Reads
          rw [hnil]
          exact literal_nil_iff
        constructor
        · exact fun hall => .inl ((hend c (Nat.le_refl c)).mpr hall)
        · intro hpos
          obtain ⟨d, hcd, hd⟩ := h.possible hpos
          exact (hend d hcd).mp hd

/-- **The function decides the literal readings.** -/
theorem wildcard_eq_true_iff : wildcard pat s = true ↔ Literal pat s := by
  obtain ⟨b, hb⟩ : ∃ b, wildcardLoop pat s (wildcardFuel pat s) 0 0 none = some b :=
    Option.isSome_iff_exists.mp wildcardLoop_fuel
  rw [wildcard, hb, Option.getD_some, wildcardLoop_eq_true_iff hb furthest_none]
  constructor
  · rintro (h | ⟨b, hb, -⟩)
    · exact h
    · cases hb
  · exact fun h => .inl h

/-- On names without a `*` the literal readings are all there are. -/
theorem literal_iff_of_no_star (hs : (42 : UInt8) ∉ s) : Literal pat s ↔ Matches pat s :=
  ⟨fun h => Wildcard.Literal.matches h, fun h => Wildcard.Matches.literal h hs⟩

/-- **`wildcard` ends, and decides the reference language** on a name exactly when the
name has a literal reading if it has any. -/
theorem wildcard_decides_iff (pat s : List UInt8) :
    ∃ b, wildcardLoop pat s (wildcardFuel pat s) 0 0 none = some b ∧ wildcard pat s = b
      ∧ ((b = true ↔ Matches pat s) ↔ (Matches pat s → Literal pat s)) := by
  obtain ⟨b, hb⟩ : ∃ b, wildcardLoop pat s (wildcardFuel pat s) 0 0 none = some b :=
    Option.isSome_iff_exists.mp wildcardLoop_fuel
  have hwild : wildcard pat s = b := by rw [wildcard, hb, Option.getD_some]
  refine ⟨b, hb, hwild, ?_⟩
  rw [← hwild, wildcard_eq_true_iff]
  have hsound : Literal pat s → Matches pat s := Wildcard.Literal.matches
  exact ⟨fun h => h.mpr, fun h => ⟨hsound, h⟩⟩

/-- `*a` does not match the name `*ba`. -/
theorem wildcard_misses_star :
    ¬ ∀ pat s : List UInt8, wildcard pat s = true ↔ Matches pat s := by
  intro h
  have hmatches : Matches [42, 97] [42, 98, 97] :=
    .run (t := [97]) (by decide) (.symbol (by decide) (.inr rfl) .nil)
  have hfalse : wildcard [42, 97] [42, 98, 97] = false := by decide
  rw [← h, hfalse] at hmatches
  cases hmatches

end Tributary.Glob
