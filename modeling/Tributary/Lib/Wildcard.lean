import Mathlib.Data.List.Basic

/-!
# Wildcard patterns

A pattern is a list of symbols, two of which are not literal: `star` stands for any run
of symbols, `one` for a single symbol. Beside the language of a pattern there is the part
of it that reads a `star` of the name literally: a `star` of the pattern that stands
before it takes that symbol and no more.
-/

namespace Tributary.Lib.Wildcard

variable {α : Type} (star one : α)

/-- The pattern matches the list. -/
inductive Matches : List α → List α → Prop
  | nil : Matches [] []
  | symbol {p c : α} {ps cs : List α} (hp : p ≠ star) (h : p = one ∨ p = c)
      (rest : Matches ps cs) : Matches (p :: ps) (c :: cs)
  | run {ps t s : List α} (h : t <:+ s) (rest : Matches ps t) : Matches (star :: ps) s

/-- It does so with every `star` of the list read as a literal, if the pattern has a
`star` there. -/
inductive Literal : List α → List α → Prop
  | nil : Literal [] []
  | symbol {p c : α} {ps cs : List α} (h : p = one ∨ p = c) (rest : Literal ps cs) :
      Literal (p :: ps) (c :: cs)
  | run {ps t s : List α} (hs : s.head? ≠ some star) (h : t <:+ s) (rest : Literal ps t) :
      Literal (star :: ps) s

variable {star one} {p c : α} {ps s cs t : List α}

/-- A literal reading is a reading. -/
theorem Literal.matches (h : Literal star one ps s) :
    Matches star one ps s := by
  induction h with
  | nil => exact .nil
  | @symbol p c ps cs h rest ih =>
      by_cases hp : p = star
      · rw [hp]
        exact .run (List.suffix_cons c cs) ih
      · exact .symbol hp h ih
  | run hs h rest ih => exact .run h ih

/-- Every reading of a list without a `star` is literal. -/
theorem Matches.literal (h : Matches star one ps s) (hs : star ∉ s) : Literal star one ps s := by
  induction h with
  | nil => exact .nil
  | symbol hp h rest ih => exact .symbol h (ih fun hc => hs (List.mem_cons_of_mem _ hc))
  | run h rest ih =>
      exact .run (fun hhead => hs (List.mem_of_head? hhead)) h (ih fun ht => hs (h.subset ht))

/-! ## What a literal reading says of its first symbol -/

/-- The empty list is matched by nothing but stars. -/
theorem literal_nil_iff : Literal star one ps [] ↔ ∀ p ∈ ps, p = star := by
  constructor
  · intro h
    generalize hs : ([] : List α) = s at h
    induction h with
    | nil => simp
    | symbol h rest ih => cases hs
    | run hhead h rest ih =>
        subst hs
        have ht := List.suffix_nil.mp h
        intro p hp
        rcases List.mem_cons.mp hp with rfl | hp
        · rfl
        · exact ih ht.symm p hp
  · intro h
    induction ps with
    | nil => exact .nil
    | cons p ps ih =>
        rw [h p (List.mem_cons_self ..)]
        exact .run (by simp) (List.suffix_refl _) (ih fun q hq => h q (List.mem_cons_of_mem _ hq))

/-- The empty pattern matches nothing else. -/
theorem not_literal_nil_cons : ¬ Literal star one [] (c :: cs) := nofun

/-- A symbol that is not a `star` takes one symbol. -/
theorem literal_symbol_iff (hp : p ≠ star) :
    Literal star one (p :: ps) (c :: cs) ↔ (p = one ∨ p = c) ∧ Literal star one ps cs := by
  constructor
  · intro h
    cases h with
    | symbol h rest => exact ⟨h, rest⟩
    | run _ _ _ => exact absurd rfl hp
  · rintro ⟨h, rest⟩
    exact .symbol h rest

/-- A `star` before a literal one takes it. -/
theorem literal_star_star_iff :
    Literal star one (star :: ps) (star :: cs) ↔ Literal star one ps cs := by
  constructor
  · intro h
    cases h with
    | symbol h rest => exact rest
    | run hs _ _ => exact absurd rfl hs
  · exact fun rest => .symbol (.inr rfl) rest

/-- A `star` elsewhere takes a run. -/
theorem literal_run_iff (hone : star ≠ one) (hs : s.head? ≠ some star) :
    Literal star one (star :: ps) s ↔ ∃ t, t <:+ s ∧ Literal star one ps t := by
  constructor
  · intro h
    cases h with
    | symbol h rest =>
        rcases h with h | h
        · exact absurd h hone
        · exact absurd (by rw [h]; rfl) hs
    | run _ h rest => exact ⟨_, h, rest⟩
  · rintro ⟨t, h, rest⟩
    exact .run hs h rest

/-- Wherever a `star` stands, what follows it matches at that place or further on. -/
theorem Literal.exists_suffix (h : Literal star one (star :: ps) s) :
    ∃ t, t <:+ s ∧ Literal star one ps t := by
  cases h with
  | symbol h rest => exact ⟨_, List.suffix_cons _ _, rest⟩
  | run _ h rest => exact ⟨_, h, rest⟩

end Tributary.Lib.Wildcard
