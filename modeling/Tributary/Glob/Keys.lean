import Mathlib.Data.List.Nodup
import Mathlib.Data.List.Pairwise
import Tributary.Glob

/-!
# Keys that differ

When the tails of an accepted configuration keep their state apart. The check of
the names speaks of the sources alone; a key of a glob source has a file name in it.
-/

namespace Tributary.Glob

open Config Map

/-! ## Names and stems -/

/-- `f` is `f'` and a `.log` that `f'` has not. -/
def Logged (f f' : FileName) : Prop :=
  toStringLossy f = toStringLossy f' ++ logSuffix ∧ ¬ logSuffix <:+ toStringLossy f'

/-- The files a source tails one by one; none for a plain source. -/
def files (readDir : ReadDir) (e : Entry) : List FileName :=
  if isGlob e.path then (globMatches readDir e.path).map Path.file else []

/-- A file of `g` has the key of `h`, or of a file of `h`: `h` is named as if it
were a file of `g`. -/
def Shadows (scan : Entry → ReadDir) (g h : Entry) : Prop :=
  ∃ r, h.name = g.name ++ '.' :: r ∧ ∃ f ∈ files (scan g) g,
    (isGlob h.path = false ∧ stem f = r)
      ∨ ∃ f' ∈ files (scan h) h, stem f = r ++ '.' :: stem f'

/-- **What keeps the keys apart.** -/
structure Apart (scan : Entry → ReadDir) (sources : List Entry) : Prop where
  /-- the files of one source read differently, with and without a `.log` -/
  within : ∀ g ∈ tailed sources, ∀ f ∈ files (scan g) g, ∀ f' ∈ files (scan g) g, f ≠ f' →
    toStringLossy f ≠ toStringLossy f' ∧ ¬ Logged f f'
  /-- no source is named as a file of another -/
  between : ∀ g ∈ tailed sources, ∀ h ∈ tailed sources, ¬ Shadows scan g h

/-- One directory, whatever it is asked for. -/
def holding (names : List FileName) (h : names.Nodup) : Entry → ReadDir :=
  fun _ _ => some ⟨names, h⟩

end Tributary.Glob
