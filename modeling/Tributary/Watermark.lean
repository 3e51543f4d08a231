import Tributary.Word
import Mathlib.Data.List.Sort

/-!
# Watermarks

The completeness claim of a stream and the lateness allowance it is drawn with.
The allowance is a high quantile of the lateness observed, between a floor and a
ceiling, and the ceiling until there are samples enough.
-/

namespace Tributary

namespace Watermark

/-- How many lateness samples the estimate is drawn from. -/
def WINDOW : Nat := 4096

/-- Below this many samples the estimate is not trusted. -/
def MIN_SAMPLES : Nat := 256

end Watermark

structure Watermark where
  floorNs : Int
  ceilingNs : Int
  /-- oldest first -/
  samples : List Int
  maxTsSeen : Int
  latenessNs : Int
  publishedNs : Int
  violations : Nat
deriving DecidableEq, Repr

namespace Watermark

def new (floorNs ceilingNs : Int) : Watermark :=
  { floorNs
    ceilingNs := max ceilingNs floorNs
    samples := []
    maxTsSeen := i64Min
    latenessNs := max ceilingNs floorNs
    publishedNs := i64Min
    violations := 0 }

/-- `i64::clamp`. -/
def clamp (x lo hi : Int) : Int := if x < lo then lo else if hi < x then hi else x

/-- Resume the estimate of a previous run. -/
def restore (w : Watermark) (latenessNs : Int) : Watermark :=
  { w with latenessNs := clamp latenessNs w.floorNs w.ceilingNs }

/-- A line below the published watermark contradicts a claim already made. -/
def violates (w : Watermark) (sourceTsNs : Int) : Bool :=
  decide (w.publishedNs ≠ i64Min) && decide (sourceTsNs < w.publishedNs)

/-- Record a line's source timestamp as it is read. -/
def observe (w : Watermark) (sourceTsNs : Int) : Watermark :=
  let samples :=
    if w.maxTsSeen ≠ i64Min then
      let lateness := max (wrap64 (w.maxTsSeen - sourceTsNs)) 0
      (if w.samples.length = WINDOW then w.samples.tail else w.samples) ++ [lateness]
    else w.samples
  { w with
    samples
    maxTsSeen := max w.maxTsSeen sourceTsNs
    violations := if w.violates sourceTsNs then w.violations + 1 else w.violations }

/-- The index of the 0.999 quantile among `n` samples, rounded half up. -/
def quantileIndex (n : Nat) : Nat := ((n - 1) * 999 + 500) / 1000

def estimate (w : Watermark) : Int :=
  if w.samples.length < MIN_SAMPLES then w.ceilingNs
  else
    let v := w.samples.insertionSort (· ≤ ·)
    clamp (v.getD (quantileIndex v.length) 0) w.floorNs w.ceilingNs

/-- The value a batch with this maximum timestamp lets one claim. -/
def candidate (w : Watermark) (ackedMaxTsNs : Int) : Int :=
  max i64Min (min i64Max (ackedMaxTsNs - w.estimate))

/-- Advance the watermark; it never goes back. -/
def advance (w : Watermark) (ackedMaxTsNs : Int) : Watermark :=
  { w with
    latenessNs := w.estimate
    publishedNs := max w.publishedNs (w.candidate ackedMaxTsNs) }

@[simp] theorem advance_publishedNs (w : Watermark) (ts : Int) :
    (w.advance ts).publishedNs = max w.publishedNs (w.candidate ts) := rfl

end Watermark

end Tributary
