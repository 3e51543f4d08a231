import Tributary.Watermark
import Tributary.Lib.Quantile
import Tributary.Lib.Window

/-!
# The lateness allowance over a run

A watermark from its start, under any calls of `observe`, `advance` and `restore`: what
it has published, what it has counted, and how much of the latest lateness is above the
allowance it advances with.
-/

namespace Tributary.Watermark

open Lib

/-! ## Calls -/

inductive Call where
  | observe (sourceTsNs : Int)
  | advance (ackedMaxTsNs : Int)
  | restore (latenessNs : Int)
deriving DecidableEq, Repr

def call (w : Watermark) : Call → Watermark
  | .observe ts => w.observe ts
  | .advance ts => w.advance ts
  | .restore l => w.restore l

def calls (w : Watermark) (cs : List Call) : Watermark := cs.foldl call w

theorem calls_append (w : Watermark) (cs ds : List Call) :
    calls w (cs ++ ds) = calls (calls w cs) ds := List.foldl_append ..

theorem calls_snoc (w : Watermark) (cs : List Call) (c : Call) :
    calls w (cs ++ [c]) = (calls w cs).call c := calls_append w cs [c]

/-- The timestamps observed, oldest first. -/
def observed (cs : List Call) : List Int :=
  cs.filterMap fun
    | .observe ts => some ts
    | _ => none

/-- How late each timestamp is, against the greatest before it; the first has none
to be late against. -/
def lateness (seen : Int) : List Int → List Int
  | [] => []
  | ts :: rest =>
      (if seen ≠ i64Min then [max (seen - ts) 0] else []) ++ lateness (max seen ts) rest

/-- The difference to the greatest before is representable at every timestamp. -/
def Close (seen : Int) : List Int → Prop
  | [] => True
  | ts :: rest => (seen ≠ i64Min → FitsI64 (seen - ts)) ∧ Close (max seen ts) rest

instance Close.decidable : (seen : Int) → (tss : List Int) → Decidable (Close seen tss)
  | _, [] => isTrue trivial
  | seen, ts :: rest =>
      have := Close.decidable (max seen ts) rest
      inferInstanceAs (Decidable ((seen ≠ i64Min → FitsI64 (seen - ts)) ∧ Close (max seen ts) rest))

/-- The samples an estimate is drawn from: the latest lateness. -/
def recent (cs : List Call) : List Int := lastN WINDOW (lateness i64Min (observed cs))

/-- The 0.999 quantile. -/
def quantile (samples : List Int) : Int :=
  (samples.insertionSort (· ≤ ·)).getD (quantileIndex samples.length) 0

/-- `i64::saturating_sub`. -/
def saturatingSub (x y : Int) : Int := max i64Min (min i64Max (x - y))

/-- The call at this place observed a timestamp below the watermark of its moment. -/
def contradicts (w : Watermark) (cs : List Call) (k : Nat) : Bool :=
  match cs[k]? with
  | some (.observe ts) => decide (ts < (calls w (cs.take k)).publishedNs)
  | _ => false

/-! ## One call -/

variable {w : Watermark} {c : Call} {cs : List Call}

theorem call_floorNs (w : Watermark) (c : Call) : (w.call c).floorNs = w.floorNs := by
  cases c <;> rfl

theorem call_ceilingNs (w : Watermark) (c : Call) : (w.call c).ceilingNs = w.ceilingNs := by
  cases c <;> rfl

theorem calls_bounds (w : Watermark) (cs : List Call) :
    (calls w cs).floorNs = w.floorNs ∧ (calls w cs).ceilingNs = w.ceilingNs := by
  induction cs generalizing w with
  | nil => exact ⟨rfl, rfl⟩
  | cons c cs ih =>
      obtain ⟨hfloor, hceiling⟩ := ih (w.call c)
      exact ⟨hfloor.trans (call_floorNs w c), hceiling.trans (call_ceilingNs w c)⟩

theorem clamp_mem {x lo hi : Int} (h : lo ≤ hi) : lo ≤ clamp x lo hi ∧ clamp x lo hi ≤ hi := by
  unfold clamp
  split
  · omega
  · split <;> omega

theorem estimate_mem (h : w.floorNs ≤ w.ceilingNs) :
    w.floorNs ≤ w.estimate ∧ w.estimate ≤ w.ceilingNs := by
  unfold estimate
  split
  · exact ⟨h, le_refl _⟩
  · exact clamp_mem h

/-- No call takes a claim back. -/
theorem call_publishedNs (w : Watermark) (c : Call) : w.publishedNs ≤ (w.call c).publishedNs := by
  cases c with
  | observe ts => exact le_refl _
  | advance ts => exact le_max_left ..
  | restore l => exact le_refl _

/-- What an advance publishes was published, or is drawn with its allowance. -/
theorem advance_publishes (w : Watermark) (ts : Int) :
    (w.advance ts).publishedNs = w.publishedNs ∨
      (w.advance ts).publishedNs = saturatingSub ts (w.advance ts).latenessNs := by
  rcases le_total (w.candidate ts) w.publishedNs with h | h
  · exact .inl (max_eq_left h)
  · exact .inr (max_eq_right h)

/-- A timestamp contradicts a claim if it is below it. -/
theorem violates_iff {ts : Int} (hts : i64Min ≤ ts) :
    w.violates ts = decide (ts < w.publishedNs) := by
  unfold violates
  by_cases hpub : w.publishedNs = i64Min
  · simp [hpub, hts]
  · simp [hpub]

theorem observe_samples {ts : Int} (hlen : w.samples.length ≤ WINDOW)
    (hfits : w.maxTsSeen ≠ i64Min → FitsI64 (w.maxTsSeen - ts)) : (w.observe ts).samples
      = lastN WINDOW (w.samples
          ++ if w.maxTsSeen ≠ i64Min then [max (w.maxTsSeen - ts) 0] else []) := by
  by_cases hseen : w.maxTsSeen = i64Min
  · simp [observe, hseen, lastN_of_le hlen]
  · simp only [observe, if_pos hseen, wrap64_of_fits (hfits hseen)]
    exact lastN_push hlen (by decide) _

/-! ## Runs -/

theorem calls_samples (hlen : w.samples.length ≤ WINDOW) (hclose : Close w.maxTsSeen (observed cs)) :
    (calls w cs).samples
      = lastN WINDOW (w.samples ++ lateness w.maxTsSeen (observed cs)) := by
  induction cs generalizing w with
  | nil => simp [calls, observed, lateness, lastN_of_le hlen]
  | cons c cs ih =>
      cases c with
      | observe ts =>
          have hsamples := observe_samples hlen hclose.1
          have hlen' : (w.observe ts).samples.length ≤ WINDOW := by
            rw [hsamples, length_lastN]
            exact Nat.min_le_left ..
          have hrest : (calls (w.observe ts) cs).samples = _ := ih hlen' hclose.2
          change (calls (w.observe ts) cs).samples = _
          rw [hrest, hsamples, lastN_lastN_append, List.append_assoc]
          rfl
      | advance ts => exact ih (w := w.advance ts) hlen hclose
      | restore l => exact ih (w := w.restore l) hlen hclose

theorem calls_publishedNs (w : Watermark) (cs : List Call) :
    w.publishedNs ≤ (calls w cs).publishedNs := by
  induction cs generalizing w with
  | nil => exact le_refl _
  | cons c cs ih => exact (call_publishedNs w c).trans (ih (w.call c))

theorem calls_latenessNs (hbounds : w.floorNs ≤ w.ceilingNs)
    (h : w.floorNs ≤ w.latenessNs ∧ w.latenessNs ≤ w.ceilingNs) :
    w.floorNs ≤ (calls w cs).latenessNs ∧ (calls w cs).latenessNs ≤ w.ceilingNs := by
  induction cs generalizing w with
  | nil => exact h
  | cons c cs ih =>
      have hthis : w.floorNs ≤ (w.call c).latenessNs ∧ (w.call c).latenessNs ≤ w.ceilingNs := by
        cases c with
        | observe ts => exact h
        | advance ts => exact estimate_mem hbounds
        | restore l => exact clamp_mem hbounds
      have hrest := ih (w := w.call c)
      rw [call_floorNs, call_ceilingNs] at hrest
      exact hrest hbounds hthis

/-- The last advance that moved the watermark. -/
theorem calls_publishes (w : Watermark) (cs : List Call) :
    (calls w cs).publishedNs = w.publishedNs ∨ ∃ before ts after, cs = before ++ .advance ts :: after ∧
      (calls w cs).publishedNs
        = saturatingSub ts (calls w (before ++ [.advance ts])).latenessNs := by
  induction cs using List.reverseRecOn with
  | nil => exact .inl rfl
  | append_singleton cs c ih =>
      -- the call leaves the value, or publishes its own
      have hcall : (calls w (cs ++ [c])).publishedNs = (calls w cs).publishedNs ∨ ∃ ts,
          c = .advance ts ∧ (calls w (cs ++ [c])).publishedNs
            = saturatingSub ts (calls w (cs ++ [c])).latenessNs := by
        rw [calls_snoc]
        cases c with
        | observe ts => exact .inl rfl
        | advance ts => exact (advance_publishes (calls w cs) ts).imp_right fun h => ⟨ts, rfl, h⟩
        | restore l => exact .inl rfl
      rcases hcall with hsame | ⟨ts, rfl, hpub⟩
      · rw [hsame]
        refine ih.imp_right fun ⟨before, ts, after, heq, hpub⟩ => ?_
        exact ⟨before, ts, after ++ [c], by rw [heq]; simp, hpub⟩
      · exact .inr ⟨cs, ts, [], rfl, hpub⟩

theorem calls_violations (hts : ∀ ts ∈ observed cs, i64Min ≤ ts) :
    (calls w cs).violations
      = w.violations + (List.range cs.length).countP fun k => contradicts w cs k := by
  induction cs using List.reverseRecOn with
  | nil => rfl
  | append_singleton cs c ih =>
      have hbefore : (List.range cs.length).countP (fun k => contradicts w (cs ++ [c]) k)
          = (List.range cs.length).countP fun k => contradicts w cs k := by
        refine List.countP_congr fun k hk => ?_
        have hlt := List.mem_range.mp hk
        simp only [contradicts, List.getElem?_append_left hlt, List.take_append_of_le_length hlt.le]
      have hrest := ih fun ts hmem => hts ts (by simp [observed] at hmem ⊢; exact .inl hmem)
      rw [calls_snoc, List.length_append, List.length_singleton, List.range_succ,
        List.countP_append, List.countP_singleton, hbefore, ← Nat.add_assoc, ← hrest]
      cases c with
      | observe ts =>
          have hviolates : (calls w cs).violates ts = contradicts w (cs ++ [.observe ts]) cs.length := by
            rw [violates_iff (hts ts (by simp [observed]))]
            simp [contradicts]
          simp only [call, observe, hviolates]
          split <;> rfl
      | advance ts => simp [call, advance, contradicts]
      | restore l => simp [call, restore, contradicts]

/-- With samples enough, the allowance leaves few of them above it. -/
theorem above_allowance {ts : Int} (hmany : MIN_SAMPLES ≤ w.samples.length)
    (huncut : quantile w.samples ≤ w.ceilingNs) :
    1000 * w.samples.countP (fun x => decide ((w.advance ts).latenessNs < x))
      ≤ w.samples.length + 500 := by
  have hsorted : (w.samples.insertionSort (· ≤ ·)).length = w.samples.length :=
    List.length_insertionSort _ _
  have hallowance : quantile w.samples ≤ (w.advance ts).latenessNs := by
    change quantile w.samples ≤ w.estimate
    have hestimate : w.estimate = clamp (quantile w.samples) w.floorNs w.ceilingNs := by
      simp only [estimate, if_neg (Nat.not_lt.mpr hmany), hsorted, quantile]
    rw [hestimate]
    unfold clamp
    split
    · omega
    · rw [if_neg (Int.not_lt.mpr huncut)]
  have hindex : quantileIndex w.samples.length < w.samples.length := by
    unfold MIN_SAMPLES at hmany
    unfold quantileIndex
    omega
  have habove := (countP_above_anti w.samples hallowance).trans
    (countP_above_orderStat w.samples hindex 0)
  -- the index is no more than half below its exact place
  have hround : 1000 * (w.samples.length - 1 - quantileIndex w.samples.length)
      ≤ w.samples.length + 500 := by
    unfold quantileIndex
    omega
  exact (Nat.mul_le_mul_left 1000 habove).trans hround

/-- **A watermark over its whole run.** What it has published never goes back and was
drawn with the allowance of an advance; the allowance keeps its bounds; every
contradiction is counted; and an advance that has samples enough, and whose quantile
is not cut at the ceiling, leaves at most a thousandth of them, and the half lost in
rounding, above its allowance. -/
theorem calls_of_new (floorNs ceilingNs : Int) (cs : List Call)
    (hts : ∀ ts ∈ observed cs, FitsI64 ts) (hclose : Close i64Min (observed cs)) :
    (∀ ds, (calls (new floorNs ceilingNs) cs).publishedNs
      ≤ (calls (new floorNs ceilingNs) (cs ++ ds)).publishedNs) ∧
    (floorNs ≤ (calls (new floorNs ceilingNs) cs).latenessNs ∧
      (calls (new floorNs ceilingNs) cs).latenessNs ≤ max ceilingNs floorNs) ∧
    ((calls (new floorNs ceilingNs) cs).publishedNs ≠ i64Min →
      ∃ before ts after, cs = before ++ .advance ts :: after ∧
        (calls (new floorNs ceilingNs) cs).publishedNs = saturatingSub ts
          (calls (new floorNs ceilingNs) (before ++ [.advance ts])).latenessNs) ∧
    (calls (new floorNs ceilingNs) cs).violations
      = (List.range cs.length).countP (fun k => contradicts (new floorNs ceilingNs) cs k) ∧
    ∀ ts, MIN_SAMPLES ≤ (recent cs).length → quantile (recent cs) ≤ max ceilingNs floorNs →
      1000 * (recent cs).countP (fun x => decide
          ((calls (new floorNs ceilingNs) (cs ++ [.advance ts])).latenessNs < x))
        ≤ (recent cs).length + 500 := by
  have hbounds : (new floorNs ceilingNs).floorNs ≤ (new floorNs ceilingNs).ceilingNs :=
    le_max_right ..
  refine ⟨fun ds => ?_, ?_, fun hpub => ?_, ?_, fun ts hmany huncut => ?_⟩
  · rw [calls_append]
    exact calls_publishedNs _ ds
  · exact calls_latenessNs hbounds ⟨le_max_right .., le_refl _⟩
  · exact (calls_publishes (new floorNs ceilingNs) cs).resolve_left hpub
  · rw [calls_violations fun ts hmem => (hts ts hmem).1]
    exact Nat.zero_add _
  · have hsamples : (calls (new floorNs ceilingNs) cs).samples = recent cs :=
      calls_samples (Nat.zero_le _) hclose
    have hceiling : (calls (new floorNs ceilingNs) cs).ceilingNs = max ceilingNs floorNs :=
      (calls_bounds _ cs).2
    rw [calls_snoc, ← hsamples]
    exact above_allowance (hsamples ▸ hmany) (by rwa [hsamples, hceiling])

/-- Three hundred lines, each later than the one before. -/
def aged : List Call := (List.range 300).map fun (k : Nat) => .observe (1000 - k)

theorem calls_of_new_aged :
    (recent aged).length = 299 ∧ 1000 * (recent aged).countP (fun x => decide
        ((calls (new 0 1000) (aged ++ [.advance 1000])).latenessNs < x)) ≤ 799 := by
  have hlen : (recent aged).length = 299 := by decide +kernel
  have hall := calls_of_new 0 1000 aged (by decide +kernel) (by decide +kernel)
  have habove := hall.2.2.2.2 1000 (by rw [hlen]; decide) (by decide +kernel)
  exact ⟨hlen, by rwa [hlen] at habove⟩

end Tributary.Watermark
