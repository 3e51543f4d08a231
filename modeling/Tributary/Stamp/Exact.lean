import Tributary.Otlp.Unique
import Tributary.Stamp.Order
import Tributary.Stamp.Places
import Tributary.Watermark.Allowance

/-!
# Exact timestamps

A timestamp text and the time of a pushed record stand for a number of nanoseconds;
what `i64` makes of them, and where the arithmetic on accepted timestamps leaves it.
-/

namespace Tributary

open Lib Map Otlp

theorem wrap64_eq_self_iff {x : Int} : wrap64 x = x ↔ FitsI64 x := by
  constructor
  · intro h
    rw [← h]
    have hlow := Int.le_bmod (x := x) (m := 18446744073709551616) (by decide)
    have hhigh := Int.bmod_lt (x := x) (m := 18446744073709551616) (by decide)
    simp only [FitsI64, i64Min, i64Max, wrap64]
    omega
  · exact wrap64_of_fits

namespace Stamp

/-! ## What a timestamp stands for -/

section

variable (libs : Libs)

/-- The nanoseconds a text stands for in a format, as an unbounded number. -/
def meant (raw format : Text) : Option Int :=
  if format = "unix_s".toList then (Text.parseI64 raw.trim).map (· * 1000000000)
  else if format = "unix_ms".toList then (Text.parseI64 raw.trim).map (· * 1000000)
  else if format = "unix_us".toList then (Text.parseI64 raw.trim).map (· * 1000)
  else if format = "unix_ns".toList then (Text.parseI64 raw.trim).map (· * 1)
  else if format = "rfc3339".toList then (libs.parseRfc3339 raw.trim).toOption
  else none

/-- Exactly that value, or refused as a timestamp. -/
def Faithful (exact : Option Int) : Except MapError Int → Prop
  | .ok v => exact = some v
  | .error (.badTimestamp _) => True
  | .error _ => False

end

/-- The time a pushed record was sent with. -/
def sent (lr : LogRecord) : Option Int :=
  if lr.timeUnixNano ≠ 0 then some lr.timeUnixNano
  else if lr.observedTimeUnixNano ≠ 0 then some lr.observedTimeUnixNano
  else none

/-- The record is refused when it is mapped. -/
def Refused (libs : Libs) (src : Source) (parsed : List (Text × Json)) : Prop :=
  ∃ e, buildFields libs parsed src.fields = .error e

/-! ## The arithmetic behind it -/

/-- The subtraction of this observation stays within `i64`. -/
def ObserveFits (w : Watermark) (ts : Int) : Prop :=
  w.maxTsSeen ≠ i64Min → FitsI64 (w.maxTsSeen - ts)

def ObservesFit : Watermark → List Int → Prop
  | _, [] => True
  | w, ts :: rest => ObserveFits w ts ∧ ObservesFit (w.observe ts) rest

/-- The tick of the timestamp starts within `i64`, and so does its place in it. -/
def Room (s₀ : Stamper) (earlier : List Int) (ts : Int) : Prop :=
  FitsI64 (ts - ts % s₀.tickNs) ∧
    (s₀.place (Stamper.tickOf s₀.tickNs ts) earlier < s₀.tickNs →
      FitsI64 (Stamper.tickOf s₀.tickNs ts + s₀.place (Stamper.tickOf s₀.tickNs ts) earlier))

instance (s₀ : Stamper) (earlier : List Int) (ts : Int) : Decidable (Room s₀ earlier ts) :=
  inferInstanceAs (Decidable (_ ∧ (_ → _)))

/-! ## One value -/

section

variable {libs : Libs}

theorem faithful_scaled {o : Option Int} {unit : Int} {e : String} :
    Faithful (o.map (· * unit)) (match o with
      | some v => .ok (wrap64 (v * unit))
      | none => .error (.badTimestamp e)) ↔ ∀ v ∈ o.map (· * unit), FitsI64 v := by
  cases o with
  | none => simp [Faithful]
  | some v =>
      simp only [Faithful, Option.map_some, Option.mem_def, Option.some.injEq, forall_eq']
      rw [eq_comm]
      exact wrap64_eq_self_iff

/-- A text gives its value exactly if the value is an `i64`. -/
theorem parseTimestamp_faithful_iff (raw format : Text) :
    Faithful (meant libs raw format) (parseTimestamp libs raw format)
      ↔ ∀ v ∈ meant libs raw format, FitsI64 v := by
  unfold meant parseTimestamp
  split
  · exact faithful_scaled
  split
  · exact faithful_scaled
  split
  · exact faithful_scaled
  split
  · exact faithful_scaled
  split
  · cases hparse : libs.parseRfc3339 raw.trim with
    | error e => simp [Faithful, Except.toOption]
    | ok v =>
        simp only [Faithful, Except.toOption, Option.mem_def, Option.some.injEq, forall_eq']
        rw [eq_comm]
        exact wrap64_eq_self_iff
  · simp [Faithful]

theorem recordTsNs_iff {lr : LogRecord} {now v : Int} (hv : v ∈ sent lr) :
    recordTsNs lr now = v ↔ v ≤ i64Max := by
  have hwrap : recordTsNs lr now = wrap64 v ∧ 0 ≤ v := by
    unfold sent at hv
    unfold recordTsNs
    split at hv
    · rename_i htime
      obtain rfl := Option.some.inj hv
      exact ⟨if_pos htime, Int.natCast_nonneg _⟩
    · rename_i htime
      split at hv
      · rename_i hobserved
        obtain rfl := Option.some.inj hv
        exact ⟨by rw [if_neg htime, if_pos hobserved], Int.natCast_nonneg _⟩
      · cases hv
  rw [hwrap.1, wrap64_eq_self_iff, FitsI64]
  have hlow : i64Min ≤ v := by
    have := hwrap.2
    simp only [i64Min]
    omega
  exact ⟨And.right, fun h => ⟨hlow, h⟩⟩

end

/-! ## A sequence -/

theorem observesFit_iff (w : Watermark) (tss : List Int) :
    ObservesFit w tss ↔ Watermark.Close w.maxTsSeen tss := by
  induction tss generalizing w with
  | nil => exact Iff.rfl
  | cons ts rest ih => exact and_congr Iff.rfl (ih (w.observe ts))

namespace Stamper

variable {s₀ s : Stamper} {earlier : List Int}

/-- The counter of a tick is its place, or both are past the end. -/
theorem After.noOverflow_iff (h : After s₀ earlier s) (hs₀ : s₀.Wf) (ts : Int) :
    NoOverflow s ts ↔ Room s₀ earlier ts := by
  unfold NoOverflow Room
  rw [h.tickNs]
  refine and_congr_right fun htick => ?_
  by_cases hm : tickOf s₀.tickNs ts ∈ s.order
  · obtain ⟨c, hc, -⟩ := h.wf.get_some hm
    simp only [hc, Option.mem_def, Option.some.injEq, forall_eq']
    rcases h.counter _ c hc with rfl | ⟨hfull, hplace⟩
    · exact Iff.rfl
    · rw [h.tickNs] at hfull hplace
      exact iff_of_true (fun hlt => absurd hlt (Int.not_lt.mpr hfull))
        fun hlt => absurd hlt (Int.not_lt.mpr hplace)
  · have hclosed := place_closed hs₀ (h.order ▸ hm)
    have htickOf : tickOf s₀.tickNs ts = ts - ts % s₀.tickNs := wrap64_of_fits htick
    simp only [h.wf.get_none hm, hclosed, Option.mem_def, reduceCtorEq, false_imp_iff,
      implies_true, true_iff, Int.add_zero]
    exact fun _ => htickOf ▸ htick

theorem After.noOverflows_iff (h : After s₀ earlier s) (hs₀ : s₀.Wf) (hns : s₀.tickNs ≠ 1)
    (tss : List Int) : NoOverflows s tss ↔ ∀ pre ts post, tss = pre ++ ts :: post →
      Room s₀ ((pre.map (tickOf s₀.tickNs)).reverse ++ earlier) ts := by
  induction tss generalizing s earlier with
  | nil => simp [NoOverflows]
  | cons t rest ih =>
      have hrest := ih (h.step hs₀ hns t)
      rw [NoOverflows, h.noOverflow_iff hs₀, hrest]
      constructor
      · rintro ⟨hroom, hall⟩ pre ts post heq
        cases pre with
        | nil =>
            obtain ⟨rfl, -⟩ := List.cons.inj heq
            exact hroom
        | cons u pre =>
            obtain ⟨rfl, hrest⟩ := List.cons.inj heq
            simpa using hall pre ts post hrest
      · intro hall
        refine ⟨hall [] t rest rfl, fun pre ts post heq => ?_⟩
        simpa using hall (t :: pre) ts post (by rw [heq]; rfl)

/-- A source of full precision is stamped as it is. -/
theorem noOverflows_nanos (tss : List Int) (htss : ∀ ts ∈ tss, FitsI64 ts) :
    NoOverflows (new .nanos) tss := by
  induction tss with
  | nil => trivial
  | cons ts rest ih =>
      have hfits := htss ts (List.mem_cons_self ..)
      refine ⟨⟨by simpa [new, Resolution.tickNs] using hfits, by simp [new]⟩, ?_⟩
      rw [stamp_nanos rfl]
      exact ih fun u hu => htss u (List.mem_cons_of_mem _ hu)

end Stamper

/-- **Exact or refused, up to the range of `i64`.** A timestamp text gives its value
or is refused exactly if the value is an `i64`; a pushed record is read with the time
it was sent with, or refused, exactly if that time is one; and a sequence of accepted
timestamps is observed and stamped without leaving `i64` exactly if each is close to
the greatest before it and its tick has its start and its place within `i64`. -/
theorem timestamps_exact_iff (libs : Libs) :
    (∀ raw format, Faithful (meant libs raw format) (parseTimestamp libs raw format)
      ↔ ∀ v ∈ meant libs raw format, FitsI64 v) ∧
    (∀ src resource scope lr now,
      (∀ v ∈ sent lr, recordTsNs lr now = v ∨ Refused libs src (flatten resource scope lr))
        ↔ ∀ v ∈ sent lr, v ≤ i64Max ∨ Refused libs src (flatten resource scope lr)) ∧
    ∀ floorNs ceilingNs res tss, (∀ ts ∈ tss, FitsI64 ts) →
      (ObservesFit (Watermark.new floorNs ceilingNs) tss ∧
          Stamper.NoOverflows (Stamper.new res) tss ↔
        Watermark.Close i64Min tss ∧ (res = .nanos ∨ ∀ pre ts post, tss = pre ++ ts :: post →
          Room (Stamper.new res) (pre.map (Stamper.tickOf res.tickNs)).reverse ts)) := by
  refine ⟨parseTimestamp_faithful_iff, fun src resource scope lr now => ?_, ?_⟩
  · exact forall₂_congr fun v hv => or_congr_left (recordTsNs_iff hv)
  · intro floorNs ceilingNs res tss htss
    refine and_congr (observesFit_iff _ tss) ?_
    by_cases hres : res = .nanos
    · subst hres
      exact iff_of_true (Stamper.noOverflows_nanos tss htss) (.inl rfl)
    · have hns : (Stamper.new res).tickNs ≠ 1 := Stamper.tickNs_ne_one hres
      rw [(Stamper.After.refl (Stamper.Wf.new res)).noOverflows_iff (Stamper.Wf.new res) hns]
      simp only [hres, false_or, List.append_nil]
      exact Iff.rfl

/-- A second of this century, and two milliseconds in a row. -/
theorem timestamps_exact_iff_small :
    Faithful (some 1700000000000000000)
        (parseTimestamp plainLibs "1700000000".toList "unix_s".toList) ∧
      ObservesFit (Watermark.new 0 1000) [5, 3] ∧
        Stamper.NoOverflows (Stamper.new .millis) [5, 3] := by
  have hall := timestamps_exact_iff plainLibs
  have hmeant : meant plainLibs "1700000000".toList "unix_s".toList
      = some 1700000000000000000 := by decide +kernel
  have hparse := (hall.1 "1700000000".toList "unix_s".toList).mpr
    (by rw [hmeant]; simp [FitsI64, i64Min, i64Max])
  rw [hmeant] at hparse
  refine ⟨hparse, (hall.2.2 0 1000 .millis [5, 3] (by decide)).mpr ⟨by decide, .inr ?_⟩⟩
  intro pre ts post heq
  rcases pre with _ | ⟨a, _ | ⟨b, pre⟩⟩
  · obtain ⟨rfl, -⟩ := List.cons.inj heq
    decide +kernel
  · obtain ⟨hfirst, hrest⟩ := List.cons.inj heq
    obtain ⟨rfl, -⟩ := List.cons.inj hrest
    rw [← hfirst]
    decide +kernel
  · simp at heq

/-- A second past the year 2262 comes out negative, and so does a pushed time past it. -/
theorem timestamp_wraps :
    parseTimestamp plainLibs "9223372037".toList "unix_s".toList = .ok (-9223372036709551616) ∧
      ¬ Faithful (meant plainLibs "9223372037".toList "unix_s".toList)
        (parseTimestamp plainLibs "9223372037".toList "unix_s".toList) ∧
      wrap64 9223372036854775808 = i64Min := by
  have hparse : parseTimestamp plainLibs "9223372037".toList "unix_s".toList
      = .ok (-9223372036709551616) := by decide +kernel
  have hmeant : meant plainLibs "9223372037".toList "unix_s".toList
      = some 9223372037000000000 := by decide +kernel
  refine ⟨hparse, ?_, by decide⟩
  rw [hparse, hmeant]
  simp [Faithful]

end Stamp

end Tributary
