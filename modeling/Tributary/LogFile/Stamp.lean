import Mathlib.Tactic.Ring
import Tributary.Lib.Calendar
import Tributary.Lib.Decimal

/-!
# The stamp in a rotated file's name

`civil_from_days` computes a date in closed form: it counts years from March, so that the leap
day is the last of its year, and eras of 400 years.
-/

namespace Tributary.LogFile

open Lib Lib.Calendar

/-- Only the first sum can leave `i64`. -/
def civilFromDays (z : Int) : Date :=
  let z := z + 719468
  let era := z / 146097
  let doe := z % 146097
  let yoe := (doe - doe / 1460 + doe / 36524 - doe / 146096) / 365
  let y := yoe + era * 400
  let doy := doe - (365 * yoe + yoe / 4 - yoe / 100)
  let mp := (5 * doy + 2) / 153
  let d := doy - (153 * mp + 2) / 5 + 1
  let m := if mp < 10 then mp + 3 else mp - 9
  { year := if m ≤ 2 then y + 1 else y, month := m.toNat, day := d }

/-! ## The year of an era -/

/-- A day of an era, by its century, the cycle of four years, the year and the day. -/
structure Split (doe c q s doy : Int) : Prop where
  century : 0 ≤ c ∧ c ≤ 3
  cycle : 0 ≤ q ∧ q ≤ 24
  year : 0 ≤ s ∧ s ≤ 3
  day : 0 ≤ doy
  /-- the leap day ends a cycle, but not that of the century, unless it ends the era -/
  leap : doy ≤ 364 ∨ doy = 365 ∧ s = 3 ∧ (q ≠ 24 ∨ c = 3)
  sum : doe = 36524 * c + (1461 * q + 365 * s + doy)

variable {doe c q s doy : Int}

theorem exists_split (h : 0 ≤ doe) (h' : doe < 146097) :
    ∃ c q s doy, Split doe c q s doy := by
  obtain ⟨c, doc, hc, hdoc, hlast, rfl⟩ : ∃ c doc, (0 ≤ c ∧ c ≤ 3) ∧ 0 ≤ doc ∧
      (doc ≤ 36523 ∨ doc = 36524 ∧ c = 3) ∧ doe = 36524 * c + doc := by
    by_cases hend : doe = 146096
    · exact ⟨3, 36524, by decide, by decide, .inr ⟨rfl, rfl⟩, by omega⟩
    · exact ⟨doe / 36524, doe % 36524, by omega, by omega, .inl (by omega), by omega⟩
  have hq : 0 ≤ doc / 1461 ∧ doc / 1461 ≤ 24 := by omega
  have hsplit : doc = 1461 * (doc / 1461) + doc % 1461 := by omega
  have hdoq : 0 ≤ doc % 1461 ∧ doc % 1461 ≤ 1460 := by omega
  generalize doc / 1461 = q at hq hsplit
  generalize doc % 1461 = doq at hdoq hsplit
  by_cases hend : doq = 1460
  · exact ⟨c, q, 3, 365, hc, hq, by decide, by decide, .inr ⟨rfl, rfl, by omega⟩, by omega⟩
  · exact ⟨c, q, doq / 365, doq % 365, hc, hq, by omega, by omega, .inl (by omega), by omega⟩

/-- The centuries an era has behind it, whose last is a day longer. -/
theorem Split.centuries (h : Split doe c q s doy) : doe / 36524 - doe / 146096 = c := by
  obtain ⟨hc, hq, hs, hd, hleap, rfl⟩ := h
  have hlow : 0 ≤ 1461 * q + 365 * s + doy := by omega
  have hhigh : 1461 * q + 365 * s + doy ≤ 36523 ∨ 1461 * q + 365 * s + doy = 36524 ∧ c = 3 := by
    omega
  generalize 1461 * q + 365 * s + doy = doc at hlow hhigh
  rcases hhigh with hhigh | ⟨rfl, rfl⟩
  · have hcentury : (36524 * c + doc) / 36524 = c := by omega
    have hera : (36524 * c + doc) / 146096 = 0 := by omega
    omega
  · decide

/-- **The year of the era**, counted from March. -/
theorem Split.yoe_eq (h : Split doe c q s doy) :
    (doe - doe / 1460 + doe / 36524 - doe / 146096) / 365 = 100 * c + 4 * q + s := by
  have hcenturies := h.centuries
  obtain ⟨hc, hq, hs, hd, hleap, hdoe⟩ := h
  have hsum : doe - doe / 1460 + doe / 36524 - doe / 146096 = doe - doe / 1460 + c := by
    rw [← hcenturies]
    ring
  -- the leap days so far, of which the one to come is counted early
  have hcycles : doe / 1460 = 25 * c + q ∧ 24 * c + q + 365 * s + doy < 1460 ∨
      doe / 1460 = 25 * c + q + 1 ∧ 1460 ≤ 24 * c + q + 365 * s + doy := by
    clear hcenturies hsum
    omega
  rw [hsum]
  clear hsum hcenturies
  rcases hcycles with ⟨h, hlt⟩ | ⟨h, hle⟩
  · rw [h]
    omega
  · rw [h]
    omega

theorem Split.doy_eq (h : Split doe c q s doy) :
    doe - (365 * (100 * c + 4 * q + s) + (100 * c + 4 * q + s) / 4 - (100 * c + 4 * q + s) / 100)
      = doy := by
  obtain ⟨hc, hq, hs, hd, hleap, rfl⟩ := h
  have hfour : (100 * c + 4 * q + s) / 4 = 25 * c + q := by omega
  have hhundred : (100 * c + 4 * q + s) / 100 = c := by omega
  rw [hfour, hhundred]
  ring

/-- The first of March of a year, by its era. -/
theorem Split.march (h : Split doe c q s doy) (era : Int) :
    yearStart (100 * c + 4 * q + s + era * 400 + 1) - 306 + doy = era * 146097 + doe - 719468 := by
  obtain ⟨hc, hq, hs, hd, hleap, rfl⟩ := h
  have hfour : (100 * c + 4 * q + s + era * 400) / 4 = 25 * c + q + era * 100 := by omega
  have hhundred : (100 * c + 4 * q + s + era * 400) / 100 = c + era * 4 := by omega
  have hera : (100 * c + 4 * q + s + era * 400) / 400 = era := by omega
  rw [yearStart, Int.add_sub_cancel, hfour, hhundred, hera]
  ring

/-- The leap day is a day of the year that follows. -/
theorem Split.leap_day (h : Split doe c q s 365) (era : Int) :
    IsLeap (100 * c + 4 * q + s + era * 400 + 1) := by
  obtain ⟨hc, hq, hs, -, hleap, -⟩ := h
  unfold IsLeap
  omega

/-! ## The month -/

/-- The months from March on begin where the closed form says, up to the end of the year. -/
theorem march_month (y : Int) {k : Nat} (h : k < 10) :
    monthStart y (k + 3) = monthStart y 3 + (153 * k + 2) / 5 ∧
      monthLength y (k + 3) = (153 * (k + 1) + 2) / 5 - (153 * k + 2) / 5 := by
  interval_cases k <;> simp [monthStart, monthLength, Int.add_assoc]

/-- The date of a day of the year that begins in March of `y`. -/
def marchDate (y doy : Int) : Date :=
  let mp := (5 * doy + 2) / 153
  let d := doy - (153 * mp + 2) / 5 + 1
  let m := if mp < 10 then mp + 3 else mp - 9
  { year := if m ≤ 2 then y + 1 else y, month := m.toNat, day := d }

theorem marchDate_spec {y doy : Int} (h : 0 ≤ doy) (h' : doy ≤ 365)
    (hleap : doy = 365 → IsLeap (y + 1)) :
    (marchDate y doy).Valid ∧ (marchDate y doy).number = yearStart (y + 1) - 306 + doy := by
  have hmarch := yearStart_march y
  rcases lt_or_ge doy 306 with hyear | hyear
  · -- up to December
    obtain ⟨k, hk⟩ : ∃ k : Nat, (5 * doy + 2) / 153 = k :=
      ⟨((5 * doy + 2) / 153).toNat, by omega⟩
    have hlt : k < 10 := by omega
    obtain ⟨hstart, hlength⟩ := march_month y hlt
    have hdate : marchDate y doy
        = { year := y, month := k + 3, day := doy - (153 * k + 2) / 5 + 1 } := by
      have hmarch : (k : Int) < 10 := by omega
      have hafter : ¬ (k : Int) + 3 ≤ 2 := by omega
      simp only [marchDate, hk, if_pos hmarch, if_neg hafter]
      rfl
    rw [hdate]
    refine ⟨⟨⟨by simp, by simp; omega⟩, ?_⟩, ?_⟩
    · rw [hlength]
      simp only
      omega
    · simp only [Date.number]
      omega
  · have hmonth : (5 * doy + 2) / 153 = 10 ∧ doy < 337 ∨ (5 * doy + 2) / 153 = 11 ∧ 337 ≤ doy := by
      omega
    rcases hmonth with ⟨hk, hlt⟩ | ⟨hk, hle⟩
    · have hdate : marchDate y doy = { year := y + 1, month := 1, day := doy - 305 } := by
        simp [marchDate, hk]
        omega
      rw [hdate]
      refine ⟨⟨by simp, ?_⟩, ?_⟩
      · simp only [monthLength]
        omega
      · simp only [Date.number, monthStart]
        omega
    · have hdate : marchDate y doy = { year := y + 1, month := 2, day := doy - 336 } := by
        simp [marchDate, hk]
        omega
      rw [hdate]
      refine ⟨⟨by simp, ?_⟩, ?_⟩
      · simp only [monthLength]
        by_cases hl : doy = 365
        · rw [if_pos (hleap hl)]
          omega
        · split <;> omega
      · simp only [Date.number, monthStart, monthLength]
        omega

/-- **The date is that of the day.** -/
theorem civilFromDays_spec (z : Int) :
    (civilFromDays z).Valid ∧ (civilFromDays z).number = z := by
  have hlow : 0 ≤ (z + 719468) % 146097 := by omega
  have hhigh : (z + 719468) % 146097 < 146097 := by omega
  obtain ⟨c, q, s, doy, h⟩ := exists_split hlow hhigh
  have hdate : civilFromDays z
      = marchDate (100 * c + 4 * q + s + (z + 719468) / 146097 * 400) doy := by
    simp only [civilFromDays]
    rw [h.yoe_eq, h.doy_eq]
    rfl
  have hdoy : doy ≤ 365 := by
    have := h.leap
    omega
  obtain ⟨hvalid, hnumber⟩ := marchDate_spec
    (y := 100 * c + 4 * q + s + (z + 719468) / 146097 * 400) h.day hdoy
    (by rintro rfl; exact h.leap_day _)
  rw [hdate]
  refine ⟨hvalid, ?_⟩
  rw [hnumber, h.march]
  omega

/-! ## The stamp -/

/-- `%Y%m%d-%H%M%S`, as character codes. -/
def stampOf (date : Date) (sod : Int) : List Nat :=
  Decimal.zeroPad 4 date.year.toNat ++ (Decimal.zeroPad 2 date.month
    ++ (Decimal.zeroPad 2 date.day.toNat ++ ([45] ++ (Decimal.zeroPad 2 (sod / 3600).toNat
      ++ (Decimal.zeroPad 2 (sod % 3600 / 60).toNat
        ++ Decimal.zeroPad 2 (sod % 60).toNat)))))

/-- The whole seconds since the epoch of a time in nanoseconds; an earlier time is the epoch. -/
def asSecs (t : Int) : Int := if t < 0 then 0 else t / 1000000000

/-- `stamp_utc`. -/
def stampUtc (t : Int) : List Nat :=
  let secs := asSecs t
  let days := secs / 86400
  let sod := secs % 86400
  stampOf (civilFromDays days) sod

/-- A date from the epoch on, and a second of the day. -/
structure Stampable (date : Date) (sod : Int) : Prop where
  valid : date.Valid
  year : 1970 ≤ date.year
  sod : 0 ≤ sod ∧ sod < 86400

theorem Stampable.day_le {d : Date} {i : Int} (h : Stampable d i) : d.day ≤ 31 := by
  refine h.valid.day.2.trans ?_
  unfold monthLength
  split <;> try decide
  split <;> decide

/-- The numbers of a stamp behind its year have two digits. -/
theorem Stampable.two_digits {d : Date} {i : Int} (h : Stampable d i) :
    d.month < 10 ^ 2 ∧ d.day.toNat < 10 ^ 2 ∧ (i / 3600).toNat < 10 ^ 2 ∧
      (i % 3600 / 60).toNat < 10 ^ 2 ∧ (i % 60).toNat < 10 ^ 2 := by
  have := h.valid.month
  have := h.day_le
  have := h.sod
  omega

/-- A stamp says its date and time. -/
theorem stampOf_inj {d e : Date} {i j : Int} (hd : Stampable d i) (he : Stampable e j)
    (h : stampOf d i = stampOf e j) : d = e ∧ i = j := by
  obtain ⟨hmonth, hday, hhour, hminute, hsecond⟩ := hd.two_digits
  obtain ⟨hmonth', hday', hhour', hminute', hsecond'⟩ := he.two_digits
  unfold stampOf at h
  -- what follows the year has one length, however many digits the year has
  obtain ⟨h1, h⟩ := List.append_inj' h (by
    simp only [List.length_append, Decimal.length_zeroPad, *])
  obtain ⟨h2, h⟩ := Decimal.zeroPad_append_inj hmonth hmonth' h
  obtain ⟨h3, h⟩ := Decimal.zeroPad_append_inj hday hday' h
  obtain ⟨h4, h⟩ := Decimal.zeroPad_append_inj hhour hhour' (List.append_cancel_left h)
  obtain ⟨h5, h⟩ := Decimal.zeroPad_append_inj hminute hminute' h
  have h6 := Decimal.zeroPad_inj h
  have h1 := Decimal.zeroPad_inj h1
  have hyear := hd.year
  have hyear' := he.year
  have hdays := hd.valid.day
  have hdays' := he.valid.day
  have hsod := hd.sod
  have hsod' := he.sod
  obtain ⟨y, m, a⟩ := d
  obtain ⟨y', m', a'⟩ := e
  simp only [Date.mk.injEq] at *
  omega

/-- Dates and times of the day are written in their order, in years of four digits. -/
theorem stampOf_lt {d e : Date} {i j : Int} (hd : Stampable d i) (he : Stampable e j)
    (hlast : e.year ≤ 9999) (h : d.Before e ∨ d = e ∧ i < j) : stampOf d i < stampOf e j := by
  obtain ⟨hmonth, hday, hhour, hminute, hsecond⟩ := he.two_digits
  have hdays := hd.valid.day
  have hyear := hd.year
  have hsod := hd.sod
  unfold stampOf
  refine Decimal.zeroPad_append_lt (by omega) ?_
  rcases h with (h | ⟨h, h' | ⟨h', h''⟩⟩) | ⟨rfl, h⟩
  · exact .inl (by omega)
  · exact .inr ⟨by rw [h], Decimal.zeroPad_append_lt hmonth (.inl h')⟩
  · refine .inr ⟨by rw [h], Decimal.zeroPad_append_lt hmonth (.inr ⟨h', ?_⟩)⟩
    exact Decimal.zeroPad_append_lt hday (.inl (by omega))
  · refine .inr ⟨rfl, List.append_left_lt (List.append_left_lt (List.append_left_lt ?_))⟩
    have htime : i / 3600 < j / 3600 ∨ i / 3600 = j / 3600 ∧
        (i % 3600 / 60 < j % 3600 / 60 ∨ i % 3600 / 60 = j % 3600 / 60 ∧ i % 60 < j % 60) := by
      omega
    refine Decimal.zeroPad_append_lt hhour ?_
    rcases htime with hlt | ⟨hsame, hlt | ⟨hsame', hlt⟩⟩
    · exact .inl (by omega)
    · exact .inr ⟨by rw [hsame], Decimal.zeroPad_append_lt hminute (.inl (by omega))⟩
    · refine .inr ⟨by rw [hsame],
        Decimal.zeroPad_append_lt hminute (.inr ⟨by rw [hsame'], ?_⟩)⟩
      exact Decimal.zeroPad_lt hsecond (by omega)

theorem asSecs_nonneg (t : Int) : 0 ≤ asSecs t := by
  unfold asSecs
  split <;> omega

theorem asSecs_mono {t u : Int} (h : t ≤ u) : asSecs t ≤ asSecs u := by
  unfold asSecs
  split <;> split <;> omega

theorem stampable_civil (t : Int) :
    Stampable (civilFromDays (asSecs t / 86400)) (asSecs t % 86400) := by
  obtain ⟨hvalid, hnumber⟩ := civilFromDays_spec (asSecs t / 86400)
  have hsecs := asSecs_nonneg t
  refine ⟨hvalid, ?_, by omega⟩
  by_contra hlt
  have hmono := yearStart_mono (show _ + 1 ≤ (1970 : Int) from Int.not_le.mp hlt)
  have hend := hvalid.number_year.2
  rw [hnumber] at hend
  rw [yearStart_epoch] at hmono
  omega

/-- The times of one stamp are those of one second. -/
theorem asSecs_eq_of_stampUtc {t u : Int} (h : stampUtc t = stampUtc u) :
    asSecs t = asSecs u := by
  obtain ⟨hdate, hsod⟩ := stampOf_inj (stampable_civil t) (stampable_civil u) h
  have hday := congrArg Date.number hdate
  rw [(civilFromDays_spec _).2, (civilFromDays_spec _).2] at hday
  omega

/-- Before the year 10000. -/
def yearTenThousand : Int := 253402300800000000000

theorem year_le {t : Int} (h : t < yearTenThousand) :
    (civilFromDays (asSecs t / 86400)).year ≤ 9999 := by
  obtain ⟨hvalid, hnumber⟩ := civilFromDays_spec (asSecs t / 86400)
  have hsecs : asSecs t < 253402300800 := by
    unfold asSecs
    unfold yearTenThousand at h
    split <;> omega
  by_contra hlt
  have hmono := yearStart_mono (show (10000 : Int) ≤ _ from Int.not_le.mp hlt)
  have hstart := hvalid.number_year.1
  have hlast : yearStart 10000 = 2932897 := by decide
  rw [hnumber] at hstart
  rw [hlast] at hmono
  omega

/-- A later second has a greater stamp. -/
theorem stampUtc_lt {t u : Int} (hu : u < yearTenThousand) (h : asSecs t < asSecs u) :
    stampUtc t < stampUtc u := by
  refine stampOf_lt (stampable_civil t) (stampable_civil u) (year_le hu) ?_
  obtain ⟨hvalid, hnumber⟩ := civilFromDays_spec (asSecs t / 86400)
  obtain ⟨hvalid', hnumber'⟩ := civilFromDays_spec (asSecs u / 86400)
  rw [Date.before_iff hvalid hvalid', hnumber, hnumber']
  by_cases hday : asSecs t / 86400 = asSecs u / 86400
  · refine .inr ⟨by rw [hday], by omega⟩
  · exact .inl (by omega)

/-- The stamps compare as the seconds do. -/
theorem stampUtc_lt_iff {t u : Int} (ht : t < yearTenThousand) (hu : u < yearTenThousand) :
    stampUtc t < stampUtc u ↔ asSecs t < asSecs u := by
  refine ⟨fun h => ?_, stampUtc_lt hu⟩
  rcases lt_trichotomy (asSecs t) (asSecs u) with hlt | heq | hgt
  · exact hlt
  · rw [stampUtc, stampUtc, heq] at h
    exact absurd h (lt_irrefl _)
  · exact absurd h (List.lt_asymm (stampUtc_lt ht hgt))

theorem stampUtc_eq_iff {t u : Int} : stampUtc t = stampUtc u ↔ asSecs t = asSecs u := by
  refine ⟨asSecs_eq_of_stampUtc, fun h => ?_⟩
  rw [stampUtc, stampUtc, h]

/-- **`civil_from_days` is the calendar, and the stamps are in the order of time.** -/
theorem stamps_keep_time :
    (∀ z, (civilFromDays z).Valid ∧ (civilFromDays z).number = z ∧
      ∀ d : Date, d.Valid → d.number = z → d = civilFromDays z) ∧
    (∀ z z', z < z' → (civilFromDays z).Before (civilFromDays z')) ∧
    (∀ t u, 0 ≤ t → t < yearTenThousand → 0 ≤ u → u < yearTenThousand →
      (stampUtc t < stampUtc u ↔ t / 1000000000 < u / 1000000000) ∧
        (stampUtc t = stampUtc u ↔ t / 1000000000 = u / 1000000000)) := by
  refine ⟨fun z => ?_, fun z z' h => ?_, fun t u ht ht' hu hu' => ?_⟩
  · obtain ⟨hvalid, hnumber⟩ := civilFromDays_spec z
    exact ⟨hvalid, hnumber, fun d hd hz => Date.number_inj hd hvalid (hz.trans hnumber.symm)⟩
  · obtain ⟨hvalid, hnumber⟩ := civilFromDays_spec z
    obtain ⟨hvalid', hnumber'⟩ := civilFromDays_spec z'
    rw [Date.before_iff hvalid hvalid', hnumber, hnumber']
    exact h
  · have hsecs : asSecs t = t / 1000000000 := if_neg (Int.not_lt.mpr ht)
    have hsecs' : asSecs u = u / 1000000000 := if_neg (Int.not_lt.mpr hu)
    rw [← hsecs, ← hsecs']
    exact ⟨stampUtc_lt_iff ht' hu', stampUtc_eq_iff⟩

theorem leap_day_stamped :
    civilFromDays 11016 = { year := 2000, month := 2, day := 29 } ∧
      stampUtc 951827696000000000 = "20000229-123456".toList.map Char.toNat ∧
      stampUtc 951827696999999999 < stampUtc 951827697000000000 :=
  ⟨by decide, by decide, ((stamps_keep_time.2.2 951827696999999999 951827697000000000 (by decide)
    (by decide) (by decide) (by decide)).1).mpr (by decide)⟩

end Tributary.LogFile
