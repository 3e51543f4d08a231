import Mathlib
import Tributary.Config.Hup
import Tributary.FileSource.Ledger

/-!
# A line and the wall clock

A source that names a timestamp field stamps a line from the line. Without one the line is
stamped on read: the clock is then the source timestamp, which the sample rules hash and the
stamper stamps. What becomes of the line is no matter of the clock only if it is settled
before that.
-/

namespace Tributary.FileSource

open Lp Map Stamp Transform

/-- The line maps to this record, whatever its timestamp. -/
def Maps (libs : Libs) (src : Source) (line : Text) (record : Record) : Prop :=
  (trimEol line).trim ≠ [] ∧ ∃ parsed fields,
    parseLine libs src.parser (trimEol line) = .ok parsed
    ∧ buildFields libs parsed src.fields = .ok fields
    ∧ record = recordOf libs src parsed fields

/-- The source names a timestamp field, or else what the line maps to is dropped by the
filter rules, or by the sample rules at every reading of the clock. A line that maps to
nothing is blank or refused. -/
def ClockFree (libs : Libs) (src : Source) (rules : Rules) (line : Text) : Prop :=
  src.timestamp.field.isSome = true ∨ ∀ record, Maps libs src line record →
    keeps libs record rules.filters = false ∨
      ∀ now, FitsI64 now → sampleKeeps libs record now rules.samples = false

section

variable {libs : Libs} {src : Source} {rules : Rules} {line : Text} {now now₁ now₂ : Int}
  {stamper : Stamper} {wm : Watermark} {record : Record}

/-! ## Where the clock is read -/

/-- A named field leaves nothing to the clock. -/
theorem mapLine_of_field (h : src.timestamp.field.isSome = true) :
    mapLine libs src line now₁ = mapLine libs src line now₂ := by
  obtain ⟨key, hkey⟩ := Option.isSome_iff_exists.mp h
  simp only [mapLine, lineTimestamp, hkey]

/-- Stamped on read: a line that maps does so at every reading, and has it for timestamp. -/
theorem mapLine_on_read (hfield : src.timestamp.field = none) {ts : Int} :
    mapLine libs src line now = .ok (record, ts) ↔ Maps libs src line record ∧ ts = now := by
  rw [mapLine_eq_ok_iff]
  constructor
  · rintro ⟨hblank, parsed, fields, hparse, hts, hbuild, hrecord⟩
    rw [lineTimestamp, hfield] at hts
    exact ⟨⟨hblank, parsed, fields, hparse, hbuild, hrecord⟩, (Except.ok.inj hts).symm⟩
  · rintro ⟨⟨hblank, parsed, fields, hparse, hbuild, hrecord⟩, rfl⟩
    exact ⟨hblank, parsed, fields, hparse, by rw [lineTimestamp, hfield], hbuild, hrecord⟩

/-- A line that does not map is refused the same way at every reading. -/
theorem mapLine_unmapped (hfield : src.timestamp.field = none)
    (h : ∀ record, ¬ Maps libs src line record) :
    mapLine libs src line now₁ = mapLine libs src line now₂ := by
  by_cases hblank : (trimEol line).trim = []
  · rw [mapLine_eq_empty_iff.mpr hblank, mapLine_eq_empty_iff.mpr hblank]
  · simp only [mapLine, if_neg hblank, lineTimestamp, hfield]
    cases hparse : parseLine libs src.parser (trimEol line) with
    | error e => rfl
    | ok parsed =>
        cases hbuild : buildFields libs parsed src.fields with
        | error e => simp only [bind, Except.bind, buildRecord, hbuild]
        | ok fields => exact absurd ⟨hblank, parsed, fields, hparse, hbuild, rfl⟩ (h _)

/-! ## What is settled before the stamp -/

/-- What `build` makes of a line that maps to a record of this timestamp. -/
theorem build_of_mapLine {ts : Int} (h : mapLine libs src line now = .ok (record, ts)) :
    build libs src rules line now stamper wm =
      if keeps libs record rules.filters = false then (.ok (.dropped .filter), stamper, wm)
      else if sampleKeeps libs record ts rules.samples = false then
        (.ok (.dropped .sample), stamper, wm)
      else
        ((match (stamper.stamp ts).1 with
          | .error e => .error e.message
          | .ok tsNs => .ok (.ready ((applyRedacts libs record rules.redacts).withTs tsNs) ts)),
          (stamper.stamp ts).2, wm.observe ts) := by
  simp only [build, h]
  cases hkeeps : keeps libs record rules.filters with
  | false => rfl
  | true =>
      cases hsample : sampleKeeps libs record ts rules.samples with
      | false => rfl
      | true => rcases hstamp : stamper.stamp ts with ⟨_ | _, stamper'⟩ <;> rfl

/-- **A clock-free line** is built the same at every reading, and leaves the same stamper and
watermark behind. -/
theorem build_of_clockFree (h : ClockFree libs src rules line) (hnow₁ : FitsI64 now₁)
    (hnow₂ : FitsI64 now₂) :
    build libs src rules line now₁ stamper wm = build libs src rules line now₂ stamper wm := by
  have of_mapLine (hmap : mapLine libs src line now₁ = mapLine libs src line now₂) :
      build libs src rules line now₁ stamper wm = build libs src rules line now₂ stamper wm := by
    rw [build, build, hmap]
  cases hfield : src.timestamp.field with
  | some key => exact of_mapLine (mapLine_of_field (by rw [hfield]; rfl))
  | none =>
      have hdropped := h.resolve_left (by rw [hfield]; decide)
      by_cases hmaps : ∃ record, Maps libs src line record
      · obtain ⟨record, hmaps⟩ := hmaps
        rw [build_of_mapLine ((mapLine_on_read hfield).mpr ⟨hmaps, rfl⟩),
          build_of_mapLine ((mapLine_on_read hfield).mpr ⟨hmaps, rfl⟩)]
        rcases hdropped record hmaps with hfilter | hsample
        · rw [if_pos hfilter, if_pos hfilter]
        · rw [if_pos (hsample now₁ hnow₁), if_pos (hsample now₂ hnow₂)]
      · exact of_mapLine (mapLine_unmapped hfield (not_exists.mp hmaps))

/-! ## What the stamp tells of the clock -/

/-- A refusal names the timestamp it refuses. -/
theorem stampError_message_injective {t ts₁ ts₂ : Int}
    (h : (StampError.exhausted t ts₁).message = (StampError.exhausted t ts₂).message) :
    ts₁ = ts₂ := by
  have hchars := congrArg String.toList h
  simp only [StampError.message, String.toList_append, List.append_cancel_right_eq,
    List.append_cancel_left_eq] at hchars
  exact Int.repr_injective (String.toList_injective hchars)

theorem stamp_error {ts : Int} {e : StampError} (h : (stamper.stamp ts).1 = .error e) :
    e = .exhausted stamper.tickNs ts := by
  rw [Stamper.stamp] at h
  split at h
  · cases h
  · dsimp only at h
    split at h
    · split at h <;> cases h
      rfl
    · cases h

/-- Kept and sampled in at one reading, a line stamped on read is built otherwise at any
other one. -/
theorem build_ne_of_sampled (hfield : src.timestamp.field = none)
    (hmaps : Maps libs src line record) (hkeeps : keeps libs record rules.filters = true)
    (hsample : sampleKeeps libs record now₁ rules.samples = true) (hne : now₁ ≠ now₂) :
    (build libs src rules line now₁ stamper wm).1 ≠
      (build libs src rules line now₂ stamper wm).1 := by
  have hin : ¬ keeps libs record rules.filters = false := by rw [hkeeps]; decide
  have hin₁ : ¬ sampleKeeps libs record now₁ rules.samples = false := by rw [hsample]; decide
  rw [build_of_mapLine ((mapLine_on_read hfield).mpr ⟨hmaps, rfl⟩),
    build_of_mapLine ((mapLine_on_read hfield).mpr ⟨hmaps, rfl⟩),
    if_neg hin, if_neg hin, if_neg hin₁]
  by_cases hin₂ : sampleKeeps libs record now₂ rules.samples = false
  · -- sampled out at the other reading
    rw [if_pos hin₂]
    cases (stamper.stamp now₁).1 with
    | error e => exact nofun
    | ok tsNs => exact fun h => nomatch Except.ok.inj h
  · rw [if_neg hin₂]
    dsimp only
    cases h₁ : (stamper.stamp now₁).1 with
    | error e₁ =>
        cases h₂ : (stamper.stamp now₂).1 with
        | error e₂ =>
            intro heq
            rw [stamp_error h₁, stamp_error h₂] at heq
            exact hne (stampError_message_injective (Except.error.inj heq))
        | ok tsNs₂ => exact nofun
    | ok tsNs₁ =>
        cases h₂ : (stamper.stamp now₂).1 with
        | error e₂ => exact nofun
        | ok tsNs₂ => exact fun h => hne (Built.ready.inj (Except.ok.inj h)).2

theorem exists_reading_ne (now : Int) : ∃ now', FitsI64 now' ∧ now ≠ now' := by
  by_cases h : now = 0
  · exact ⟨1, by decide, by omega⟩
  · exact ⟨0, by decide, h⟩

end

/-- **What is made of a line is no matter of the clock** exactly if the line is clock-free. -/
theorem build_clock_iff (libs : Libs) (src : Source) (rules : Rules) (line : Text)
    (stamper : Stamper) (wm : Watermark) :
    (∀ now₁ now₂, FitsI64 now₁ → FitsI64 now₂ →
      (build libs src rules line now₁ stamper wm).1 =
        (build libs src rules line now₂ stamper wm).1)
      ↔ ClockFree libs src rules line := by
  constructor
  · intro h
    cases hfield : src.timestamp.field with
    | some key => exact .inl (by rw [hfield]; rfl)
    | none =>
        refine .inr fun record hmaps => ?_
        cases hkeeps : keeps libs record rules.filters with
        | false => exact .inl rfl
        | true =>
            refine .inr fun now hnow => ?_
            by_contra hsample
            rw [Bool.not_eq_false] at hsample
            obtain ⟨now', hnow', hne⟩ := exists_reading_ne now
            exact build_ne_of_sampled hfield hmaps hkeeps hsample hne (h now now' hnow hnow')
  · intro h now₁ now₂ hnow₁ hnow₂
    exact congrArg Prod.fst (build_of_clockFree h hnow₁ hnow₂)

/-! ## A configuration that samples -/

/-- One line in two of the log, and no timestamp field. -/
def oneInTwo : Config.SourceTable :=
  { Config.tailOf "a" none with sample := [{ field := none, equals := none, rate := 2 }] }

/-- What the first line of the log is made of at this reading of the clock. -/
def firstUp (now : Int) : Except String Built :=
  (build asciiLibs (oneInTwo.source .millis)
    { filters := oneInTwo.filter, samples := oneInTwo.sample, redacts := oneInTwo.redact }
    "up".toList now (Stamper.new .millis) (Watermark.new 0 0)).1

/-- The record of that line. -/
def upAt (tsNs : Int) : Record :=
  { table := "logs".toList, tags := [("stream".toList, "a".toList)]
    fields := [("message".toList, .str "up".toList)], tsNs }

/-- The configuration loads. Read at one time its line is shipped, a millisecond later it is
sampled out, and another one later it is shipped under another key. -/
theorem a_replayed_line_changes :
    Config.load Config.bareHost.toPlatform (Config.fileOf [oneInTwo])
        = .ok (Config.fileOf [oneInTwo])
      ∧ firstUp 0 = .ok (.ready (upAt 0) 0)
      ∧ firstUp 1000000 = .ok (.dropped .sample)
      ∧ firstUp 2000000 = .ok (.ready (upAt 2000000) 2000000) := by
  refine ⟨by decide +kernel, rfl, rfl, rfl⟩

end Tributary.FileSource
