import Tributary.Config.Reload

/-!
# A reload in place

`apply_reload` writes the values of a running tail one after another while it writes its
report. The one step that can fail, compiling the redact patterns, comes before the first
write.
-/

namespace Tributary.Config.Reload

open Map Transform

/-! ## The writes, in their order -/

/-- The values of a tail in the middle of a reload, and the report so far. -/
structure Live where
  values : Reloadable
  report : ReloadReport

namespace Live

/-- `report.restart_required.push`, if there is a reason. -/
def requireIf (l : Live) (reason : Bool) (e : Restart) : Live :=
  { l with report :=
    { l.report with restartRequired := l.report.restartRequired ++ entry reason e } }

/-- `report.applied.push`. -/
def push (l : Live) (e : Applied) : Live :=
  { l with report := { l.report with applied := l.report.applied ++ [e] } }

/-- A knob of `[output]`: it is written and reported if the value is another. -/
def knob (l : Live) (get : Reloadable → Nat) (set : Reloadable → Nat → Reloadable) (new : Nat)
    (e : Applied) : Live :=
  if new ≠ get l.values then { l with values := set l.values new }.push e else l

/-- The schema, which is only reported. -/
def requireSchema (l : Live) (source ns : SourceTable) : Live :=
  l.requireIf (ns.table ≠ source.table) .table
    |>.requireIf (ns.tags ≠ source.tags) .tags
    |>.requireIf (ns.tagsStatic ≠ source.tagsStatic) .tagsStatic
    |>.requireIf (ns.fields ≠ source.fields) .fields
    |>.requireIf (ns.timestamp ≠ source.timestamp) .timestamp
    |>.requireIf (ns.visibility ≠ source.visibility) .visibility
    |>.requireIf (ns.multiline ≠ source.multiline) .multiline

/-- What is taken at boot, which is only reported. -/
def requireOutput (l : Live) (current new : Output) : Live :=
  l.requireIf (new.url ≠ current.url) .url
    |>.requireIf (new.tls ≠ current.tls) .tls
    |>.requireIf (new.queueMaxBytes ≠ current.queueMaxBytes) .queueMaxBytes
    |>.requireIf (new.database ≠ current.database) .database
    |>.requireIf (new.watermarkFloorMs ≠ current.watermarkFloorMs
      ∨ new.watermarkCeilingMs ≠ current.watermarkCeilingMs) .lateness

/-- The transform rules, one list after the other. -/
def swap (l : Live) (ns : SourceTable) (redacts : List Redact) : Live :=
  let l := { l with values := { l.values with filters := ns.filter } }
  let l := { l with values := { l.values with samples := ns.sample } }
  let l := { l with values := { l.values with redacts } }
  l.push .transforms

/-- The half about the source; an error leaves it where it was. -/
def source (p : Platform) (l : Live) (source : SourceTable) (new : File) :
    Except Unit Unit × Live :=
  match named new source.name with
  | none => (.ok (), l.requireIf true .removed)
  | some ns =>
      if ¬ (ns.name = source.name ∧ ns.path = source.path ∧ ns.parser = source.parser) then
        (.ok (), l.requireIf true .identity)
      else
        match compileRedacts p ns.redact with
        | none => (.error (), l)
        | some redacts => (.ok (), (l.requireSchema source ns).swap ns redacts)

/-- The half about `[output]`. -/
def output (l : Live) (current new : Output) : Live :=
  l.knob Reloadable.batchLines (fun r n => { r with batchLines := n }) new.batchLines
      (.batchLines new.batchLines)
    |>.knob Reloadable.maxInflight (fun r n => { r with maxInflight := n }) new.maxInflight
      (.maxInflight new.maxInflight)
    |>.knob Reloadable.watermarkEvery (fun r n => { r with watermarkEvery := n })
      new.watermarkEverySecs (.watermarkEverySecs new.watermarkEverySecs)
    |>.knob Reloadable.rpoEvery (fun r n => { r with rpoEvery := n }) (rpoWait new.rpoReportSecs)
      (.rpoReportSecs new.rpoReportSecs)
    |>.requireOutput current new

end Live

/-- `apply_reload`, on the values it is handed: what it returns, and the values after it. -/
def applyInPlace (p : Platform) (source : SourceTable) (current new : File) (r : Reloadable) :
    Except Unit ReloadReport × Reloadable :=
  match Live.source p ⟨r, ⟨[], []⟩⟩ source new with
  | (.error e, l) => (.error e, l.values)
  | (.ok (), l) =>
      let l := l.output current.output new.output
      (.ok l.report, l.values)

/-! ## What the writes come to -/

variable {p : Platform} {source ns : SourceTable} {current new : File} {r r' : Reloadable}
  {report : ReloadReport} {l : Live}

/-- A knob has the new value, and is reported if it had another. -/
theorem knob_eq {get : Reloadable → Nat} {set : Reloadable → Nat → Reloadable} {n : Nat}
    {e : Applied} (hset : ∀ r, set r (get r) = r) :
    l.knob get set n e =
      { values := set l.values n
        report := { l.report with applied := l.report.applied ++ entry (n ≠ get l.values) e } } := by
  unfold Live.knob
  by_cases h : n = get l.values
  · rw [if_neg (not_not.mpr h), h, hset]
    simp [entry]
  · rw [if_pos h]
    simp [entry, h, Live.push]

theorem requireSchema_eq : l.requireSchema source ns =
    { l with report :=
      { l.report with restartRequired := l.report.restartRequired ++ frozen source ns } } := by
  simp [Live.requireSchema, Live.requireIf, frozen]

theorem requireOutput_eq {current new : Output} : l.requireOutput current new =
    { l with report :=
      { l.report with restartRequired := l.report.restartRequired ++ captured current new } } := by
  simp [Live.requireOutput, Live.requireIf, captured]

theorem output_eq {current new : Output} : l.output current new =
    { values := l.values.retune new
      report :=
        { applied := l.report.applied ++ retuned new l.values
          restartRequired := l.report.restartRequired ++ captured current new } } := by
  unfold Live.output
  rw [knob_eq fun _ => rfl, knob_eq fun _ => rfl, knob_eq fun _ => rfl, knob_eq fun _ => rfl,
    requireOutput_eq]
  simp [Reloadable.retune, retuned]

/-- **In place it is the reload that makes new values**, and an error leaves the values as
they were. -/
theorem applyInPlace_eq (p : Platform) (source : SourceTable) (current new : File)
    (r : Reloadable) :
    applyInPlace p source current new r =
      match applyReload p source current new r with
      | none => (.error (), r)
      | some (report, r') => (.ok report, r') := by
  unfold applyInPlace applyReload reloadSource Live.source
  cases hns : named new source.name with
  | none => simp [output_eq, Live.requireIf, entry]
  | some ns =>
      simp only [applySource]
      by_cases hsame : ns.name = source.name ∧ ns.path = source.path ∧ ns.parser = source.parser
      · rw [if_neg (not_not.mpr hsame), if_pos hsame]
        cases hred : compileRedacts p ns.redact with
        | none => rfl
        | some redacts => simp [output_eq, requireSchema_eq, Live.swap, Live.push]
      · rw [if_pos hsame, if_neg hsame]
        simp [output_eq, Live.requireIf, entry]

/-! ## The law -/

/-- The new file has the source with its path and its parser. -/
def SameSource (source : SourceTable) (new : File) (ns : SourceTable) : Prop :=
  named new source.name = some ns ∧ ns.path = source.path ∧ ns.parser = source.parser

/-- What an answer of `apply_reload` says of the values before it and after it. -/
structure AllOrNothing (source : SourceTable) (new : File) (r : Reloadable)
    (answer : Except Unit ReloadReport) (r' : Reloadable) : Prop where
  refused : (∃ e, answer = .error e) → r' = r
  transforms : ∀ report, answer = .ok report → ∀ ns, SameSource source new ns →
    r'.filters = ns.filter ∧ r'.samples = ns.sample ∧ r'.redacts = ns.redact
  /-- another source, or none: that is reported, and the rules stay -/
  other : ∀ report, answer = .ok report → (¬ ∃ ns, SameSource source new ns) →
    r'.filters = r.filters ∧ r'.samples = r.samples ∧ r'.redacts = r.redacts ∧
      if named new source.name = none then .removed ∈ report.restartRequired
      else .identity ∈ report.restartRequired
  knobs : ∀ report, answer = .ok report →
    r'.batchLines = new.output.batchLines ∧ r'.maxInflight = new.output.maxInflight ∧
      r'.watermarkEvery = new.output.watermarkEverySecs ∧
        r'.rpoEvery = rpoWait new.output.rpoReportSecs
  /-- a knob is named with its new value, exactly when it had another -/
  named : ∀ report, answer = .ok report → ∀ n,
    (.batchLines n ∈ report.applied ↔ n = new.output.batchLines ∧ r'.batchLines ≠ r.batchLines) ∧
    (.maxInflight n ∈ report.applied
      ↔ n = new.output.maxInflight ∧ r'.maxInflight ≠ r.maxInflight) ∧
    (.watermarkEverySecs n ∈ report.applied
      ↔ n = new.output.watermarkEverySecs ∧ r'.watermarkEvery ≠ r.watermarkEvery) ∧
    (.rpoReportSecs n ∈ report.applied
      ↔ n = new.output.rpoReportSecs ∧ r'.rpoEvery ≠ r.rpoEvery)

/-- The half about the source names no knob, touches none, and compiles the patterns before
it swaps. -/
theorem reloadSource_spec (h : reloadSource p source new r = some (report, r')) :
    (∀ e ∈ report.applied, e = .transforms) ∧ r'.batchLines = r.batchLines ∧
      r'.maxInflight = r.maxInflight ∧ r'.watermarkEvery = r.watermarkEvery ∧
      r'.rpoEvery = r.rpoEvery ∧
      (∀ ns, SameSource source new ns →
        r'.filters = ns.filter ∧ r'.samples = ns.sample ∧ r'.redacts = ns.redact) ∧
      ((¬ ∃ ns, SameSource source new ns) →
        r'.filters = r.filters ∧ r'.samples = r.samples ∧ r'.redacts = r.redacts ∧
          if named new source.name = none then .removed ∈ report.restartRequired
          else .identity ∈ report.restartRequired) := by
  unfold reloadSource at h
  cases hns : named new source.name with
  | none =>
      rw [hns] at h
      cases h
      refine ⟨by simp, rfl, rfl, rfl, rfl, fun ns hs => ?_, fun _ => ⟨rfl, rfl, rfl, ?_⟩⟩
      · rw [SameSource, hns] at hs
        cases hs.1
      · rw [if_pos rfl]
        exact List.mem_singleton_self _
  | some ns =>
      have hname : ns.name = source.name := by simpa using List.find?_some hns
      rw [hns] at h
      simp only [applySource] at h
      by_cases hsame : ns.name = source.name ∧ ns.path = source.path ∧ ns.parser = source.parser
      · rw [if_pos hsame] at h
        unfold compileRedacts at h
        split at h
        · cases h
          refine ⟨by simp, rfl, rfl, rfl, rfl, fun ns' hs => ?_, fun hno => ?_⟩
          · obtain rfl := Option.some.inj (hns.symm.trans hs.1)
            exact ⟨rfl, rfl, rfl⟩
          · exact absurd ⟨ns, hns, hsame.2⟩ hno
        · cases h
      · rw [if_neg hsame] at h
        cases h
        refine ⟨by simp, rfl, rfl, rfl, rfl, fun ns' hs => ?_, fun _ => ⟨rfl, rfl, rfl, ?_⟩⟩
        · obtain rfl := Option.some.inj (hns.symm.trans hs.1)
          exact absurd ⟨hname, hs.2⟩ hsame
        · rw [if_neg (Option.some_ne_none _)]
          exact List.mem_singleton_self _

/-- **`apply_reload` is all or nothing**, for every tail and every new file. -/
theorem applyInPlace_allOrNothing (p : Platform) (source : SourceTable) (current new : File)
    (r : Reloadable) :
    AllOrNothing source new r (applyInPlace p source current new r).1
      (applyInPlace p source current new r).2 := by
  rw [applyInPlace_eq]
  unfold applyReload
  cases hsource : reloadSource p source new r with
  | none =>
      exact ⟨fun _ => rfl, fun _ => nofun, fun _ => nofun, fun _ => nofun, fun _ => nofun⟩
  | some made =>
      obtain ⟨made, r₁⟩ := made
      obtain ⟨happlied, hlines, hslots, hwatermark, hrpo, hsame, hother⟩ :=
        reloadSource_spec hsource
      constructor
      case refused => exact fun ⟨e, he⟩ => nomatch he
      case transforms =>
        rintro report ⟨⟩ ns hns
        exact hsame ns hns
      case other =>
        rintro report ⟨⟩ hno
        obtain ⟨hf, hs, hr, hreport⟩ := hother hno
        refine ⟨hf, hs, hr, ?_⟩
        split
        · rename_i hnone
          rw [if_pos hnone] at hreport
          exact List.mem_append_left _ hreport
        · rename_i hsome
          rw [if_neg hsome] at hreport
          exact List.mem_append_left _ hreport
      case knobs =>
        rintro report ⟨⟩
        exact ⟨rfl, rfl, rfl, rfl⟩
      case named =>
        rintro report ⟨⟩ n
        have hnot : ∀ e, e ≠ Applied.transforms → e ∉ made.applied :=
          fun e he hmem => he (happlied e hmem)
        simp [retuned, mem_entry, hnot, Reloadable.retune, hlines, hslots, hwatermark, hrpo,
          and_comm]

end Tributary.Config.Reload
