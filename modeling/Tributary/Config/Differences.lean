import Tributary.Config.Hup
import Tributary.Config.Reload

/-!
# The differences of a reload

Which fields of a new file are in effect after SIGHUP, on every pipeline that reads
them, or else named in a report. The tails of single files notice and follow; what
`main` has built once, and the templates of glob sources, do not.
-/

namespace Tributary.Config.Reload

open Map Transform Glob Lib

/-! ## Applied or reported -/

inductive OutputField where
  | url
  | database
  | batchLines
  | gzip
  | tokenFile
  | queueMaxBytes
  | maxInflight
  | watermarkFloorMs
  | watermarkCeilingMs
  | watermarkTable
  | watermarkEverySecs
  | tls
  | rpoReportSecs

inductive SourceField where
  | path
  | parser
  | table
  | timestamp
  | tags
  | tagsStatic
  | fields
  | visibility
  | multiline
  | filter
  | sample
  | redact
  | kubernetes

/-- The entry that names the field. -/
def OutputField.entry : OutputField → Option Restart
  | .url => some .url
  | .database => some .database
  | .queueMaxBytes => some .queueMaxBytes
  | .watermarkFloorMs => some .lateness
  | .watermarkCeilingMs => some .lateness
  | .tls => some .tls
  | _ => none

def SourceField.entry : SourceField → Option Restart
  | .path => some .identity
  | .parser => some .identity
  | .table => some .table
  | .timestamp => some .timestamp
  | .tags => some .tags
  | .tagsStatic => some .tagsStatic
  | .fields => some .fields
  | .visibility => some .visibility
  | .multiline => some .multiline
  | _ => none

/-- The environment has a token, and `token_file` is not read. -/
def tokenInEnv (p : Platform) : Bool :=
  (p.env "TRIBUTARY_TOKEN".toList).any fun v => decide (v.trim ≠ [])

/-- The shipper works with the new value, as far as the field is one of its. -/
def Shipped (p : Platform) (boot new : Output) : OutputField → Prop
  | .url => boot.url = new.url
  | .database => boot.database = new.database
  | .gzip => boot.gzip = new.gzip
  | .tokenFile => tokenInEnv p = true ∨ boot.tokenFile = new.tokenFile
  | .tls => boot.tls = new.tls
  | _ => True

/-- So do the queues of the receiver and of the collector. -/
def Opened (boot new : Output) : OutputField → Prop
  | .queueMaxBytes => boot.queueMaxBytes = new.queueMaxBytes
  | _ => True

def refresh (o : Output) : Option Nat := o.tls.map Tls.refreshSecs

/-- So does a tail, with what it reads itself. -/
def Tail.Has (t : Tail) (new : Output) : OutputField → Prop
  | .batchLines => t.knobs.batchLines = new.batchLines
  | .queueMaxBytes => t.cfg.output.queueMaxBytes = new.queueMaxBytes
  | .maxInflight => t.knobs.maxInflight = new.maxInflight
  | .watermarkFloorMs => t.cfg.output.watermarkFloorMs = new.watermarkFloorMs
  | .watermarkCeilingMs => t.cfg.output.watermarkCeilingMs = new.watermarkCeilingMs
  | .watermarkTable => t.cfg.output.watermarkTable = new.watermarkTable
  | .watermarkEverySecs => t.knobs.watermarkEvery = new.watermarkEverySecs
  | .tls => refresh t.cfg.output = refresh new
  | .rpoReportSecs => t.knobs.rpoEvery = rpoWait new.rpoReportSecs
  | _ => True

attribute [grind =] Shipped Opened Tail.Has

/-- The tails of a task; those of a glob source are its children and the one it would
adopt next. -/
def Task.tails : Task → List Tail
  | .tail t => [t]
  | .glob cfg template children => Tail.start cfg template :: children.map Child.tail

/-- A receiver or a collector runs beside the tails. -/
def Agent.Pushes (a : Agent) : Prop := a.boot.otlp.isSome ∨ a.boot.metrics.isSome

/-- The new value of the field is in effect on all that read it. -/
def InEffect (p : Platform) (a : Agent) (new : File) (fld : OutputField) : Prop :=
  (a.running ≠ [] ∨ a.Pushes → Shipped p a.boot.output new.output fld) ∧
    (a.Pushes → Opened a.boot.output new.output fld) ∧
      ∀ t ∈ a.running, ∀ q ∈ t.tails, q.Has new.output fld

/-- One of the reports names the field. -/
def Reported (reports : List (Text × ReloadReport)) (fld : OutputField) : Prop :=
  ∃ e ∈ fld.entry, ∃ r ∈ reports, e ∈ r.2.restartRequired

/-- The two agree on the field. -/
def Same (t ns : SourceTable) : SourceField → Prop
  | .path => t.path = ns.path
  | .parser => t.parser = ns.parser
  | .table => t.table = ns.table
  | .timestamp => t.timestamp = ns.timestamp
  | .tags => t.tags = ns.tags
  | .tagsStatic => t.tagsStatic = ns.tagsStatic
  | .fields => t.fields = ns.fields
  | .visibility => t.visibility = ns.visibility
  | .multiline => t.multiline = ns.multiline
  | .filter => t.filter = ns.filter
  | .sample => t.sample = ns.sample
  | .redact => t.redact = ns.redact
  | .kubernetes => t.kubernetes = ns.kubernetes

/-- The source a tail works with. -/
def Tail.runs (t : Tail) : SourceTable :=
  { t.source with filter := t.knobs.filters, sample := t.knobs.samples, redact := t.knobs.redacts }

/-- A tail works with the new value; of `kubernetes` it reads only that it is there. -/
def Tail.HasSource (t : Tail) (ns : SourceTable) : SourceField → Prop
  | .kubernetes => t.source.kubernetes.isSome = ns.kubernetes.isSome
  | fld => Same t.runs ns fld

/-- A glob source works with the new value in its template, and each child as if it
had been made from the new one. -/
def Task.HasSource (ns : SourceTable) (fld : SourceField) : Task → Prop
  | .tail t => t.HasSource ns fld
  | .glob _ template children =>
      Same template ns fld ∧
        ∀ c ∈ children, c.tail.HasSource (childSource ns c.path c.labels) fld

/-- The report of that source names the field. -/
def SourceReported (reports : List (Text × ReloadReport)) (name : Text) (fld : SourceField) :
    Prop :=
  ∃ e ∈ fld.entry, ∃ r ∈ reports, r.1 = name ∧ e ∈ r.2.restartRequired

/-- Every difference is in effect or reported; the other sections have no entry in a
report. -/
structure Accounted (p : Platform) (a : Agent) (new : File)
    (reports : List (Text × ReloadReport)) : Prop where
  output : ∀ fld, InEffect p a new fld ∨ Reported reports fld
  source : ∀ t ∈ a.running, ∀ ns ∈ new.sources, ns.name = t.name → ∀ fld,
    t.HasSource ns fld ∨ SourceReported reports t.name fld
  otlp : a.boot.otlp = new.otlp
  metrics : a.boot.metrics = new.metrics
  telemetry : a.boot.telemetry = new.telemetry
  log : a.boot.log = new.log

/-! ## The condition -/

/-- A tail that stays was started with another value, and says so. -/
def Agent.Notices {α : Type} (a : Agent) (new : File) (value : Output → α) : Prop :=
  ∃ t, Task.tail t ∈ a.running ∧ t.source.name ∈ new.names ∧ value t.cfg.output ≠ value new.output

/-- The glob sources that stay were started with this value. -/
def Agent.GlobsHave {α : Type} (a : Agent) (new : File) (value : Output → α) : Prop :=
  ∀ cfg template children, Task.glob cfg template children ∈ a.running →
    template.name ∈ new.names → value cfg.output = value new.output

/-- Something still ships after the reload. -/
def Agent.Ships (a : Agent) (new : File) : Prop := new.sources ≠ [] ∨ a.Pushes

/-- The source of the file is the one the tail was started with. -/
def Tail.Identifies (t : Tail) (ns : SourceTable) : Prop :=
  ns.path = t.source.path ∧ ns.parser = t.source.parser

instance (t : Tail) (ns : SourceTable) : Decidable (t.Identifies ns) :=
  inferInstanceAs (Decidable (_ ∧ _))

/-- A tail that stays takes over the differences of its source or names them: what
nothing names is as it was. -/
def Tail.Follows (t : Tail) (ns : SourceTable) : Prop :=
  if t.Identifies ns then t.HasSource ns .kubernetes
  else ∀ fld, fld.entry ≠ some .identity → t.HasSource ns fld

/-- The condition on the agent before the reload, and the new file. -/
structure Honoured (p : Platform) (a : Agent) (new : File) : Prop where
  otlp : a.boot.otlp = new.otlp
  metrics : a.boot.metrics = new.metrics
  telemetry : a.boot.telemetry = new.telemetry
  log : a.boot.log = new.log
  gzip : a.Ships new → a.boot.output.gzip = new.output.gzip
  tokenFile : a.Ships new → tokenInEnv p = true ∨ a.boot.output.tokenFile = new.output.tokenFile
  url : a.Notices new Output.url ∨ (a.Ships new → a.boot.output.url = new.output.url)
  database : a.Notices new Output.database ∨
    (a.Ships new → a.boot.output.database = new.output.database)
  tls : a.Notices new Output.tls ∨
    (a.Ships new → a.boot.output.tls = new.output.tls) ∧ a.GlobsHave new refresh
  queueMaxBytes : a.Notices new Output.queueMaxBytes ∨
    (a.Pushes → a.boot.output.queueMaxBytes = new.output.queueMaxBytes) ∧
      a.GlobsHave new Output.queueMaxBytes
  lateness : a.Notices new (fun o => (o.watermarkFloorMs, o.watermarkCeilingMs)) ∨
    a.GlobsHave new fun o => (o.watermarkFloorMs, o.watermarkCeilingMs)
  watermarkTable : ∀ t ∈ a.running, t.name ∈ new.names →
    t.cfg.output.watermarkTable = new.output.watermarkTable
  knobs : a.GlobsHave new fun o =>
    (o.batchLines, o.maxInflight, o.watermarkEverySecs, rpoWait o.rpoReportSecs)
  /-- a tail that stays -/
  tails : ∀ t, Task.tail t ∈ a.running → ∀ ns ∈ new.sources, ns.name = t.source.name → t.Follows ns
  /-- a glob source that stays -/
  globs : ∀ cfg template children, Task.glob cfg template children ∈ a.running →
    ∀ ns ∈ new.sources, ns.name = template.name → template = ns

/-! ## One reload -/

section

variable {p : Platform} {f new : File} {t : Tail} {ns : SourceTable}

theorem named_eq_some (hnodup : new.names.Nodup) {name : Text} :
    named new name = some ns ↔ ns ∈ new.sources ∧ ns.name = name := by
  constructor
  · intro h
    exact ⟨List.mem_of_find?_eq_some h, by simpa using List.find?_some h⟩
  · rintro ⟨hns, rfl⟩
    obtain ⟨found, hfound⟩ : ∃ found, named new ns.name = some found :=
      Option.isSome_iff_exists.mp (List.find?_isSome.mpr ⟨ns, hns, by simp⟩)
    have hmem := List.mem_of_find?_eq_some hfound
    have hname : found.name = ns.name := by simpa using List.find?_some hfound
    rw [hfound, List.inj_on_of_nodup_map hnodup hmem hns hname]

/-- What a reload reports. -/
def restarts (t : Tail) (ns : SourceTable) (new : File) : List Restart :=
  (if t.Identifies ns then frozen t.source ns else [.identity])
    ++ captured t.cfg.output new.output

/-- What a reload leaves. -/
def reloaded (t : Tail) (ns : SourceTable) (new : File) : Tail :=
  { t with
    knobs := (if t.Identifies ns
      then { t.knobs with filters := ns.filter, samples := ns.sample, redacts := ns.redact }
      else t.knobs).retune new.output }

/-- A file that loads is not refused. -/
theorem reloadConfig_eq (hload : load p f = .ok new)
    (hns : named new t.source.name = some ns) : ∃ applied,
      t.reloadConfig p f
        = (some { applied, restartRequired := restarts t ns new }, reloaded t ns new) := by
  have hname : ns.name = t.source.name := by simpa using List.find?_some hns
  have hcompiles : compileRedacts p ns.redact = some ns.redact := by
    refine if_pos (List.all_eq_true.mpr fun rd hrd => ?_)
    exact (checked_of_load hload).patterns (List.mem_of_find?_eq_some hns) rd hrd
  by_cases hsame : t.Identifies ns
  · have happly : applySource p t.source ns t.knobs
        = some ({ applied := [.transforms], restartRequired := frozen t.source ns },
          { t.knobs with filters := ns.filter, samples := ns.sample, redacts := ns.redact }) := by
      rw [applySource, if_pos ⟨hname, hsame⟩, hcompiles, Option.map_some]
    simp only [Tail.reloadConfig, hload, applyReload, reloadSource, hns, happly, Option.map_some,
      restarts, reloaded, if_pos hsame]
    exact ⟨_, rfl⟩
  · have happly : applySource p t.source ns t.knobs
        = some ({ applied := [], restartRequired := [.identity] }, t.knobs) := by
      rw [applySource, if_neg fun h => hsame h.2]
    simp only [Tail.reloadConfig, hload, applyReload, reloadSource, hns, happly, Option.map_some,
      restarts, reloaded, if_neg hsame]
    exact ⟨_, rfl⟩

section

variable {current o : Output}

theorem captured_url : Restart.url ∈ captured current o ↔ current.url ≠ o.url := by
  simp only [captured, List.flatten_cons, List.flatten_nil, List.append_nil, List.mem_append,
    mem_entry, reduceCtorEq, and_false, or_false, and_true, decide_eq_true_eq]
  exact ne_comm

theorem captured_tls : Restart.tls ∈ captured current o ↔ current.tls ≠ o.tls := by
  simp only [captured, List.flatten_cons, List.flatten_nil, List.append_nil, List.mem_append,
    mem_entry, reduceCtorEq, and_false, or_false, false_or, and_true, decide_eq_true_eq]
  exact ne_comm

theorem captured_queueMaxBytes :
    Restart.queueMaxBytes ∈ captured current o ↔ current.queueMaxBytes ≠ o.queueMaxBytes := by
  simp only [captured, List.flatten_cons, List.flatten_nil, List.append_nil, List.mem_append,
    mem_entry, reduceCtorEq, and_false, or_false, false_or, and_true, decide_eq_true_eq]
  exact ne_comm

theorem captured_database :
    Restart.database ∈ captured current o ↔ current.database ≠ o.database := by
  simp only [captured, List.flatten_cons, List.flatten_nil, List.append_nil, List.mem_append,
    mem_entry, reduceCtorEq, and_false, or_false, false_or, and_true, decide_eq_true_eq]
  exact ne_comm

/-- The two bounds have one entry. -/
theorem captured_lateness : Restart.lateness ∈ captured current o ↔
    (current.watermarkFloorMs, current.watermarkCeilingMs)
      ≠ (o.watermarkFloorMs, o.watermarkCeilingMs) := by
  simp only [captured, List.flatten_cons, List.flatten_nil, List.append_nil, List.mem_append,
    mem_entry, reduceCtorEq, and_false, false_or, and_true, decide_eq_true_eq, ne_eq,
    Prod.mk.injEq]
  omega

end

/-- An entry about `[output]`. -/
theorem mem_restarts_output {e : Restart}
    (he : e ∈ [.url, .tls, .queueMaxBytes, .database, .lateness]) :
    e ∈ restarts t ns new ↔ e ∈ captured t.cfg.output new.output := by
  have hnot : e ∉ (if t.Identifies ns then frozen t.source ns else [.identity]) := by
    simp only [List.mem_cons, List.not_mem_nil, or_false] at he
    split <;> rcases he with rfl | rfl | rfl | rfl | rfl <;> simp [frozen]
  rw [restarts, List.mem_append]
  exact ⟨fun h => h.resolve_left hnot, .inr⟩

/-- An entry about the source. -/
theorem mem_restarts_source {e : Restart}
    (he : e ∉ [.url, .tls, .queueMaxBytes, .database, .lateness]) :
    e ∈ restarts t ns new ↔ e ∈ (if t.Identifies ns then frozen t.source ns else [.identity]) := by
  have hnot : e ∉ captured t.cfg.output new.output := by
    intro h
    refine he ?_
    simp only [captured, List.flatten_cons, List.flatten_nil, List.append_nil, List.mem_append,
      mem_entry] at h
    rcases h with ⟨-, rfl⟩ | ⟨-, rfl⟩ | ⟨-, rfl⟩ | ⟨-, rfl⟩ | ⟨-, rfl⟩ <;> simp
  rw [restarts, List.mem_append]
  exact ⟨fun h => h.resolve_right hnot, .inl⟩

theorem SourceField.not_output {fld : SourceField} {e : Restart} (he : e ∈ fld.entry) :
    e ∉ [.url, .tls, .queueMaxBytes, .database, .lateness] := by
  cases fld <;> simp only [SourceField.entry, Option.mem_def, Option.some.injEq, reduceCtorEq] at he
    <;> subst he <;> simp

/-- Every field of the source is taken over or named, exactly if the tail follows it. -/
theorem follows_iff : (∀ fld, (reloaded t ns new).HasSource ns fld ∨
    ∃ e ∈ fld.entry, e ∈ restarts t ns new) ↔ t.Follows ns := by
  by_cases hsame : t.Identifies ns
  · have hknobs : (reloaded t ns new).runs
        = { t.source with filter := ns.filter, sample := ns.sample, redact := ns.redact } := by
      simp [Tail.runs, reloaded, hsame, Reloadable.retune]
    rw [Tail.Follows, if_pos hsame]
    constructor
    · intro h
      rcases h .kubernetes with h | ⟨e, he, -⟩
      · exact h
      · cases he
    · intro h fld
      -- a frozen field is as it was, or named
      have hfrozen : ∀ e ∈ fld.entry, e ∈ frozen t.source ns →
          ∃ e ∈ fld.entry, e ∈ restarts t ns new := fun e he hmem =>
        ⟨e, he, (mem_restarts_source (SourceField.not_output he)).mpr (by rwa [if_pos hsame])⟩
      cases fld
      case kubernetes => exact .inl h
      all_goals simp only [Tail.HasSource, hknobs, Same]
      case path => exact .inl hsame.1.symm
      case parser => exact .inl hsame.2.symm
      case filter | sample | redact => exact .inl trivial
      all_goals
        refine or_iff_not_imp_left.mpr fun hne => hfrozen _ rfl ?_
        simp [frozen, Ne.symm hne]
  · have hruns : (reloaded t ns new).runs = t.runs := by
      simp [Tail.runs, reloaded, hsame, Reloadable.retune]
    have hhas : ∀ fld, (reloaded t ns new).HasSource ns fld ↔ t.HasSource ns fld := by
      intro fld
      cases fld <;> simp only [Tail.HasSource, hruns]
      exact Iff.rfl
    have hnamed : ∀ fld : SourceField, (∃ e ∈ fld.entry, e ∈ restarts t ns new)
        ↔ fld.entry = some .identity := by
      intro fld
      constructor
      · rintro ⟨e, he, hmem⟩
        rw [mem_restarts_source (SourceField.not_output he), if_neg hsame] at hmem
        rw [← List.mem_singleton.mp hmem]
        exact he
      · intro he
        exact ⟨_, he, List.mem_append_left _ (by simp [hsame])⟩
    rw [Tail.Follows, if_neg hsame]
    refine forall_congr' fun fld => ?_
    rw [hhas, hnamed]
    exact or_comm.trans or_iff_not_imp_left

/-- What a tail has of `[output]` after its reload: the knobs, and the values it was
started with. -/
def Tail.Keeps (t : Tail) (new : Output) : OutputField → Prop
  | .queueMaxBytes => t.cfg.output.queueMaxBytes = new.queueMaxBytes
  | .watermarkFloorMs => t.cfg.output.watermarkFloorMs = new.watermarkFloorMs
  | .watermarkCeilingMs => t.cfg.output.watermarkCeilingMs = new.watermarkCeilingMs
  | .watermarkTable => t.cfg.output.watermarkTable = new.watermarkTable
  | .tls => refresh t.cfg.output = refresh new
  | _ => True

theorem reloaded_has (fld : OutputField) :
    (reloaded t ns new).Has new.output fld ↔ t.Keeps new.output fld := by
  cases fld <;> simp [Tail.Has, Tail.Keeps, reloaded, Reloadable.retune]

/-- What a tail reads of `[output]` when it starts does not depend on its source. -/
theorem start_has {cfg : File} {source source' : SourceTable} {o : Output} {fld : OutputField} :
    (Tail.start cfg source).Has o fld ↔ (Tail.start cfg source').Has o fld := by
  cases fld <;> exact Iff.rfl

theorem start_has_self (fld : OutputField) : (Tail.start new ns).Has new.output fld := by
  cases fld <;> simp [Tail.Has, Tail.start]

end

/-! ## The sources after it -/

section

variable {p : Platform} {f new : File} {a : Agent} {later set : List Task}

theorem mem_sourceSet {running : List Task} {t : Task} : t ∈ sourceSet running new ↔
    (t ∈ running ∧ t.name ∈ new.names) ∨
      ∃ ns ∈ new.sources, ns.name ∉ running.map Task.name ∧ t = Task.start new ns := by
  have hkept : t ∈ running.filter (fun t => decide
      (t.name ∉ (Coordinator.diffSourceSet (running.map Task.name) new.names).1)) ↔
        t ∈ running ∧ t.name ∈ new.names := by
    rw [List.mem_filter, decide_eq_true_eq, Coordinator.mem_removed, not_and, not_not]
    exact ⟨fun h => ⟨h.1, h.2 (List.mem_map_of_mem h.1)⟩, fun h => ⟨h.1, fun _ => h.2⟩⟩
  have hadded : t ∈ (Coordinator.diffSourceSet (running.map Task.name) new.names).2.filterMap
      (fun i => new.sources[i]?.map (Task.start new)) ↔
        ∃ ns ∈ new.sources, ns.name ∉ running.map Task.name ∧ t = Task.start new ns := by
    constructor
    · intro h
      obtain ⟨i, hi, hmade⟩ := List.mem_filterMap.mp h
      obtain ⟨ns, hns, rfl⟩ := Option.map_eq_some_iff.mp hmade
      refine ⟨ns, List.mem_of_getElem? hns, ?_, rfl⟩
      have hname : new.names.getD i [] = ns.name := by
        simp [File.names, List.getD_eq_getElem?_getD, hns]
      have hout := (List.mem_filter.mp hi).2
      rw [hname] at hout
      simpa using hout
    · rintro ⟨ns, hns, hnew, rfl⟩
      obtain ⟨i, hi⟩ := List.mem_iff_getElem?.mp hns
      have hname : new.names.getD i [] = ns.name := by
        simp [File.names, List.getD_eq_getElem?_getD, hi]
      have hlt : i < new.names.length := by
        simpa [File.names] using (List.getElem?_eq_some_iff.mp hi).1
      refine List.mem_filterMap.mpr ⟨i, List.mem_filter.mpr ⟨List.mem_range.mpr hlt, ?_⟩, ?_⟩
      · rw [hname]
        simpa using hnew
      · rw [hi, Option.map_some]
  rw [sourceSet, List.mem_append, hkept, hadded]

@[simp] theorem start_name (cfg : File) (source : SourceTable) :
    (Task.start cfg source).name = source.name := by
  unfold Task.start
  split <;> rfl

/-- Every child is as its template made it. -/
def Templated (running : List Task) : Prop :=
  ∀ cfg template children, Task.glob cfg template children ∈ running → ∀ c ∈ children,
    c.tail = Tail.start cfg (childSource template c.path c.labels)

/-- A task is told by its name. -/
def Unique (running : List Task) : Prop := ∀ t ∈ running, ∀ u ∈ running, t.name = u.name → t = u

/-- What may happen to a task from one reload to the next: children come and go. -/
structure ChildStep (g : Task → Task) : Prop where
  tail : ∀ t, g (.tail t) = .tail t
  glob : ∀ cfg template children, ∃ children', g (.glob cfg template children)
    = .glob cfg template children' ∧ ∀ c ∈ children', c ∈ children ∨
      c.tail = Tail.start cfg (childSource template c.path c.labels)

theorem adopt_childStep (path : Path) (labels : List (Text × Text)) :
    ChildStep (Task.adopt path labels) where
  tail _ := rfl
  glob cfg template children := by
    simp only [Task.adopt]
    split
    · exact ⟨_, rfl, fun c hc => .inl hc⟩
    · refine ⟨_, rfl, fun c hc => ?_⟩
      rcases List.mem_append.mp hc with hc | hc
      · exact .inl hc
      · rw [List.mem_singleton.mp hc]
        exact .inr rfl

theorem retire_childStep (key : Text) : ChildStep (Task.retire key) where
  tail _ := rfl
  glob _ _ _ := ⟨_, rfl, fun _ hc => .inl (List.mem_of_mem_filter hc)⟩

theorem ChildStep.named {g : Task → Task} (hg : ChildStep g) (name : Text) :
    ChildStep fun t => if t.name = name then g t else t where
  tail t := by
    split
    · exact hg.tail t
    · rfl
  glob cfg template children := by
    split
    · exact hg.glob cfg template children
    · exact ⟨_, rfl, fun _ hc => .inl hc⟩

theorem ChildStep.name {g : Task → Task} (hg : ChildStep g) (t : Task) : (g t).name = t.name := by
  cases t with
  | tail t => rw [hg.tail]
  | glob cfg template children =>
      obtain ⟨_, heq, -⟩ := hg.glob cfg template children
      rw [heq]
      rfl

/-- A glob source is one before and after. -/
theorem ChildStep.mem_glob {g : Task → Task} (hg : ChildStep g) {running : List Task} {cfg : File}
    {template : SourceTable} {children : List Child}
    (h : Task.glob cfg template children ∈ running.map g) : ∃ before,
      Task.glob cfg template before ∈ running ∧ ∀ c ∈ children, c ∈ before ∨
        c.tail = Tail.start cfg (childSource template c.path c.labels) := by
  obtain ⟨t, ht, heq⟩ := List.mem_map.mp h
  cases t with
  | tail t => exact absurd ((hg.tail t).symm.trans heq) (by simp)
  | glob cfg' template' before =>
      obtain ⟨after, hmade, hchildren⟩ := hg.glob cfg' template' before
      obtain ⟨rfl, rfl, rfl⟩ := Task.glob.inj (hmade.symm.trans heq)
      exact ⟨before, ht, hchildren⟩

theorem Templated.map {g : Task → Task} (hg : ChildStep g) {running : List Task}
    (h : Templated running) : Templated (running.map g) := by
  intro cfg template children hmem c hc
  obtain ⟨before, ht, hchildren⟩ := hg.mem_glob hmem
  exact (hchildren c hc).elim (h cfg template before ht c) id

/-- The tasks after the reload of a source set, and after the children that have come
and gone since. -/
structure Settled (p : Platform) (f : File) (set later : List Task) : Prop where
  tail : ∀ t, Task.tail t ∈ later ↔ ∃ t₀, Task.tail t₀ ∈ set ∧ (t₀.reloadConfig p f).2 = t
  glob : ∀ cfg template, (∃ children, Task.glob cfg template children ∈ later)
    ↔ ∃ children, Task.glob cfg template children ∈ set
  made : Templated later

theorem Settled.map {g : Task → Task} (hg : ChildStep g) (h : Settled p f set later) :
    Settled p f set (later.map g) where
  tail t := by
    rw [← h.tail]
    constructor
    · intro hmem
      obtain ⟨u, hu, heq⟩ := List.mem_map.mp hmem
      cases u with
      | tail u => exact Task.tail.inj ((hg.tail u).symm.trans heq) ▸ hu
      | glob cfg template children =>
          obtain ⟨_, hmade, -⟩ := hg.glob cfg template children
          exact absurd (hmade.symm.trans heq) (by simp)
    · exact fun hmem => List.mem_map.mpr ⟨_, hmem, hg.tail t⟩
  glob cfg template := by
    rw [← h.glob]
    constructor
    · rintro ⟨children, hmem⟩
      obtain ⟨before, ht, -⟩ := hg.mem_glob hmem
      exact ⟨before, ht⟩
    · rintro ⟨children, hmem⟩
      obtain ⟨after, hmade, -⟩ := hg.glob cfg template children
      exact ⟨after, List.mem_map.mpr ⟨_, hmem, hmade⟩⟩
  made := h.made.map hg

theorem pass_name (t : Task) : (t.pass p f).2.name = t.name := by
  cases t with
  | tail t =>
      simp only [Task.pass, Task.name, Task.source, Tail.reloadConfig]
      split
      · rfl
      · split <;> rfl
  | glob cfg template children => rfl

/-- The passes of the loops. -/
theorem settled_pass (h : Templated set) :
    Settled p f set (set.map fun t => (t.pass p f).2) where
  tail t := by
    constructor
    · intro hmem
      obtain ⟨u, hu, heq⟩ := List.mem_map.mp hmem
      cases u with
      | tail u => exact ⟨u, hu, Task.tail.inj heq⟩
      | glob cfg template children => cases heq
    · rintro ⟨t₀, hmem, rfl⟩
      exact List.mem_map.mpr ⟨_, hmem, rfl⟩
  glob cfg template := by
    constructor
    · rintro ⟨children, hmem⟩
      obtain ⟨u, hu, heq⟩ := List.mem_map.mp hmem
      cases u with
      | tail u => cases heq
      | glob cfg' template' children' =>
          obtain ⟨rfl, rfl, rfl⟩ := Task.glob.inj heq
          exact ⟨_, hu⟩
    · rintro ⟨children, hmem⟩
      exact ⟨children, List.mem_map.mpr ⟨_, hmem, rfl⟩⟩
  made cfg template children hmem := by
    obtain ⟨u, hu, heq⟩ := List.mem_map.mp hmem
    cases u with
    | tail u => cases heq
    | glob cfg' template' children' => exact h _ _ _ (heq ▸ hu)

theorem sourceSet_templated {running : List Task} (h : Templated running) :
    Templated (sourceSet running new) := by
  intro cfg template children hmem c hc
  rcases mem_sourceSet.mp hmem with ⟨hrunning, -⟩ | ⟨ns, -, -, heq⟩
  · exact h cfg template children hrunning c hc
  · unfold Task.start at heq
    split at heq
    · obtain ⟨-, -, rfl⟩ := Task.glob.inj heq
      cases hc
    · cases heq

theorem sourceSet_unique {running : List Task} (h : Unique running) (hnodup : new.names.Nodup) :
    Unique (sourceSet running new) := by
  intro t ht u hu hname
  rcases mem_sourceSet.mp ht with ⟨ht, -⟩ | ⟨ns, hns, hnew, rfl⟩
  · rcases mem_sourceSet.mp hu with ⟨hu, -⟩ | ⟨ns', -, hnew, rfl⟩
    · exact h t ht u hu hname
    · rw [start_name] at hname
      exact absurd (hname ▸ List.mem_map_of_mem ht) hnew
  · rcases mem_sourceSet.mp hu with ⟨hu, -⟩ | ⟨ns', hns', -, rfl⟩
    · rw [start_name] at hname
      exact absurd (hname ▸ List.mem_map_of_mem hu) hnew
    · rw [start_name, start_name] at hname
      rw [List.inj_on_of_nodup_map hnodup hns hns' hname]

end

/-! ## The reports -/

/-- A reload that was accepted, and the agent at some time before the next one. -/
structure Accepted (p : Platform) (f : File) (a : Agent) (new : File)
    (reports : List (Text × ReloadReport)) (later : Agent) : Prop where
  load : load p f = .ok new
  unique : Unique a.running
  boot : later.boot = a.boot
  reports : reports
    = (sourceSet a.running new).filterMap fun t => (t.pass p f).1.map (t.name, ·)
  settled : Settled p f (sourceSet a.running new) later.running

section

variable {p : Platform} {f new : File} {a later : Agent} {reports : List (Text × ReloadReport)}
variable (h : Accepted p f a new reports later)

include h

theorem Accepted.nodup : new.names.Nodup := (checked_of_load h.load).names

/-- Every task of the new set has its source in the file. -/
theorem Accepted.source {t : Task} (ht : t ∈ sourceSet a.running new) :
    ∃ ns, named new t.name = some ns := by
  rcases mem_sourceSet.mp ht with ⟨-, hname⟩ | ⟨ns, hns, -, rfl⟩
  · obtain ⟨ns, hns, hname⟩ := List.mem_map.mp hname
    exact ⟨ns, (named_eq_some h.nodup).mpr ⟨hns, hname⟩⟩
  · exact ⟨ns, (named_eq_some h.nodup).mpr ⟨hns, (start_name new ns).symm⟩⟩

/-- The entries under a name are those of the tail of that name. -/
theorem Accepted.entry_iff {name : Text} {e : Restart} :
    (∃ r ∈ reports, r.1 = name ∧ e ∈ r.2.restartRequired) ↔
      ∃ t ns, Task.tail t ∈ sourceSet a.running new ∧ t.source.name = name ∧
        named new t.source.name = some ns ∧ e ∈ restarts t ns new := by
  rw [h.reports]
  constructor
  · rintro ⟨r, hr, rfl, he⟩
    obtain ⟨t, ht, hmade⟩ := List.mem_filterMap.mp hr
    cases t with
    | tail t =>
        obtain ⟨ns, hns⟩ := h.source ht
        obtain ⟨applied, heq⟩ := reloadConfig_eq h.load hns
        simp only [Task.pass, heq, Option.map_some, Option.some.injEq] at hmade
        subst hmade
        exact ⟨t, ns, ht, rfl, hns, he⟩
    | glob cfg template children => cases hmade
  · rintro ⟨t, ns, ht, rfl, hns, he⟩
    obtain ⟨applied, heq⟩ := reloadConfig_eq h.load hns
    refine ⟨(t.source.name, { applied, restartRequired := restarts t ns new }), ?_, rfl, he⟩
    exact List.mem_filterMap.mpr ⟨_, ht, by simp [Task.pass, heq, Task.name, Task.source]⟩

/-- An entry about `[output]` is that of a tail that stays. -/
theorem Accepted.output_entry_iff {e : Restart}
    (he : e ∈ [.url, .tls, .queueMaxBytes, .database, .lateness]) :
    (∃ r ∈ reports, e ∈ r.2.restartRequired) ↔
      ∃ t, Task.tail t ∈ a.running ∧ t.source.name ∈ new.names ∧
        e ∈ captured t.cfg.output new.output := by
  have hname : (∃ r ∈ reports, e ∈ r.2.restartRequired)
      ↔ ∃ name, ∃ r ∈ reports, r.1 = name ∧ e ∈ r.2.restartRequired := by
    constructor
    · rintro ⟨r, hr, hmem⟩
      exact ⟨r.1, r, hr, rfl, hmem⟩
    · rintro ⟨_, r, hr, -, hmem⟩
      exact ⟨r, hr, hmem⟩
  rw [hname]
  constructor
  · rintro ⟨name, hentry⟩
    obtain ⟨t, ns, ht, rfl, hns, hmem⟩ := h.entry_iff.mp hentry
    rw [mem_restarts_output he] at hmem
    rcases mem_sourceSet.mp ht with ⟨ht, hname⟩ | ⟨ns', -, -, heq⟩
    · exact ⟨t, ht, hname, hmem⟩
    · -- a source that was added is compared with the file it comes from
      unfold Task.start at heq
      split at heq
      · cases heq
      · obtain rfl := Task.tail.inj heq
        simp [Tail.start, captured] at hmem
  · rintro ⟨t, ht, hname, hmem⟩
    have hset : Task.tail t ∈ sourceSet a.running new := mem_sourceSet.mpr (.inl ⟨ht, hname⟩)
    obtain ⟨ns, hns⟩ := h.source hset
    exact ⟨t.source.name, h.entry_iff.mpr
      ⟨t, ns, hset, rfl, hns, (mem_restarts_output he).mpr hmem⟩⟩

/-- A field that has an entry is reported if a tail that stays notices it. -/
theorem Accepted.reported_iff {α : Type} (value : Output → α) {fld : OutputField} {e : Restart}
    (hfld : fld.entry = some e) (he : e ∈ [.url, .tls, .queueMaxBytes, .database, .lateness])
    (hvalue : ∀ current, e ∈ captured current new.output ↔ value current ≠ value new.output) :
    Reported reports fld ↔ a.Notices new value := by
  have hentry : Reported reports fld ↔ ∃ r ∈ reports, e ∈ r.2.restartRequired := by
    simp [Reported, hfld]
  simp only [hentry, h.output_entry_iff he, hvalue, Agent.Notices]

omit h in
theorem not_reported {fld : OutputField} (hfld : fld.entry = none) : ¬ Reported reports fld := by
  simp [Reported, hfld]

/-! ## The fields of `[output]` -/

theorem Accepted.running_iff : later.running ≠ [] ↔ new.sources ≠ [] := by
  have hset : later.running ≠ [] ↔ ∃ t, t ∈ sourceSet a.running new := by
    constructor
    · intro hne
      obtain ⟨t, ht⟩ := List.exists_mem_of_ne_nil _ hne
      cases t with
      | tail t =>
          obtain ⟨t₀, ht₀, -⟩ := (h.settled.tail t).mp ht
          exact ⟨_, ht₀⟩
      | glob cfg template children =>
          obtain ⟨_, ht₀⟩ := (h.settled.glob cfg template).mp ⟨_, ht⟩
          exact ⟨_, ht₀⟩
    · rintro ⟨t, ht⟩
      cases t with
      | tail t => exact List.ne_nil_of_mem ((h.settled.tail _).mpr ⟨t, ht, rfl⟩)
      | glob cfg template children =>
          obtain ⟨_, ht⟩ := (h.settled.glob cfg template).mpr ⟨_, ht⟩
          exact List.ne_nil_of_mem ht
  rw [hset]
  constructor
  · rintro ⟨t, ht⟩
    obtain ⟨ns, hns⟩ := h.source ht
    exact List.ne_nil_of_mem ((named_eq_some h.nodup).mp hns).1
  · intro hne
    obtain ⟨ns, hns⟩ := List.exists_mem_of_ne_nil _ hne
    by_cases hrunning : ns.name ∈ a.running.map Task.name
    · obtain ⟨t, ht, hname⟩ := List.mem_map.mp hrunning
      exact ⟨t, mem_sourceSet.mpr (.inl ⟨ht, hname ▸ List.mem_map_of_mem hns⟩)⟩
    · exact ⟨_, mem_sourceSet.mpr (.inr ⟨ns, hns, hrunning, rfl⟩)⟩

/-- Only the tails that stay can have another value. -/
theorem Accepted.tails_have {fld : OutputField} :
    (∀ t ∈ later.running, ∀ q ∈ t.tails, q.Has new.output fld) ↔
      (∀ t, Task.tail t ∈ a.running → t.source.name ∈ new.names → t.Keeps new.output fld) ∧
        ∀ cfg template children, Task.glob cfg template children ∈ a.running →
          template.name ∈ new.names → (Tail.start cfg template).Has new.output fld := by
  constructor
  · intro hall
    constructor
    · intro t ht hname
      have hset : Task.tail t ∈ sourceSet a.running new := mem_sourceSet.mpr (.inl ⟨ht, hname⟩)
      obtain ⟨ns, hns⟩ := h.source hset
      obtain ⟨applied, heq⟩ := reloadConfig_eq h.load hns
      have hhas := hall _ ((h.settled.tail _).mpr ⟨t, hset, rfl⟩) _ (List.mem_singleton_self _)
      rw [heq] at hhas
      exact (reloaded_has fld).mp hhas
    · intro cfg template children ht hname
      obtain ⟨_, hmem⟩ := (h.settled.glob cfg template).mpr
        ⟨children, mem_sourceSet.mpr (.inl ⟨ht, hname⟩)⟩
      exact hall _ hmem _ (List.mem_cons_self ..)
  · rintro ⟨htails, hglobs⟩ t ht q hq
    cases t with
    | tail t =>
        obtain rfl := List.mem_singleton.mp hq
        obtain ⟨t₀, hset, rfl⟩ := (h.settled.tail _).mp ht
        obtain ⟨ns, hns⟩ := h.source hset
        obtain ⟨applied, heq⟩ := reloadConfig_eq h.load hns
        rw [heq]
        refine (reloaded_has fld).mpr ?_
        rcases mem_sourceSet.mp hset with ⟨ht₀, hname⟩ | ⟨ns', -, -, hstart⟩
        · exact htails t₀ ht₀ hname
        · unfold Task.start at hstart
          split at hstart
          · cases hstart
          · obtain rfl := Task.tail.inj hstart
            cases fld <;> simp [Tail.Keeps, Tail.start]
    | glob cfg template children =>
        -- a child reads what the next one would
        have hstart : q.Has new.output fld ↔ (Tail.start cfg template).Has new.output fld := by
          rcases List.mem_cons.mp hq with rfl | hq
          · exact Iff.rfl
          · obtain ⟨c, hc, rfl⟩ := List.mem_map.mp hq
            rw [h.settled.made cfg template children ht c hc]
            exact start_has
        rw [hstart]
        obtain ⟨_, hset⟩ := (h.settled.glob cfg template).mp ⟨_, ht⟩
        rcases mem_sourceSet.mp hset with ⟨ht₀, hname⟩ | ⟨ns', -, -, heq⟩
        · exact hglobs cfg template _ ht₀ hname
        · unfold Task.start at heq
          split at heq
          · obtain ⟨rfl, -, -⟩ := Task.glob.inj heq
            exact start_has_self fld
          · cases heq

theorem Accepted.inEffect_iff {fld : OutputField} : InEffect p later new fld ↔
    (a.Ships new → Shipped p a.boot.output new.output fld) ∧
      (a.Pushes → Opened a.boot.output new.output fld) ∧
        (∀ t, Task.tail t ∈ a.running → t.source.name ∈ new.names → t.Keeps new.output fld) ∧
          ∀ cfg template children, Task.glob cfg template children ∈ a.running →
            template.name ∈ new.names → (Tail.start cfg template).Has new.output fld := by
  unfold InEffect Agent.Ships Agent.Pushes
  rw [h.tails_have, h.running_iff, h.boot]

omit h in
theorem not_notices {α : Type} {value : Output → α} (hnot : ¬ a.Notices new value) {t : Tail}
    (ht : Task.tail t ∈ a.running) (hname : t.source.name ∈ new.names) :
    value t.cfg.output = value new.output := by
  by_contra hne
  exact hnot ⟨t, ht, hname, hne⟩

/-- A field with an entry: unless a tail notices, all that read it must have it. -/
theorem Accepted.noticed_iff {α : Type} (value : Output → α) (fld : OutputField) {e : Restart}
    (hfld : fld.entry = some e) (he : e ∈ [.url, .tls, .queueMaxBytes, .database, .lateness])
    (hvalue : ∀ current, e ∈ captured current new.output ↔ value current ≠ value new.output)
    (hkeeps : ∀ t : Tail, value t.cfg.output = value new.output → t.Keeps new.output fld) :
    InEffect p later new fld ∨ Reported reports fld ↔ a.Notices new value ∨
      (a.Ships new → Shipped p a.boot.output new.output fld) ∧
        (a.Pushes → Opened a.boot.output new.output fld) ∧
          ∀ cfg template children, Task.glob cfg template children ∈ a.running →
            template.name ∈ new.names → (Tail.start cfg template).Has new.output fld := by
  rw [h.reported_iff value hfld he hvalue, h.inEffect_iff]
  by_cases hnotices : a.Notices new value
  · simp only [hnotices, or_true, true_or]
  · simp only [hnotices, or_false, false_or]
    constructor
    · rintro ⟨hshipped, hopened, -, hglobs⟩
      exact ⟨hshipped, hopened, hglobs⟩
    · rintro ⟨hshipped, hopened, hglobs⟩
      exact ⟨hshipped, hopened, fun t ht hname => hkeeps t (not_notices hnotices ht hname), hglobs⟩

/-- A field without one. -/
theorem Accepted.silent_iff {fld : OutputField} (hfld : fld.entry = none) :
    InEffect p later new fld ∨ Reported reports fld ↔
      (a.Ships new → Shipped p a.boot.output new.output fld) ∧
        (a.Pushes → Opened a.boot.output new.output fld) ∧
          (∀ t, Task.tail t ∈ a.running → t.source.name ∈ new.names → t.Keeps new.output fld) ∧
            ∀ cfg template children, Task.glob cfg template children ∈ a.running →
              template.name ∈ new.names → (Tail.start cfg template).Has new.output fld := by
  rw [or_iff_left (not_reported hfld), h.inEffect_iff]

theorem Accepted.gzip : InEffect p later new .gzip ∨ Reported reports .gzip ↔
    (a.Ships new → a.boot.output.gzip = new.output.gzip) := by
  rw [h.silent_iff rfl]
  simp [Shipped, Opened, Tail.Keeps, Tail.Has]

theorem Accepted.tokenFile : InEffect p later new .tokenFile ∨ Reported reports .tokenFile ↔
    (a.Ships new → tokenInEnv p = true ∨ a.boot.output.tokenFile = new.output.tokenFile) := by
  rw [h.silent_iff rfl]
  simp [Shipped, Opened, Tail.Keeps, Tail.Has]

theorem Accepted.url : InEffect p later new .url ∨ Reported reports .url ↔
    a.Notices new Output.url ∨ (a.Ships new → a.boot.output.url = new.output.url) := by
  rw [h.noticed_iff Output.url .url rfl (by simp) (fun _ => captured_url) fun _ _ => trivial]
  simp [Shipped, Opened, Tail.Has]

theorem Accepted.database : InEffect p later new .database ∨ Reported reports .database ↔
    a.Notices new Output.database ∨ (a.Ships new → a.boot.output.database = new.output.database) := by
  rw [h.noticed_iff Output.database .database rfl (by simp) (fun _ => captured_database)
    fun _ _ => trivial]
  simp [Shipped, Opened, Tail.Has]

theorem Accepted.tls : InEffect p later new .tls ∨ Reported reports .tls ↔
    a.Notices new Output.tls ∨
      (a.Ships new → a.boot.output.tls = new.output.tls) ∧ a.GlobsHave new refresh := by
  rw [h.noticed_iff Output.tls .tls rfl (by simp) (fun _ => captured_tls)
    fun t ht => congrArg (Option.map Tls.refreshSecs) ht]
  simp [Shipped, Opened, Tail.Has, Agent.GlobsHave, Tail.start]

theorem Accepted.queueMaxBytes :
    InEffect p later new .queueMaxBytes ∨ Reported reports .queueMaxBytes ↔
      a.Notices new Output.queueMaxBytes ∨
        (a.Pushes → a.boot.output.queueMaxBytes = new.output.queueMaxBytes) ∧
          a.GlobsHave new Output.queueMaxBytes := by
  rw [h.noticed_iff Output.queueMaxBytes .queueMaxBytes rfl (by simp) (fun _ => captured_queueMaxBytes)
    fun t ht => ht]
  simp [Shipped, Opened, Tail.Has, Agent.GlobsHave, Tail.start]

/-- The two bounds of the lateness have one entry. -/
theorem Accepted.lateness :
    (InEffect p later new .watermarkFloorMs ∨ Reported reports .watermarkFloorMs) ∧
        (InEffect p later new .watermarkCeilingMs ∨ Reported reports .watermarkCeilingMs) ↔
      a.Notices new (fun o => (o.watermarkFloorMs, o.watermarkCeilingMs)) ∨
        a.GlobsHave new fun o => (o.watermarkFloorMs, o.watermarkCeilingMs) := by
  rw [h.noticed_iff (fun o => (o.watermarkFloorMs, o.watermarkCeilingMs)) .watermarkFloorMs rfl
      (by simp) (fun _ => captured_lateness) fun t ht => (Prod.mk.inj ht).1,
    h.noticed_iff (fun o => (o.watermarkFloorMs, o.watermarkCeilingMs)) .watermarkCeilingMs rfl
      (by simp) (fun _ => captured_lateness) fun t ht => (Prod.mk.inj ht).2, ← or_and_left]
  simp only [Shipped, Opened, Tail.Has, Agent.GlobsHave, Tail.start, implies_true, true_and,
    Prod.mk.injEq, forall_and]

theorem Accepted.watermarkTable :
    InEffect p later new .watermarkTable ∨ Reported reports .watermarkTable ↔
      ∀ t ∈ a.running, t.name ∈ new.names →
        t.cfg.output.watermarkTable = new.output.watermarkTable := by
  rw [h.silent_iff rfl]
  simp only [Shipped, Opened, Tail.Keeps, Tail.Has, Tail.start, implies_true, true_and]
  constructor
  · rintro ⟨htails, hglobs⟩ t ht hname
    cases t with
    | tail t => exact htails t ht hname
    | glob cfg template children => exact hglobs cfg template children ht hname
  · intro hall
    exact ⟨fun t ht hname => hall _ ht hname, fun cfg template children ht hname => hall _ ht hname⟩

/-- The knobs a tail takes over stay as they were in a glob source. -/
theorem Accepted.knobs :
    (InEffect p later new .batchLines ∨ Reported reports .batchLines) ∧
      (InEffect p later new .maxInflight ∨ Reported reports .maxInflight) ∧
        (InEffect p later new .watermarkEverySecs ∨ Reported reports .watermarkEverySecs) ∧
          (InEffect p later new .rpoReportSecs ∨ Reported reports .rpoReportSecs) ↔
      a.GlobsHave new fun o =>
        (o.batchLines, o.maxInflight, o.watermarkEverySecs, rpoWait o.rpoReportSecs) := by
  rw [h.silent_iff rfl, h.silent_iff rfl, h.silent_iff rfl, h.silent_iff rfl]
  simp only [Shipped, Opened, Tail.Keeps, Tail.Has, Tail.start, Agent.GlobsHave, implies_true,
    true_and, Prod.mk.injEq, forall_and]

/-! ## The fields of a source -/

omit h in
theorem same_all {t ns : SourceTable} (hname : ns.name = t.name) (hall : ∀ fld, Same t ns fld) :
    t = ns := by
  obtain ⟨⟩ := t
  obtain ⟨⟩ := ns
  obtain rfl : _ = _ := hname
  simp only [SourceTable.mk.injEq, true_and]
  exact ⟨hall .path, hall .table, hall .parser, hall .timestamp, hall .tags, hall .tagsStatic,
    hall .fields, hall .visibility, hall .multiline, hall .filter, hall .sample, hall .redact,
    hall .kubernetes⟩

omit h in
theorem same_self (source : SourceTable) (fld : SourceField) : Same source source fld := by
  cases fld <;> rfl

omit h in
theorem start_hasSource (cfg : File) (source : SourceTable) (fld : SourceField) :
    (Tail.start cfg source).HasSource source fld := by
  cases fld <;> rfl

theorem Accepted.unique_set : Unique (sourceSet a.running new) :=
  sourceSet_unique h.unique h.nodup

theorem Accepted.tail_reported {t : Tail} {ns : SourceTable} {fld : SourceField}
    (ht : Task.tail t ∈ sourceSet a.running new) (hns : named new t.source.name = some ns) :
    SourceReported reports t.source.name fld ↔ ∃ e ∈ fld.entry, e ∈ restarts t ns new := by
  constructor
  · rintro ⟨e, he, hentry⟩
    obtain ⟨u, nu, hu, hname, hnu, hmem⟩ := h.entry_iff.mp hentry
    obtain rfl := Task.tail.inj (h.unique_set _ hu _ ht hname)
    obtain rfl := Option.some.inj (hnu.symm.trans hns)
    exact ⟨e, he, hmem⟩
  · rintro ⟨e, he, hmem⟩
    exact ⟨e, he, h.entry_iff.mpr ⟨t, ns, ht, rfl, hns, hmem⟩⟩

/-- A glob source has no report. -/
theorem Accepted.glob_silent {cfg : File} {template : SourceTable} {children : List Child}
    {fld : SourceField} (ht : Task.glob cfg template children ∈ sourceSet a.running new) :
    ¬ SourceReported reports template.name fld := by
  rintro ⟨e, -, hentry⟩
  obtain ⟨u, -, hu, hname, -⟩ := h.entry_iff.mp hentry
  exact nomatch h.unique_set _ hu _ ht hname

theorem Accepted.tail_accounted {t : Tail} {ns : SourceTable}
    (ht : Task.tail t ∈ sourceSet a.running new) (hns : named new t.source.name = some ns) :
    (∀ fld, (t.reloadConfig p f).2.HasSource ns fld ∨ SourceReported reports t.source.name fld)
      ↔ t.Follows ns := by
  obtain ⟨applied, heq⟩ := reloadConfig_eq h.load hns
  simp only [h.tail_reported ht hns, heq]
  exact follows_iff

theorem Accepted.reload_name {t : Tail} (ht : Task.tail t ∈ sourceSet a.running new) :
    (t.reloadConfig p f).2.source.name = t.source.name := by
  obtain ⟨ns, hns⟩ := h.source ht
  obtain ⟨applied, heq⟩ := reloadConfig_eq h.load hns
  rw [heq]
  rfl

theorem Accepted.source_iff : (∀ t ∈ later.running, ∀ ns ∈ new.sources, ns.name = t.name →
      ∀ fld, t.HasSource ns fld ∨ SourceReported reports t.name fld) ↔
    (∀ t, Task.tail t ∈ a.running → ∀ ns ∈ new.sources, ns.name = t.source.name → t.Follows ns) ∧
      ∀ cfg template children, Task.glob cfg template children ∈ a.running →
        ∀ ns ∈ new.sources, ns.name = template.name → template = ns := by
  constructor
  · intro hall
    constructor
    · intro t ht ns hns hname
      have hset : Task.tail t ∈ sourceSet a.running new :=
        mem_sourceSet.mpr (.inl ⟨ht, List.mem_map.mpr ⟨ns, hns, hname⟩⟩)
      have hnamed := (named_eq_some h.nodup).mpr ⟨hns, hname⟩
      have hrel := h.reload_name hset
      have hthis := hall _ ((h.settled.tail _).mpr ⟨t, hset, rfl⟩) ns hns (hname.trans hrel.symm)
      refine (h.tail_accounted hset hnamed).mp fun fld => ?_
      exact (hthis fld).imp_right fun hrep => hrel ▸ hrep
    · intro cfg template children ht ns hns hname
      have hset : Task.glob cfg template children ∈ sourceSet a.running new :=
        mem_sourceSet.mpr (.inl ⟨ht, List.mem_map.mpr ⟨ns, hns, hname⟩⟩)
      obtain ⟨children', hmem⟩ := (h.settled.glob cfg template).mpr ⟨_, hset⟩
      refine same_all hname fun fld => ?_
      exact ((hall _ hmem ns hns hname fld).resolve_right (h.glob_silent hset)).1
  · rintro ⟨htails, hglobs⟩ t ht ns hns hname fld
    cases t with
    | tail t =>
        obtain ⟨t₀, hset, rfl⟩ := (h.settled.tail t).mp ht
        have hrel := h.reload_name hset
        have hname₀ : ns.name = t₀.source.name := hname.trans hrel
        have hnamed := (named_eq_some h.nodup).mpr ⟨hns, hname₀⟩
        have hfollows : t₀.Follows ns := by
          rcases mem_sourceSet.mp hset with ⟨ht₀, -⟩ | ⟨ns', hns', -, heq⟩
          · exact htails t₀ ht₀ ns hns hname₀
          · unfold Task.start at heq
            split at heq
            · cases heq
            · obtain rfl := Task.tail.inj heq
              obtain rfl := List.inj_on_of_nodup_map h.nodup hns hns' hname₀
              rw [Tail.Follows, if_pos ⟨rfl, rfl⟩]
              rfl
        refine ((h.tail_accounted hset hnamed).mpr hfollows fld).imp_right fun hrep => ?_
        change SourceReported reports (t₀.reloadConfig p f).2.source.name fld
        rwa [hrel]
    | glob cfg template children =>
        obtain ⟨_, hset⟩ := (h.settled.glob cfg template).mp ⟨_, ht⟩
        obtain rfl : template = ns := by
          rcases mem_sourceSet.mp hset with ⟨ht₀, -⟩ | ⟨ns', hns', -, heq⟩
          · exact hglobs cfg template _ ht₀ ns hns hname
          · unfold Task.start at heq
            split at heq
            · obtain ⟨-, rfl, -⟩ := Task.glob.inj heq
              exact List.inj_on_of_nodup_map h.nodup hns' hns hname.symm
            · cases heq
        refine .inl ⟨same_self template fld, fun c hc => ?_⟩
        rw [h.settled.made cfg template children ht c hc]
        exact start_hasSource _ _ fld

/-! ## Runs -/

theorem Accepted.accounted_iff : Accounted p later new reports ↔ Honoured p a new := by
  constructor
  · rintro ⟨houtput, hsource, hotlp, hmetrics, htelemetry, hlog⟩
    obtain ⟨htails, hglobs⟩ := h.source_iff.mp hsource
    rw [h.boot] at hotlp hmetrics htelemetry hlog
    exact
      { otlp := hotlp, metrics := hmetrics, telemetry := htelemetry, log := hlog
        gzip := h.gzip.mp (houtput _)
        tokenFile := h.tokenFile.mp (houtput _)
        url := h.url.mp (houtput _)
        database := h.database.mp (houtput _)
        tls := h.tls.mp (houtput _)
        queueMaxBytes := h.queueMaxBytes.mp (houtput _)
        lateness := h.lateness.mp ⟨houtput _, houtput _⟩
        watermarkTable := h.watermarkTable.mp (houtput _)
        knobs := h.knobs.mp ⟨houtput _, houtput _, houtput _, houtput _⟩
        tails := htails
        globs := hglobs }
  · intro hok
    refine ⟨fun fld => ?_, h.source_iff.mpr ⟨hok.tails, hok.globs⟩, ?_, ?_, ?_, ?_⟩
    · have hlateness := h.lateness.mpr hok.lateness
      have hknobs := h.knobs.mpr hok.knobs
      cases fld
      case url => exact h.url.mpr hok.url
      case database => exact h.database.mpr hok.database
      case gzip => exact h.gzip.mpr hok.gzip
      case tokenFile => exact h.tokenFile.mpr hok.tokenFile
      case queueMaxBytes => exact h.queueMaxBytes.mpr hok.queueMaxBytes
      case watermarkTable => exact h.watermarkTable.mpr hok.watermarkTable
      case tls => exact h.tls.mpr hok.tls
      case watermarkFloorMs => exact hlateness.1
      case watermarkCeilingMs => exact hlateness.2
      case batchLines => exact hknobs.1
      case maxInflight => exact hknobs.2.1
      case watermarkEverySecs => exact hknobs.2.2.1
      case rpoReportSecs => exact hknobs.2.2.2
    all_goals rw [h.boot]
    exacts [hok.otlp, hok.metrics, hok.telemetry, hok.log]

end

section

variable {p : Platform} {f new boot : File} {a b : Agent}

/-- What holds of the agent between two events. -/
structure Kept (a : Agent) : Prop where
  unique : Unique a.running
  templated : Templated a.running

theorem start_kept (hload : load p f = .ok boot) : Kept (Agent.start boot) where
  unique := by
    intro t ht u hu hname
    obtain ⟨src, hsrc, rfl⟩ := List.mem_map.mp ht
    obtain ⟨src', hsrc', rfl⟩ := List.mem_map.mp hu
    rw [start_name, start_name] at hname
    rw [List.inj_on_of_nodup_map (checked_of_load hload).names hsrc hsrc' hname]
  templated := by
    intro cfg template children hmem c hc
    obtain ⟨src, -, heq⟩ := List.mem_map.mp hmem
    unfold Task.start at heq
    split at heq
    · obtain ⟨-, -, rfl⟩ := Task.glob.inj heq
      cases hc
    · cases heq

/-- Tasks that change and keep their names. -/
theorem Unique.map {running : List Task} (h : Unique running) {g : Task → Task}
    (hname : ∀ t, (g t).name = t.name) : Unique (running.map g) := by
  intro _ ht _ hu heq
  obtain ⟨t, htr, rfl⟩ := List.mem_map.mp ht
  obtain ⟨u, hur, rfl⟩ := List.mem_map.mp hu
  rw [hname, hname] at heq
  rw [h t htr u hur heq]

theorem Kept.onTask (h : Kept a) {g : Task → Task} (hg : ChildStep g) (name : Text) :
    Kept (onTask name g a) where
  unique := h.unique.map (hg.named name).name
  templated := h.templated.map (hg.named name)

/-- A reload that is accepted, and the agent right after it. -/
theorem accepted_of_sighup {reports : List (Text × ReloadReport)} (h : Kept a)
    (hup : sighup p a f = some (b, reports)) : ∃ new, Accepted p f a new reports b := by
  unfold sighup at hup
  split at hup
  · cases hup
  · rename_i new hload
    obtain ⟨rfl, rfl⟩ := Prod.mk.inj (Option.some.inj hup)
    exact ⟨new,
      { load := hload
        unique := h.unique
        boot := rfl
        reports := rfl
        settled := settled_pass (sourceSet_templated h.templated) }⟩

theorem Kept.step {e : Event} (h : Kept a) (hstep : step p a e = some b) : Kept b := by
  cases e with
  | hup f =>
      obtain rfl := Option.some.inj hstep
      cases hup : sighup p a f with
      | none => exact h
      | some made =>
          obtain ⟨new, hnew⟩ := accepted_of_sighup h hup
          have hrunning : made.1.running
              = (sourceSet a.running new).map fun t => (t.pass p f).2 := by
            rw [sighup, hnew.load] at hup
            exact (congrArg (·.1.running) (Option.some.inj hup)).symm
          refine ⟨?_, hnew.settled.made⟩
          change Unique made.1.running
          rw [hrunning]
          exact hnew.unique_set.map pass_name
  | finish name =>
      obtain rfl := Option.some.inj hstep
      constructor
      · intro t ht u hu
        exact h.unique t (List.mem_of_mem_filter ht) u (List.mem_of_mem_filter hu)
      · exact fun cfg template children ht =>
          h.templated cfg template children (List.mem_of_mem_filter ht)
  | adopt name path labels => exact Option.some.inj hstep ▸ h.onTask (adopt_childStep path labels) _
  | retire name key => exact Option.some.inj hstep ▸ h.onTask (retire_childStep key) _

/-- Between reloads children come and go. -/
def Event.OfChild : Event → Prop
  | .adopt .. => True
  | .retire .. => True
  | _ => False

theorem Accepted.step {reports : List (Text × ReloadReport)} {later : Agent} {e : Event}
    (h : Accepted p f a new reports later) (he : e.OfChild) (hstep : step p later e = some b) :
    Accepted p f a new reports b := by
  have htask : ∀ name g, ChildStep g → Accepted p f a new reports (onTask name g later) :=
    fun name g hg => { h with settled := h.settled.map (hg.named name) }
  cases e with
  | hup f => exact he.elim
  | finish name => exact he.elim
  | adopt name path labels =>
      exact Option.some.inj hstep ▸ htask name _ (adopt_childStep path labels)
  | retire name key => exact Option.some.inj hstep ▸ htask name _ (retire_childStep key)

/-- **Applied or reported.** In every run of an agent, after a SIGHUP whose file is
accepted and for as long as nothing but children of glob sources comes and goes, every
difference is in effect on all that read it or named in a report exactly if the
agent and the file meet the condition. -/
theorem reload_accounted_iff (p : Platform) (file boot : File) (hboot : load p file = .ok boot) :
    ∀ es a, run (step p) (Agent.start boot) es = some a →
      ∀ f new after reports, load p f = .ok new → sighup p a f = some (after, reports) →
        ∀ es' later, (∀ e ∈ es', e.OfChild) → run (step p) after es' = some later →
          (Accounted p later new reports ↔ Honoured p a new) := by
  intro es a hrun f new after reports hload hup es' later hchild hlater
  have hkept : Kept a := run_preserves (fun _ _ _ h hstep => h.step hstep) (start_kept hboot) hrun
  obtain ⟨new', hnew⟩ := accepted_of_sighup hkept hup
  obtain rfl := Except.ok.inj (hnew.load.symm.trans hload)
  have hall : Accepted p f a new' reports later :=
    run_invariant (fun _ _ _ h he hstep => h.step he hstep) hnew
      (Meets.of_forall fun e he _ => hchild e he) hlater
  exact hall.accounted_iff

end

/-! ## Two reloads -/

/-- The file of one source, as it is. -/
def plainFile : File := fileOf [tailOf "a" none]

/-- Another size of batches, and another cap for the queue. -/
def retunedFile : File :=
  { plainFile with
    output := { plainFile.output with batchLines := 100, queueMaxBytes := 1048576 } }

/-- Without compression. -/
def ungzippedFile : File := { plainFile with output := { plainFile.output with gzip := false } }

theorem load_plainFile : load bareHost.toPlatform plainFile = .ok plainFile := by decide +kernel

theorem plainFile_running : (Agent.start plainFile).running
    = [.tail (Tail.start plainFile (tailOf "a" none))] := by
  simp only [Agent.start, plainFile, fileOf_sources, List.map_cons, List.map_nil, Task.start]
  rw [if_neg (by decide +kernel)]

theorem honoured_retuned :
    Honoured bareHost.toPlatform (Agent.start plainFile) retunedFile := by
  have hnoGlob : ∀ cfg template children,
      Task.glob cfg template children ∉ (Agent.start plainFile).running := by
    simp [plainFile_running]
  have htail : ∀ t, Task.tail t ∈ (Agent.start plainFile).running →
      t = Tail.start plainFile (tailOf "a" none) := by
    simp [plainFile_running]
  have hglobs : ∀ {α : Type} (value : Output → α),
      (Agent.start plainFile).GlobsHave retunedFile value :=
    fun value cfg template children ht => absurd ht (hnoGlob cfg template children)
  constructor
  case queueMaxBytes =>
    refine .inl ⟨Tail.start plainFile (tailOf "a" none), ?_, ?_, by decide +kernel⟩
    · simp [plainFile_running]
    · decide +kernel
  case tokenFile => exact fun _ => .inr rfl
  case database => exact .inr fun _ => rfl
  case tls => exact .inr ⟨fun _ => rfl, hglobs _⟩
  case url => exact .inr fun _ => rfl
  case lateness => exact .inr (hglobs _)
  case watermarkTable =>
    intro t ht _
    cases t with
    | tail t => exact htail t ht ▸ rfl
    | glob cfg template children => exact absurd ht (hnoGlob cfg template children)
  case knobs => exact hglobs _
  case tails =>
    intro t ht ns hns _
    obtain rfl := htail t ht
    obtain rfl := List.mem_singleton.mp hns
    rw [Tail.Follows, if_pos ⟨rfl, rfl⟩]
    rfl
  case globs => exact fun cfg template children ht => absurd ht (hnoGlob cfg template children)
  case gzip => exact fun _ => rfl
  all_goals rfl

/-- The report names the cap; the size is in effect. -/
theorem reload_accounted_iff_retuned : ∃ after reports,
    sighup bareHost.toPlatform (Agent.start plainFile) retunedFile = some (after, reports) ∧
      reports.map (·.2.restartRequired) = [[.queueMaxBytes]] ∧
        Accounted bareHost.toPlatform after retunedFile reports := by
  have hload : load bareHost.toPlatform retunedFile = .ok retunedFile := by decide +kernel
  have hsome : ((sighup bareHost.toPlatform (Agent.start plainFile) retunedFile).map
      fun made => made.2.map (·.2.restartRequired)) = some [[.queueMaxBytes]] := by decide +kernel
  obtain ⟨⟨after, reports⟩, hup, hreports⟩ := Option.map_eq_some_iff.mp hsome
  refine ⟨after, reports, hup, hreports, ?_⟩
  exact (reload_accounted_iff bareHost.toPlatform plainFile plainFile load_plainFile [] _ rfl
    retunedFile retunedFile after reports hload hup [] after (fun _ he => nomatch he) rfl).mpr
      honoured_retuned

/-- The file asks for no compression; nothing is reported, and the shipper compresses. -/
theorem gzip_neither : ∃ after reports,
    sighup bareHost.toPlatform (Agent.start plainFile) ungzippedFile = some (after, reports) ∧
      reports.map (·.2.restartRequired) = [[]] ∧
        ¬ Accounted bareHost.toPlatform after ungzippedFile reports := by
  have hsome : ((sighup bareHost.toPlatform (Agent.start plainFile) ungzippedFile).map
      fun made => made.2.map (·.2.restartRequired)) = some [[]] := by decide +kernel
  obtain ⟨⟨after, reports⟩, hup, hreports⟩ := Option.map_eq_some_iff.mp hsome
  refine ⟨after, reports, hup, hreports, fun haccounted => ?_⟩
  obtain ⟨new, hnew⟩ := accepted_of_sighup (start_kept load_plainFile) hup
  have hload : load bareHost.toPlatform ungzippedFile = .ok ungzippedFile := by decide +kernel
  obtain rfl := Except.ok.inj (hnew.load.symm.trans hload)
  exact nomatch hnew.gzip.mp (haccounted.output _) (.inl (List.cons_ne_nil _ _))

end Tributary.Config.Reload
