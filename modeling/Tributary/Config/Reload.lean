import Tributary.Config.File
import Tributary.Coordinator
import Tributary.Glob.Children

/-!
# Reloading a configuration

What SIGHUP does to an agent that tails files. The source set is diffed; each tail of
a single file compares the new file with what it runs, takes over what it can and
reports what a restart is needed for. A glob source keeps its template, for the files
it tails and for those it comes to tail.
-/

namespace Tributary.Config.Reload

open Map Transform Glob Lib

/-! ## One tail -/

/-- The slice of a running tail that a reload can change. -/
structure Reloadable where
  filters : List Filter
  samples : List Sample
  redacts : List Redact
  batchLines : Nat
  watermarkEvery : Nat
  maxInflight : Nat
  rpoEvery : Nat

/-- What a reload has applied, as the log says it. -/
inductive Applied where
  | transforms
  | batchLines (n : Nat)
  | maxInflight (n : Nat)
  | watermarkEverySecs (n : Nat)
  | rpoReportSecs (n : Nat)
deriving DecidableEq, Repr

/-- What has changed and needs a restart. -/
inductive Restart where
  | removed
  | identity
  | table
  | tags
  | tagsStatic
  | fields
  | timestamp
  | visibility
  | multiline
  | url
  | tls
  | queueMaxBytes
  | database
  | lateness
deriving DecidableEq, Repr

def Applied.text : Applied → String
  | .transforms => "transforms (filter/sample/redact)"
  | .batchLines n => "batch_lines=" ++ toString n
  | .maxInflight n => "max_inflight=" ++ toString n
  | .watermarkEverySecs n => "watermark_every_secs=" ++ toString n
  | .rpoReportSecs n => "rpo_report_secs=" ++ toString n

def Restart.text : Restart → String
  | .removed => "the source was removed"
  | .identity => "source identity (name/path/parser)"
  | .table => "source.table"
  | .tags => "source.tags"
  | .tagsStatic => "source.tags_static"
  | .fields => "source.fields"
  | .timestamp => "source.timestamp"
  | .visibility => "source.visibility"
  | .multiline => "source.multiline"
  | .url => "output.url"
  | .tls => "output.tls"
  | .queueMaxBytes => "output.queue_max_bytes"
  | .database => "output.database"
  | .lateness => "output.watermark_floor_ms/ceiling_ms"

structure ReloadReport where
  applied : List Applied
  restartRequired : List Restart
deriving DecidableEq, Repr

/-- How long the report waits, in seconds; zero turns it off. -/
def rpoWait (secs : Nat) : Nat := if secs = 0 then 2 ^ 64 - 1 else secs

/-- An entry of the report, if there is a reason for it. -/
def entry {α : Type} (reason : Bool) (e : α) : List α := if reason then [e] else []

@[simp] theorem mem_entry {α : Type} {reason : Bool} {e e' : α} :
    e' ∈ entry reason e ↔ reason = true ∧ e' = e := by
  cases reason <;> simp [entry]

/-- `compile_redacts`: the rules, if each pattern compiles. -/
def compileRedacts (p : Platform) (rules : List Redact) : Option (List Redact) :=
  if rules.all fun rd => p.compiles rd.pattern then some rules else none

/-- The schema a source keeps from its start, against the one of the file. -/
def frozen (source ns : SourceTable) : List Restart :=
  [entry (ns.table ≠ source.table) .table, entry (ns.tags ≠ source.tags) .tags,
    entry (ns.tagsStatic ≠ source.tagsStatic) .tagsStatic,
    entry (ns.fields ≠ source.fields) .fields,
    entry (ns.timestamp ≠ source.timestamp) .timestamp,
    entry (ns.visibility ≠ source.visibility) .visibility,
    entry (ns.multiline ≠ source.multiline) .multiline].flatten

/-- The source of the same name; its patterns are compiled before anything is
changed. -/
def applySource (p : Platform) (source ns : SourceTable) (r : Reloadable) :
    Option (ReloadReport × Reloadable) :=
  if ns.name = source.name ∧ ns.path = source.path ∧ ns.parser = source.parser then
    (compileRedacts p ns.redact).map fun redacts =>
      ({ applied := [.transforms], restartRequired := frozen source ns },
        { r with filters := ns.filter, samples := ns.sample, redacts })
  else some ({ applied := [], restartRequired := [.identity] }, r)

/-- The knobs of `[output]` the loop reads at each pass. -/
def retuned (new : Output) (r : Reloadable) : List Applied :=
  [entry (new.batchLines ≠ r.batchLines) (.batchLines new.batchLines),
    entry (new.maxInflight ≠ r.maxInflight) (.maxInflight new.maxInflight),
    entry (new.watermarkEverySecs ≠ r.watermarkEvery) (.watermarkEverySecs new.watermarkEverySecs),
    entry (rpoWait new.rpoReportSecs ≠ r.rpoEvery) (.rpoReportSecs new.rpoReportSecs)].flatten

def Reloadable.retune (r : Reloadable) (new : Output) : Reloadable :=
  { r with
    batchLines := new.batchLines
    maxInflight := new.maxInflight
    watermarkEvery := new.watermarkEverySecs
    rpoEvery := rpoWait new.rpoReportSecs }

/-- What of `[output]` is taken at boot. -/
def captured (current new : Output) : List Restart :=
  [entry (new.url ≠ current.url) .url, entry (new.tls ≠ current.tls) .tls,
    entry (new.queueMaxBytes ≠ current.queueMaxBytes) .queueMaxBytes,
    entry (new.database ≠ current.database) .database,
    entry (new.watermarkFloorMs ≠ current.watermarkFloorMs
      ∨ new.watermarkCeilingMs ≠ current.watermarkCeilingMs) .lateness].flatten

/-- The source of that name. -/
def named (f : File) (name : Text) : Option SourceTable :=
  f.sources.find? fun src => decide (src.name = name)

/-- The half of `apply_reload` that is about the source. -/
def reloadSource (p : Platform) (source : SourceTable) (new : File) (r : Reloadable) :
    Option (ReloadReport × Reloadable) :=
  match named new source.name with
  | none => some ({ applied := [], restartRequired := [.removed] }, r)
  | some ns => applySource p source ns r

/-- `apply_reload`. -/
def applyReload (p : Platform) (source : SourceTable) (current new : File) (r : Reloadable) :
    Option (ReloadReport × Reloadable) :=
  (reloadSource p source new r).map fun made =>
    ({ applied := made.1.applied ++ retuned new.output made.2
       restartRequired := made.1.restartRequired ++ captured current.output new.output },
      made.2.retune new.output)

/-- A tail of one file: the configuration and the source it was started with, and
the slice a reload changes. -/
structure Tail where
  cfg : File
  source : SourceTable
  knobs : Reloadable

def Tail.start (cfg : File) (source : SourceTable) : Tail :=
  { cfg, source
    knobs :=
      { filters := source.filter, samples := source.sample, redacts := source.redact
        batchLines := cfg.output.batchLines, maxInflight := cfg.output.maxInflight
        watermarkEvery := cfg.output.watermarkEverySecs
        rpoEvery := rpoWait cfg.output.rpoReportSecs } }

/-- `reload_config`: a file that does not load, or a pattern that does not compile,
changes nothing. -/
def Tail.reloadConfig (p : Platform) (f : File) (t : Tail) : Option ReloadReport × Tail :=
  match load p f with
  | .error _ => (none, t)
  | .ok new =>
      match applyReload p t.source t.cfg new t.knobs with
      | none => (none, t)
      | some (report, knobs) => (some report, { t with knobs })

/-! ## The sources -/

/-- The source of a child: the template's, with its own name and path, and the labels
of its pod if there are labels to look for. -/
def childSource (template : SourceTable) (path : Path) (labels : List (Text × Text)) :
    SourceTable :=
  let allowlist := (template.kubernetes.map Kubernetes.labels).getD []
  let synth := syntheticSource template.entry.source (if allowlist = [] then [] else labels) path
  { template with name := synth.name, path := synth.path, tagsStatic := synth.tagsStatic }

/-- A file that a glob source tails. -/
structure Child where
  path : Path
  labels : List (Text × Text)
  tail : Tail

/-- A task of the coordinator. -/
inductive Task where
  | tail (t : Tail)
  | glob (cfg : File) (template : SourceTable) (children : List Child)

def Task.source : Task → SourceTable
  | .tail t => t.source
  | .glob _ template _ => template

def Task.cfg : Task → File
  | .tail t => t.cfg
  | .glob cfg _ _ => cfg

def Task.name (t : Task) : Text := t.source.name

/-- `spawn_source`. -/
def Task.start (cfg : File) (source : SourceTable) : Task :=
  if isGlob source.path then .glob cfg source [] else .tail (Tail.start cfg source)

/-- The pass of a task that sees the new generation: only a tail reloads itself. -/
def Task.pass (p : Platform) (f : File) : Task → Option ReloadReport × Task
  | .tail t => ((t.reloadConfig p f).1, .tail (t.reloadConfig p f).2)
  | .glob cfg template children => (none, .glob cfg template children)

/-- `spawn_glob_child`, for a path that is not tailed yet. -/
def Task.adopt (path : Path) (labels : List (Text × Text)) : Task → Task
  | .tail t => .tail t
  | .glob cfg template children =>
      let key := streamId template.name path
      if children.any fun c => decide (streamId template.name c.path = key) then
        .glob cfg template children
      else
        .glob cfg template
          (children ++ [⟨path, labels, Tail.start cfg (childSource template path labels)⟩])

def Task.retire (key : Text) : Task → Task
  | .tail t => .tail t
  | .glob cfg template children =>
      .glob cfg template (children.filter fun c => decide (streamId template.name c.path ≠ key))

/-- The agent: what `main` has built from the file it was started on (the shipper,
the receiver, the collector, the listener and the log), and the sources it runs. -/
structure Agent where
  boot : File
  running : List Task

def Agent.start (boot : File) : Agent := ⟨boot, boot.sources.map (Task.start boot)⟩

/-- The source set after the diff. -/
def sourceSet (running : List Task) (new : File) : List Task :=
  let (removed, added) := Coordinator.diffSourceSet (running.map Task.name) new.names
  running.filter (fun t => decide (t.name ∉ removed))
    ++ added.filterMap fun i => new.sources[i]?.map (Task.start new)

/-- A SIGHUP, up to the next pass of every loop: the agent after it and the reports,
each with the name of its source. It is refused if the file does not load. -/
def sighup (p : Platform) (a : Agent) (f : File) : Option (Agent × List (Text × ReloadReport)) :=
  match load p f with
  | .error _ => none
  | .ok new =>
      let running := sourceSet a.running new
      some ({ a with running := running.map fun t => (t.pass p f).2 },
        running.filterMap fun t => (t.pass p f).1.map (t.name, ·))

inductive Event where
  /-- a SIGHUP, with the file as it parsed -/
  | hup (f : File)
  /-- a source has returned -/
  | finish (name : Text)
  /-- a glob source comes on a file -/
  | adopt (name : Text) (path : Path) (labels : List (Text × Text))
  /-- the tail of a child has joined -/
  | retire (name key : Text)

def onTask (name : Text) (g : Task → Task) (a : Agent) : Agent :=
  { a with running := a.running.map fun t => if t.name = name then g t else t }

def step (p : Platform) (a : Agent) : Event → Option Agent
  | .hup f => some ((sighup p a f).elim a (·.1))
  | .finish name => some { a with running := a.running.filter fun t => decide (t.name ≠ name) }
  | .adopt name path labels => some (onTask name (Task.adopt path labels) a)
  | .retire name key => some (onTask name (Task.retire key) a)

end Tributary.Config.Reload
