import Tributary.Config

/-!
# A configuration file

The sections of the file and their fields, once it has parsed as TOML, and what
`Config::load` does with them: static tags are expanded, and each section is
checked in the order of the source.
-/

namespace Tributary.Config

open Map Transform

/-! ## Sections -/

structure Tls where
  caFile : Option Text
  certFile : Option Text
  keyFile : Option Text
  refreshSecs : Nat
deriving DecidableEq, Repr

/-- `[output]`. -/
structure Output where
  url : Text
  database : Text
  batchLines : Nat
  gzip : Bool
  tokenFile : Option Text
  queueMaxBytes : Nat
  maxInflight : Nat
  watermarkFloorMs : Nat
  watermarkCeilingMs : Nat
  watermarkTable : Text
  watermarkEverySecs : Nat
  tls : Option Tls
  /-- zero turns the report off -/
  rpoReportSecs : Nat
deriving DecidableEq, Repr

/-- `[log]`. -/
structure Log where
  file : Text
  rotateSize : Option Text
  rotateEvery : Option Text
  keep : Option Nat
deriving DecidableEq, Repr

/-- `[telemetry]`. -/
structure Telemetry where
  addr : Text
deriving DecidableEq, Repr

/-- `[otlp]`. -/
structure Otlp where
  listen : Text
  name : Text
  table : Text
  tags : List Text
  tagsStatic : List (Text × Text)
  fields : List (Text × FieldType)
  visibility : Option Text
deriving DecidableEq, Repr

inductive FieldValue where
  | bool (b : Bool)
  | integer (n : Int)
  | float (f : F64)
  | str (s : Text)
deriving DecidableEq, Repr

/-- `[[metrics.exec]]`. -/
structure Exec where
  command : List Text
  interval : Option Text
  timeout : Option Text
  dataFormat : Option Text
deriving DecidableEq, Repr

/-- `[metrics]`. -/
structure Metrics where
  interval : Text
  collectors : List Text
  host : Option Text
  globalTags : List (Text × Text)
  staticFields : List (Text × FieldValue)
  exec : List Exec
deriving DecidableEq, Repr

structure Multiline where
  startsWith : Text
  maxLines : Nat
  maxBytes : Nat
  timeoutMs : Nat
deriving DecidableEq, Repr

structure Kubernetes where
  labels : List Text
  labelFile : Option Text
deriving DecidableEq, Repr

/-- `[source.timestamp]`, with the resolution as the file spells it. -/
structure TimestampTable where
  field : Option Text
  format : Text
  resolution : Text
deriving DecidableEq, Repr

/-- One `[[source]]`, with everything the file says of it. -/
structure SourceTable where
  name : Text
  path : Text
  table : Text
  parser : Parser
  timestamp : TimestampTable
  tags : List Text
  tagsStatic : List (Text × Text)
  fields : List (Text × FieldType)
  visibility : Option Text
  multiline : Option Multiline
  filter : List Filter
  sample : List Sample
  redact : List Redact
  kubernetes : Option Kubernetes
deriving DecidableEq, Repr

/-- The whole file. -/
structure File where
  output : Output
  sources : List SourceTable
  telemetry : Option Telemetry
  log : Option Log
  otlp : Option Otlp
  metrics : Option Metrics
deriving DecidableEq, Repr

def File.names (f : File) : List Text := f.sources.map SourceTable.name

def TimestampTable.parsed (t : TimestampTable) : Option Resolution :=
  Resolution.parse (String.ofList t.resolution)

/-- The part of it that mapping reads. -/
def SourceTable.source (t : SourceTable) (resolution : Resolution) : Source :=
  { name := t.name, path := t.path, table := t.table, parser := t.parser
    timestamp := { field := t.timestamp.field, format := t.timestamp.format, resolution }
    tags := t.tags, tagsStatic := t.tagsStatic, fields := t.fields, visibility := t.visibility
    kubernetes := t.kubernetes.isSome }

/-- The part of it that the checks of `read` look at; the resolution is no matter
of theirs. -/
def SourceTable.entry (t : SourceTable) : Entry :=
  { source := t.source (t.timestamp.parsed.getD .millis), multiline := t.multiline.isSome
    filter := t.filter, sample := t.sample, redact := t.redact }

/-- A pull source: it reads entries behind a cursor and tails no file. -/
def SourceTable.pulls (t : SourceTable) : Bool :=
  t.parser = .journald || t.parser = .winlog

/-! ## Sizes and durations -/

/-- `str::parse::<u64>`. -/
def parseU64 (t : Text) : Option Nat :=
  let ds := match t with
    | '+' :: rest => rest
    | rest => rest
  if ds ≠ [] ∧ ds.all Char.isDigit then
    let n := ds.foldl (fun acc c => acc * 10 + (c.toNat - 48)) 0
    if n < 2 ^ 64 then some n else none
  else none

/-- A number above zero before a unit; the product is that of `u64`. -/
def scaled (num : Text) (mult : Nat) : Option Nat :=
  (parseU64 num.trim).bind fun n => if 0 < n then some (n * mult % 2 ^ 64) else none

/-- The first unit the text ends in. -/
def unit (t : Text) : List (String × Nat) → Text × Nat
  | [] => (t, 1)
  | (suffix, mult) :: units =>
      match K8s.stripSuffix t suffix.toList with
      | some num => (num, mult)
      | none => unit t units

/-- `parse_size`. -/
def parseSize (s : Text) : Option Nat :=
  let (num, mult) := unit s.trim [("GiB", 1024 ^ 3), ("MiB", 1024 ^ 2), ("KiB", 1024),
    ("GB", 1000000000), ("MB", 1000000), ("KB", 1000), ("B", 1)]
  scaled num mult

/-- `parse_duration`, in seconds. -/
def parseDuration (s : Text) : Option Nat :=
  if s.trim = [] then none
  else
    let (num, mult) := unit s.trim [("d", 86400), ("h", 3600), ("m", 60), ("s", 1)]
    scaled num mult

/-! ## Loading -/

/-- What loading asks of the machine. -/
structure Platform where
  /-- the `journald` feature -/
  journald : Bool
  /-- the `winlog` feature -/
  winlog : Bool
  /-- built for Windows -/
  windows : Bool
  /-- the regex library compiles the pattern -/
  compiles : Text → Bool
  /-- the environment -/
  env : Text → Option Text

inductive FileError where
  | source (e : ReadError)
  /-- an unterminated reference in a tag value -/
  | unterminated (value : Text)
  /-- a tag value references a variable that is not set -/
  | unset (var : Text)
  /-- `[metrics].interval` is not a duration -/
  | metricsInterval (interval : Text)
  /-- `[metrics]` has no collectors and no exec -/
  | noCollectors
  | unknownCollector (name : Text)
  /-- an exec with an empty command -/
  | emptyCommand
  | execInterval (interval : Text)
  | execTimeout (timeout : Text)
  /-- only line protocol is supported -/
  | dataFormat (format : Text)
  | otlpListen
  | otlpTable
  | otlpName
  /-- a client certificate needs both files -/
  | certWithoutKey
  | keyWithoutCert
  /-- the certificate would never be presented -/
  | certOverHttp
  /-- not one of the resolutions -/
  | resolution (name resolution : Text)
deriving DecidableEq, Repr

/-- What stands before the first reference, and after its opening brace. -/
def findReference : Text → Option (Text × Text)
  | '$' :: '\x7b' :: rest => some ([], rest)
  | c :: rest => (findReference rest).map fun p => (c :: p.1, p.2)
  | [] => none

def expandFrom (env : Text → Option Text) (value : Text) : Nat → Text → Except FileError Text
  | 0, rest => .ok rest
  | fuel + 1, rest =>
      match findReference rest with
      | none => .ok rest
      | some (before, after) =>
          if '\x7d' ∈ after then
            let var := after.takeWhile (· ≠ '\x7d')
            match env var with
            | none => .error (.unset var)
            | some val =>
                (expandFrom env value fuel (after.dropWhile (· ≠ '\x7d')).tail).map
                  fun t => before ++ val ++ t
          else .error (.unterminated value)

/-- `expand_env_into`, where an unset variable is an error. Each turn passes a
reference, so the length is turns enough. -/
def expandEnv (env : Text → Option Text) (value : Text) : Except FileError Text :=
  expandFrom env value value.length value

def expandTags (env : Text → Option Text) (t : SourceTable) : Except FileError SourceTable := do
  let tagsStatic ← t.tagsStatic.mapM fun kv => (expandEnv env kv.2).map (kv.1, ·)
  .ok { t with tagsStatic }

def Metrics.intervalParsed (m : Metrics) : Except FileError Nat :=
  match parseDuration m.interval with
  | some d => .ok d
  | none => .error (.metricsInterval m.interval)

def Exec.intervalParsed (e : Exec) (default : Nat) : Except FileError Nat :=
  match e.interval with
  | none => .ok default
  | some s =>
      match parseDuration s with
      | some d => .ok d
      | none => .error (.execInterval s)

def Exec.timeoutParsed (e : Exec) : Except FileError Nat :=
  match e.timeout with
  | none => .ok 5
  | some s =>
      match parseDuration s with
      | some d => .ok d
      | none => .error (.execTimeout s)

def KNOWN_COLLECTORS : List Text :=
  ["cpu", "mem", "disk", "diskio", "net", "system", "swap"].map String.toList

def checkCollector (c : Text) : Except FileError Unit :=
  if c ∈ KNOWN_COLLECTORS then .ok () else .error (.unknownCollector c)

def checkCommand (e : Exec) : Except FileError Unit :=
  if (e.command.headD []).trim = [] then .error .emptyCommand else .ok ()

def checkDataFormat (e : Exec) : Except FileError Unit :=
  match e.dataFormat with
  | none => .ok ()
  | some format =>
      if format.map Char.toLower ∈ ["influx", "lp", "line-protocol"].map String.toList then .ok ()
      else .error (.dataFormat format)

def checkExec (default : Nat) (e : Exec) : Except FileError Unit := do
  checkCommand e
  let _ ← e.intervalParsed default
  let _ ← e.timeoutParsed
  checkDataFormat e

def checkCollects (m : Metrics) : Except FileError Unit :=
  if m.collectors = [] ∧ m.exec = [] then .error .noCollectors else .ok ()

/-- `Metrics::validate`. -/
def checkMetrics (m : Metrics) : Except FileError Unit := do
  let default ← m.intervalParsed
  checkCollects m
  m.collectors.forM checkCollector
  m.exec.forM (checkExec default)

def checkOtlp (o : Otlp) : Except FileError Unit :=
  if o.listen.trim = [] then .error .otlpListen
  else if o.table.trim = [] then .error .otlpTable
  else if o.name.trim = [] then .error .otlpName
  else .ok ()

/-- `Tls::validate`, and no certificate over plain HTTP. -/
def checkTls (url : Text) (t : Tls) : Except FileError Unit :=
  match t.certFile, t.keyFile with
  | some _, none => .error .certWithoutKey
  | none, some _ => .error .keyWithoutCert
  | some _, some _ =>
      if "http://".toList.isPrefixOf url then .error .certOverHttp else .ok ()
  | none, none => .ok ()

def checkResolution (t : SourceTable) : Except FileError Unit :=
  if t.timestamp.parsed.isSome then .ok ()
  else .error (.resolution t.name t.timestamp.resolution)

/-- What the checks of the sources look at beside them. -/
def Platform.build (p : Platform) (f : File) : Build :=
  { journald := p.journald, winlog := p.winlog, others := f.otlp.isSome || f.metrics.isSome
    compiles := p.compiles }

def ofRead (r : Except ReadError Unit) : Except FileError Unit := r.mapError .source

/-- What a source says of its lines. -/
def checkSource (b : Build) (t : SourceTable) : Except FileError Unit := do
  ofRead (checkFraming t.entry)
  checkResolution t
  ofRead (t.filter.forM (checkFilter t.entry))
  ofRead (t.sample.forM (checkSample t.entry))
  ofRead (t.redact.forM (checkRedact b t.entry))

/-- There is something to do. -/
def checkSome (f : File) : Except FileError Unit :=
  if f.sources = [] ∧ f.otlp = none ∧ f.metrics = none then .error (.source .nothing) else .ok ()

/-- What several sources must not do. -/
def checkMany (sources : List SourceTable) : Except FileError Unit :=
  if 1 < sources.length then do
    sources.forM fun t => ofRead (checkAlone t.entry)
    ofRead (checkNames [] (sources.map SourceTable.entry))
  else .ok ()

/-- The checks of `Config::read`, in its order. -/
def check (p : Platform) (f : File) : Except FileError Unit := do
  checkSome f
  f.metrics.toList.forM checkMetrics
  f.otlp.toList.forM checkOtlp
  f.sources.forM fun t => ofRead (checkInput (p.build f) t.entry)
  checkMany f.sources
  f.output.tls.toList.forM (checkTls f.output.url)
  f.sources.forM (checkSource (p.build f))

/-- `Config::load`, of a file that has parsed. -/
def load (p : Platform) (f : File) : Except FileError File := do
  let sources ← f.sources.mapM (expandTags p.env)
  check p { f with sources }
  .ok { f with sources }

/-! ## What a file that loads has -/

variable {p : Platform} {f cfg : File}

theorem forM_eq_ok {ε α : Type} {xs : List α} {g : α → Except ε Unit} :
    xs.forM g = .ok () ↔ ∀ x ∈ xs, g x = .ok () := by
  induction xs with
  | nil => simp [pure, Except.pure]
  | cons x xs ih =>
      have hcons : (x :: xs).forM g = (g x >>= fun _ => xs.forM g) := rfl
      rw [hcons, bind_eq_ok, List.forall_mem_cons]
      exact ⟨fun ⟨_, hx, hxs⟩ => ⟨hx, ih.mp hxs⟩, fun ⟨hx, hxs⟩ => ⟨(), hx, ih.mpr hxs⟩⟩

theorem ofRead_eq_ok {r : Except ReadError Unit} : ofRead r = .ok () ↔ r = .ok () := by
  cases r <;> simp [ofRead, Except.mapError]

/-- A file that loads has passed every check. -/
theorem check_of_load (h : load p f = .ok cfg) : check p cfg = .ok () := by
  obtain ⟨sources, -, h⟩ := bind_eq_ok.mp h
  obtain ⟨⟨⟩, hcheck, h⟩ := bind_eq_ok.mp h
  exact Except.ok.inj h ▸ hcheck

/-- A check that is made of nothing or of one section. -/
theorem forM_toList_eq_ok {ε α : Type} {o : Option α} {g : α → Except ε Unit} :
    o.toList.forM g = .ok () ↔ ∀ x ∈ o, g x = .ok () := by
  rw [forM_eq_ok]
  simp

/-- What the checks leave. -/
structure Checked (p : Platform) (f : File) : Prop where
  metrics : ∀ m ∈ f.metrics, checkMetrics m = .ok ()
  input : ∀ t ∈ f.sources, checkInput (p.build f) t.entry = .ok ()
  alone : 1 < f.sources.length → ∀ t ∈ f.sources, checkAlone t.entry = .ok ()
  names : (f.sources.map SourceTable.name).Nodup
  source : ∀ t ∈ f.sources, checkSource (p.build f) t = .ok ()

theorem checkMany_eq_ok {sources : List SourceTable} (h : checkMany sources = .ok ()) :
    (1 < sources.length → ∀ t ∈ sources, checkAlone t.entry = .ok ()) ∧
      (sources.map SourceTable.name).Nodup := by
  unfold checkMany at h
  split at h
  · obtain ⟨⟨⟩, halone, hnames⟩ := bind_eq_ok.mp h
    refine ⟨fun _ t ht => ofRead_eq_ok.mp (forM_eq_ok.mp halone t ht), ?_⟩
    have hnodup := (checkNames_eq_ok.mp (ofRead_eq_ok.mp hnames)).1
    rwa [List.map_map] at hnodup
  · rename_i hlen
    refine ⟨fun h => absurd h hlen, ?_⟩
    match sources, hlen with
    | [], _ => exact List.nodup_nil
    | [t], _ => exact List.nodup_singleton _
    | _ :: _ :: _, hlen => exact absurd (by simp) hlen

theorem checked_of_check (h : check p f = .ok ()) : Checked p f := by
  obtain ⟨⟨⟩, -, h⟩ := bind_eq_ok.mp h
  obtain ⟨⟨⟩, hmetrics, h⟩ := bind_eq_ok.mp h
  obtain ⟨⟨⟩, -, h⟩ := bind_eq_ok.mp h
  obtain ⟨⟨⟩, hinput, h⟩ := bind_eq_ok.mp h
  obtain ⟨⟨⟩, hmany, h⟩ := bind_eq_ok.mp h
  obtain ⟨⟨⟩, -, hsource⟩ := bind_eq_ok.mp h
  obtain ⟨halone, hnames⟩ := checkMany_eq_ok hmany
  exact
    { metrics := forM_toList_eq_ok.mp hmetrics
      input := fun t ht => ofRead_eq_ok.mp (forM_eq_ok.mp hinput t ht)
      alone := halone
      names := hnames
      source := forM_eq_ok.mp hsource }

theorem checked_of_load (h : load p f = .ok cfg) : Checked p cfg :=
  checked_of_check (check_of_load h)

theorem Checked.resolution (h : Checked p f) {t : SourceTable} (ht : t ∈ f.sources) :
    t.timestamp.parsed.isSome = true := by
  obtain ⟨⟨⟩, -, hrest⟩ := bind_eq_ok.mp (h.source t ht)
  obtain ⟨⟨⟩, hres, -⟩ := bind_eq_ok.mp hrest
  by_contra hnone
  rw [checkResolution, if_neg hnone] at hres
  cases hres

/-- The redact patterns of a file that loads compile. -/
theorem Checked.patterns (h : Checked p f) {t : SourceTable} (ht : t ∈ f.sources) :
    ∀ rd ∈ t.redact, p.compiles rd.pattern = true := by
  obtain ⟨⟨⟩, -, hrest⟩ := bind_eq_ok.mp (h.source t ht)
  obtain ⟨⟨⟩, -, hrest⟩ := bind_eq_ok.mp hrest
  obtain ⟨⟨⟩, -, hrest⟩ := bind_eq_ok.mp hrest
  obtain ⟨⟨⟩, -, hredact⟩ := bind_eq_ok.mp hrest
  intro rd hrd
  have hcheck := forM_eq_ok.mp (ofRead_eq_ok.mp hredact) rd hrd
  unfold checkRedact at hcheck
  split at hcheck
  · cases hcheck
  · split at hcheck
    · rename_i hcompiles
      exact hcompiles
    · cases hcheck

end Tributary.Config
