import Tributary.Config.File
import Tributary.Glob.Children

/-!
# Starting what a file configures

A file that loads should start. What `main` and the tasks it spawns still check is
compared with what loading has checked, and the loops with the knobs they run on.
Calls to the operating system are taken to succeed, but for a listener on an
address that is taken; so are those that open a file under a name with a NUL in
it, which no system has.
-/

namespace Tributary.Config

open Map Glob

/-! ## What is configured -/

inductive Pipeline where
  | log (l : Log)
  | telemetry (t : Telemetry)
  | metrics (m : Metrics)
  | exec (m : Metrics) (e : Exec)
  | otlp (o : Otlp)
  | source (t : SourceTable)
deriving DecidableEq, Repr

/-- What `main` starts before it looks at the sources. -/
def File.sections (f : File) : List Pipeline :=
  f.log.toList.map .log ++ f.telemetry.toList.map .telemetry
    ++ f.metrics.toList.flatMap fun m => m.exec.map (.exec m) ++ [.metrics m]

/-- The machine the agent starts on. -/
structure Host (α : Type) extends Platform where
  /-- `str::parse::<SocketAddr>` -/
  socketAddr : Text → Option α
  /-- the second address cannot be bound while the first is listened on -/
  inUse : α → α → Bool

inductive StartError where
  /-- `[log].rotate_size` is not a size -/
  | rotateSize (s : Text)
  /-- `[log].rotate_every` is not a duration -/
  | rotateEvery (s : Text)
  /-- `[log]` sets neither -/
  | unbounded
  /-- not a host:port address -/
  | address (s : Text)
  /-- cannot bind -/
  | inUse
  | duration (e : FileError)
  /-- `tokio::time::interval` panics on a period of zero -/
  | zeroPeriod
  /-- not a valid regex -/
  | pattern (s : Text)
  /-- `Source::resolution` panics -/
  | resolution
  /-- `Vec::with_capacity` panics -/
  | capacity
  /-- the binary was built without the reader of the source -/
  | notBuilt
deriving DecidableEq, Repr

section

variable {α : Type}

/-- `Log::parsed`. -/
def logStart (l : Log) : Except StartError Unit :=
  match l.rotateSize.filter fun s => (parseSize s).isNone,
      l.rotateEvery.filter fun s => (parseDuration s).isNone with
  | some s, _ => .error (.rotateSize s)
  | none, some s => .error (.rotateEvery s)
  | none, none => if l.rotateSize = none ∧ l.rotateEvery = none then .error .unbounded else .ok ()

def telemetryStart (h : Host α) (t : Telemetry) : Except StartError Unit :=
  if (h.socketAddr t.addr).isSome then .ok () else .error (.address t.addr)

/-- `otlp::run`, with the telemetry listener bound. -/
def otlpStart (h : Host α) (telemetry : Option Telemetry) (o : Otlp) : Except StartError Unit :=
  match h.socketAddr o.listen with
  | none => .error (.address o.listen)
  | some addr =>
      if (telemetry.bind fun t => h.socketAddr t.addr).any (h.inUse · addr) then .error .inUse
      else .ok ()

def period (d : Nat) : Except StartError Unit := if d = 0 then .error .zeroPeriod else .ok ()

/-- `metrics::run`. -/
def metricsStart (m : Metrics) : Except StartError Unit := do
  let interval ← m.intervalParsed.mapError .duration
  period interval

/-- `run_exec`, which `metrics::run` spawns. -/
def execStart (m : Metrics) (e : Exec) : Except StartError Unit := do
  let default ← m.intervalParsed.mapError .duration
  let interval ← (e.intervalParsed default).mapError .duration
  period interval

/-- `Regex::new`. -/
def regex (p : Platform) (pattern : Text) : Except StartError Unit :=
  if p.compiles pattern then .ok () else .error (.pattern pattern)

def resolutionStart (t : SourceTable) : Except StartError Unit :=
  if t.timestamp.parsed.isSome then .ok () else .error .resolution

/-- A reassembler takes no pattern, `Joiner::new` compiles one. -/
def framerStart (p : Platform) (t : SourceTable) : Except StartError Unit :=
  match t.parser with
  | .dockerJson | .cri => .ok ()
  | _ => (t.multiline.toList.map Multiline.startsWith).forM (regex p)

/-- `Vec::<String>::with_capacity`: 24 bytes for each, and no more than
`isize::MAX`. -/
def batchStart (o : Output) : Except StartError Unit :=
  if o.batchLines * 24 < 2 ^ 63 then .ok () else .error .capacity

/-- `run_file_source`, up to its loop. -/
def tailStart (p : Platform) (o : Output) (t : SourceTable) : Except StartError Unit := do
  (t.redact.map (·.pattern)).forM (regex p)
  resolutionStart t
  framerStart p t
  batchStart o

/-- `spawn_source`: a tail, or one for each file a glob matches. -/
def sourceStart (p : Platform) (o : Output) (readDir : ReadDir) (t : SourceTable) :
    Except StartError Unit :=
  if isGlob t.path then
    (globMatches readDir t.path).forM fun path =>
      tailStart p o { t with name := childName (t.source .millis) path, path := path.text }
  else tailStart p o t

/-- `run_journald_source`. -/
def journaldStart (p : Platform) (t : SourceTable) : Except StartError Unit := do
  if p.journald then resolutionStart t else .error .notBuilt

/-- `run_winlog_source`: behind the feature and the target. -/
def winlogStart (p : Platform) (t : SourceTable) : Except StartError Unit := do
  if p.winlog && p.windows then resolutionStart t else .error .notBuilt

/-- A pull source has a reader of its own, another is tailed. -/
def inputStart (h : Host α) (readDir : ReadDir) (o : Output) (t : SourceTable) :
    Except StartError Unit :=
  match t.parser with
  | .journald => journaldStart h.toPlatform t
  | .winlog => winlogStart h.toPlatform t
  | _ => sourceStart h.toPlatform o readDir t

/-- A pipeline started by `main`. -/
def start (h : Host α) (readDir : ReadDir) (f : File) : Pipeline → Except StartError Unit
  | .log l => logStart l
  | .telemetry t => telemetryStart h t
  | .metrics m => metricsStart m
  | .exec m e => execStart m e
  | .otlp o => otlpStart h f.telemetry o
  | .source t => inputStart h readDir f.output t

/-- What `main` tries, in its order. -/
structure Attempt where
  pipeline : Pipeline
  /-- an error ends the agent; otherwise it is logged -/
  needed : Bool

/-- The receiver and the metrics are tasks of their own. -/
def Pipeline.attempt : Pipeline → Attempt
  | .metrics m => ⟨.metrics m, false⟩
  | .exec m e => ⟨.exec m e, false⟩
  | .otlp o => ⟨.otlp o, false⟩
  | q => ⟨q, true⟩

def File.attempts (f : File) : List Attempt :=
  f.sections.map Pipeline.attempt
    ++ match f.sources with
      | [] => f.otlp.toList.map (⟨.otlp ·, true⟩)
      | first :: _ =>
          -- the early return of a pull source
          if first.pulls then [⟨.source first, true⟩]
          else (f.otlp.toList.map Pipeline.otlp ++ f.sources.map Pipeline.source).map Pipeline.attempt

/-- The pipelines that come up. -/
def bootAll (run : Pipeline → Except StartError Unit) : List Attempt → List Pipeline
  | [] => []
  | a :: as =>
      match run a.pipeline with
      | .ok () => a.pipeline :: bootAll run as
      | .error _ => if a.needed then [] else bootAll run as

def boot (h : Host α) (readDir : ReadDir) (f : File) : List Pipeline :=
  bootAll (start h readDir f) f.attempts

/-! ## Going round -/

/-- A tail of the source can be started: its glob matches something somewhere. -/
def SourceTable.Tails (t : SourceTable) : Prop :=
  isGlob t.path = true → ∃ readDir, globMatches readDir t.path ≠ []

variable {h : Host α} {f : File} {p : Platform} {o : Output} {t : SourceTable}

/-! ### Loops -/

theorem regexes_iff (patterns : List Text) :
    patterns.forM (regex p) = .ok () ↔ ∀ s ∈ patterns, p.compiles s = true := by
  rw [forM_eq_ok]
  refine forall₂_congr fun s _ => ?_
  unfold regex
  split <;> simp [*]

theorem framerStart_iff : framerStart p t = .ok () ↔
    (t.parser ≠ .dockerJson → t.parser ≠ .cri → ∀ m ∈ t.multiline, p.compiles m.startsWith = true) := by
  unfold framerStart
  split
  · rename_i hdocker
    simp [hdocker]
  · rename_i hcri
    simp [hcri]
  · rename_i hdocker hcri
    have hpatterns : (t.multiline.toList.map Multiline.startsWith).forM (regex p) = .ok ()
        ↔ ∀ m ∈ t.multiline, p.compiles m.startsWith = true := by
      rw [regexes_iff]
      simp
    exact hpatterns.trans ⟨fun hall _ _ => hall, fun hall => hall hdocker hcri⟩

theorem batchStart_iff : batchStart o = .ok () ↔ o.batchLines * 24 < 2 ^ 63 := by
  unfold batchStart
  split
  · rename_i hfits
    exact iff_of_true rfl hfits
  · rename_i hbig
    exact iff_of_false (fun h => nomatch h) hbig

/-- Of what a tail needs, loading has not checked the pattern that starts a record,
and the size of a batch. -/
theorem tailStart_iff (hc : Checked p f) (ht : t ∈ f.sources) : tailStart p o t = .ok () ↔
    (t.parser ≠ .dockerJson → t.parser ≠ .cri → ∀ m ∈ t.multiline, p.compiles m.startsWith = true)
      ∧ o.batchLines * 24 < 2 ^ 63 := by
  have hredact : (t.redact.map (·.pattern)).forM (regex p) = .ok () := by
    rw [regexes_iff]
    intro s hs
    obtain ⟨rd, hrd, rfl⟩ := List.mem_map.mp hs
    exact hc.patterns ht rd hrd
  have hresolution : resolutionStart t = .ok () := if_pos (hc.resolution ht)
  have hstart : tailStart p o t = (framerStart p t >>= fun _ => batchStart o) := by
    unfold tailStart
    rw [hredact, hresolution]
    rfl
  rw [hstart, bind_eq_ok, ← framerStart_iff, ← batchStart_iff]
  exact ⟨fun ⟨_, hframer, hbatch⟩ => ⟨hframer, hbatch⟩, fun ⟨hframer, hbatch⟩ => ⟨(), hframer, hbatch⟩⟩

/-- A source starts whatever files there are if its tails do. -/
theorem sourceStart_iff :
    (∀ readDir, sourceStart p o readDir t = .ok ()) ↔ (t.Tails → tailStart p o t = .ok ()) := by
  by_cases hglob : isGlob t.path = true
  · have hstart : ∀ readDir, sourceStart p o readDir t = .ok ()
        ↔ (globMatches readDir t.path ≠ [] → tailStart p o t = .ok ()) := by
      intro readDir
      rw [sourceStart, if_pos hglob, forM_eq_ok]
      -- a child has the checks of its template
      constructor
      · intro hall hne
        obtain ⟨path, hpath⟩ := List.exists_mem_of_ne_nil _ hne
        exact hall path hpath
      · intro htail path hpath
        exact htail (List.ne_nil_of_mem hpath)
    constructor
    · intro hall htails
      obtain ⟨readDir, hne⟩ := htails hglob
      exact (hstart readDir).mp (hall readDir) hne
    · exact fun htail readDir => (hstart readDir).mpr fun hne => htail fun _ => ⟨readDir, hne⟩
  · have hstart : ∀ readDir, sourceStart p o readDir t = tailStart p o t := fun _ => if_neg hglob
    constructor
    · exact fun hall _ => hstart (fun _ => none) ▸ hall fun _ => none
    · exact fun htail readDir => hstart readDir ▸ htail fun h => absurd h hglob

theorem pulls_iff : t.pulls = true ↔ t.parser = .journald ∨ t.parser = .winlog := by
  simp [SourceTable.pulls]

/-- A pull source is the only source. -/
theorem Checked.only (hc : Checked p f) (ht : t ∈ f.sources) (hpulls : t.pulls = true) :
    f.sources = [t] := by
  have hlen : ¬ 1 < f.sources.length := by
    intro hmany
    have halone := hc.alone hmany t ht
    unfold checkAlone at halone
    have hentry : t.entry.source.parser = t.parser := rfl
    rw [hentry] at halone
    rcases pulls_iff.mp hpulls with hparser | hparser <;> simp [hparser] at halone
  match f.sources, ht, hlen with
  | [x], ht, _ => rw [List.mem_singleton.mp ht]
  | [], ht, _ => exact absurd ht List.not_mem_nil
  | _ :: _ :: _, _, hlen => exact absurd (by simp) hlen

end

end Tributary.Config
