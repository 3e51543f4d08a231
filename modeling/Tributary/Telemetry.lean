import Mathlib.Algebra.GroupWithZero.Nat
import Tributary.Lib.Run

/-!
# Self-telemetry

Each file tail registers a snapshot when it starts and stores its figures into it once
per pass of its loop. `aggregate` sums the snapshots, and `/metrics` and `/healthz` report
the sums. A snapshot stays in the list when its tail has ended: the tail only lets go of
its own handle.
-/

namespace Tributary

/-- What one file tail reports. -/
structure SourceSnap where
  linesRead : Nat
  quarantined : Nat
  queueBytes : Nat
  queueSegments : Nat
  queueFull : Bool
  spilledTotal : Nat
  drainedTotal : Nat
  pendingLines : Nat
  inflightBatches : Nat
  unreadBytes : Nat
  filesOpen : Nat
  filesLost : Nat
  rotations : Nat
  watermarkViolations : Nat
  outOfWindow : Nat
  recordsDroppedFilter : Nat
  recordsDroppedSample : Nat
  readNs : Nat
deriving DecidableEq, Repr

def SourceSnap.default : SourceSnap :=
  { linesRead := 0, quarantined := 0, queueBytes := 0, queueSegments := 0, queueFull := false
    spilledTotal := 0, drainedTotal := 0, pendingLines := 0, inflightBatches := 0
    unreadBytes := 0, filesOpen := 0, filesLost := 0, rotations := 0, watermarkViolations := 0
    outOfWindow := 0, recordsDroppedFilter := 0, recordsDroppedSample := 0, readNs := 0 }

namespace Telemetry

/-- A tail that runs; `refused` says that the server refused the credential of its last
request. -/
structure Task where
  refused : Bool
deriving DecidableEq, Repr

/-- A registered snapshot, and the tail that stores into it while it runs. -/
structure Registered where
  snap : SourceSnap
  task : Option Task
deriving DecidableEq, Repr

end Telemetry

/-- `Telemetry`, as far as the gauges and `/healthz` go. -/
structure Telemetry where
  sources : List Telemetry.Registered
  /-- the fields `aggregate` writes -/
  total : SourceSnap
  /-- the counter of the shipper that all tails share -/
  unauthorized : Nat
  certExpiresInSecs : Int
  certHealthy : Bool
  lastTickMs : Nat
  startedMs : Nat
deriving DecidableEq, Repr

namespace Telemetry

/-- `Telemetry::new`. -/
def new (now : Nat) : Telemetry :=
  { sources := [], total := .default, unauthorized := 0, certExpiresInSecs := -1
    certHealthy := true, lastTickMs := now, startedMs := now }

/-- `register_source`, called where a tail starts. -/
def registerSource (t : Telemetry) : Telemetry :=
  { t with sources := t.sources ++ [{ snap := .default, task := some { refused := false } }] }

/-- `sum!(field)`. -/
def sum (t : Telemetry) (field : SourceSnap → Nat) : Nat :=
  (t.sources.map fun r => field r.snap).sum

def aggregate (t : Telemetry) : Telemetry :=
  { t with total := {
      linesRead := t.sum (·.linesRead)
      quarantined := t.sum (·.quarantined)
      queueBytes := t.sum (·.queueBytes)
      queueSegments := t.sum (·.queueSegments)
      -- any source is full, not a sum
      queueFull := t.sources.any fun r => r.snap.queueFull
      spilledTotal := t.sum (·.spilledTotal)
      drainedTotal := t.sum (·.drainedTotal)
      pendingLines := t.sum (·.pendingLines)
      inflightBatches := t.sum (·.inflightBatches)
      unreadBytes := t.sum (·.unreadBytes)
      filesOpen := t.sum (·.filesOpen)
      filesLost := t.sum (·.filesLost)
      rotations := t.sum (·.rotations)
      watermarkViolations := t.sum (·.watermarkViolations)
      outOfWindow := t.sum (·.outOfWindow)
      recordsDroppedFilter := t.sum (·.recordsDroppedFilter)
      recordsDroppedSample := t.sum (·.recordsDroppedSample)
      readNs := t.sum (·.readNs) } }

def sinceTickMs (t : Telemetry) (now : Nat) : Nat := now - t.lastTickMs

def uptimeSecs (t : Telemetry) (now : Nat) : Nat := (now - t.startedMs) / 1000

def atRiskLines (t : Telemetry) : Nat := t.sum (·.pendingLines)

/-! ## The health check -/

def WEDGED_AFTER_SECS : Nat := 60

/-- The fields of the answer to `/healthz`, and its status code. -/
structure Health where
  code : Nat
  status : String
  live : Bool
  shipping : Bool
  uptimeSeconds : Nat
  lastTickAgeSeconds : Nat
  queueBytes : Nat
  queueFull : Bool
  atRiskLines : Nat
  unauthorizedTotal : Nat
  credentialHealthy : Bool
  credentialExpirySeconds : Int
deriving DecidableEq, Repr

/-- `health`: it aggregates first, so the state moves on too. -/
def health (t : Telemetry) (now : Nat) : Health × Telemetry :=
  let t := t.aggregate
  let stalledSecs := t.sinceTickMs now / 1000
  let live := decide (stalledSecs < WEDGED_AFTER_SECS)
  let shipping := t.total.queueBytes == 0 && !t.total.queueFull && t.unauthorized == 0
  let status :=
    if !live then "wedged" else if shipping && t.certHealthy then "ok" else "degraded"
  ({ code := if live then 200 else 503
     status
     live
     shipping
     uptimeSeconds := t.uptimeSecs now
     lastTickAgeSeconds := stalledSecs
     queueBytes := t.total.queueBytes
     queueFull := t.total.queueFull
     atRiskLines := t.atRiskLines
     unauthorizedTotal := t.unauthorized
     credentialHealthy := t.certHealthy
     credentialExpirySeconds := t.certExpiresInSecs }, t)

/-! ## The life of the tails -/

inductive Event where
  /-- a tail starts: a source at start-up, a file a scan of a glob source finds, or finds
  again after its tail was retired -/
  | started
  /-- the tail at this place of the list stores the figures of a pass, and what the shipper
  knows of its certificate -/
  | published (i : Nat) (snap : SourceSnap) (now : Nat) (expiresInSecs : Option Int)
      (healthy : Bool)
  /-- the server answers a request of the tail; 401 and 403 refuse the credential -/
  | answered (i : Nat) (unauthorized : Bool)
  /-- the tail returns, whatever for: its file vanished, its source was removed, a
  shutdown, an error -/
  | ended (i : Nat)
  /-- a scrape of `/metrics`, or a probe of `/healthz` -/
  | rendered

/-- The tail at a place of the list, if it runs. -/
def task (t : Telemetry) (i : Nat) : Option Task := (t.sources[i]?).bind (·.task)

def step (t : Telemetry) : Event → Option Telemetry
  | .started => some t.registerSource
  | .published i snap now expiresInSecs healthy =>
      (t.task i).map fun task =>
        { t with
          sources := t.sources.set i { snap, task := some task }
          lastTickMs := now
          certExpiresInSecs := expiresInSecs.getD (-1)
          certHealthy := healthy }
  | .answered i unauthorized =>
      (t.sources[i]?).bind fun r => r.task.map fun _ =>
        { t with
          sources := t.sources.set i { r with task := some { refused := unauthorized } }
          unauthorized := if unauthorized then t.unauthorized + 1 else t.unauthorized }
  | .ended i =>
      (t.sources[i]?).bind fun r => r.task.map fun _ =>
        { t with sources := t.sources.set i { r with task := none } }
  | .rendered => some t.aggregate

end Telemetry

end Tributary
