import Tributary.Map
import Tributary.Queue
import Tributary.Stamp

/-!
# The OTLP logs receiver

A request nests resources, scopes and log records; each record is flattened to
one key-value map, mapped, stamped and encoded, and the lines of a request are
queued as one segment before it is acknowledged.
-/

namespace Tributary.Otlp

open Lp Map Queue Stamp

/-! ## The request -/

inductive AnyValue where
  | unset
  | stringValue (s : Text)
  | boolValue (b : Bool)
  | intValue (i : Int)
  | doubleValue (d : F64)
  | arrayValue (values : List AnyValue)
  | kvlistValue (values : List (Text × Option AnyValue))
  | bytesValue (b : List Nat)

structure KeyValue where
  key : Text
  value : Option AnyValue

structure Resource where
  attributes : List KeyValue

structure InstrumentationScope where
  name : Text
  version : Text
  attributes : List KeyValue

/-- One log record. The two times are `u64`. -/
structure LogRecord where
  timeUnixNano : Nat
  severityNumber : Int
  severityText : Text
  body : Option AnyValue
  attributes : List KeyValue
  observedTimeUnixNano : Nat

structure ScopeLogs where
  scope : Option InstrumentationScope
  logRecords : List LogRecord

structure ResourceLogs where
  resource : Option Resource
  scopeLogs : List ScopeLogs

structure ExportLogsServiceRequest where
  resourceLogs : List ResourceLogs

/-! ## Flattening -/

/-- A byte as two lower-case hex digits. -/
def hexByte (b : Nat) : Text := [Nat.digitChar (b / 16 % 16), Nat.digitChar (b % 16)]

mutual

def anyToJson : AnyValue → Json
  | .unset => .null
  | .stringValue s => .string s
  | .boolValue b => .bool b
  | .intValue i => .number (.int i)
  | .doubleValue d => if d.isFinite then .number (.float d) else .null
  | .bytesValue b => .string (b.flatMap hexByte)
  | .arrayValue values => .array (anysToJson values)
  | .kvlistValue values => .object (BTree.collect (kvsToJson values))

def anysToJson : List AnyValue → List Json
  | [] => []
  | v :: vs => anyToJson v :: anysToJson vs

def kvsToJson : List (Text × Option AnyValue) → List (Text × Json)
  | [] => []
  | (k, some v) :: rest => (k, anyToJson v) :: kvsToJson rest
  | (k, none) :: rest => (k, .null) :: kvsToJson rest

end

/-- The event time, else the observed time, else the clock. -/
def recordTsNs (lr : LogRecord) (now : Int) : Int :=
  if lr.timeUnixNano ≠ 0 then wrap64 lr.timeUnixNano
  else if lr.observedTimeUnixNano ≠ 0 then wrap64 lr.observedTimeUnixNano
  else now

def putAttrs (attrs : List KeyValue) (m : List (Text × Json)) : List (Text × Json) :=
  attrs.foldl (fun m kv => match kv.value with
    | some v => BTree.insert kv.key (anyToJson v) m
    | none => m) m

/-- One record with its context; the most specific value of a key wins. -/
def flatten (resource : Option Resource) (scope : Option InstrumentationScope)
    (lr : LogRecord) : List (Text × Json) :=
  let m := match resource with
    | some r => putAttrs r.attributes []
    | none => []
  let m := match scope with
    | some s =>
        putAttrs s.attributes
          (if s.name = [] then m else BTree.insert "scope.name".toList (.string s.name) m)
    | none => m
  let m := putAttrs lr.attributes m
  let m := match lr.body with
    | some body => BTree.insert "body".toList (anyToJson body) m
    | none => m
  let m := if lr.severityText = [] then m
    else BTree.insert "severity_text".toList (.string lr.severityText) m
  if lr.severityNumber = 0 then m
    else BTree.insert "severity_number".toList (.number (.int lr.severityNumber)) m

/-- The records of a request with their context, in request order. -/
def logRecords (req : ExportLogsServiceRequest) :
    List (Option Resource × Option InstrumentationScope × LogRecord) :=
  req.resourceLogs.flatMap fun rl => rl.scopeLogs.flatMap fun sl =>
    sl.logRecords.map fun lr => (rl.resource, sl.scope, lr)

variable (libs : Libs)

/-- One result for each record; `now i` is the clock when record `i` is
mapped. -/
def mapExportRequest (src : Source) (req : ExportLogsServiceRequest) (now : Nat → Int) :
    List (Except MapError (Record × Int)) :=
  (logRecords req).mapIdx fun i (resource, scope, lr) =>
    buildRecord libs src (flatten resource scope lr) (recordTsNs lr (now i))

/-! ## Ingest -/

/-- The shared state of the connection handlers, with the counters `ingest`
moves. -/
structure Recv where
  source : Source
  queue : Queue
  dir : Dir Text
  stamper : Stamper
  otlpReceived : Nat
  otlpRejected : Nat
  otlpRequestsRejected : Nat

structure Response where
  status : Nat
  contentType : String
  body : String
deriving DecidableEq, Repr

def text (code : Nat) (msg : String) : Response :=
  { status := code, contentType := "text/plain; charset=utf-8", body := msg }

/-- An empty response message is a full-success acknowledgement. -/
def protoOk : Response := { status := 200, contentType := "application/x-protobuf", body := "" }

/-- What the mapping loop of `ingest` has gathered. `records` are the accepted
ones as they stand in `lines`. -/
structure Batch where
  stamper : Stamper
  lines : Text
  records : List Record
  rejected : Nat

/-- One record: mapped, stamped and encoded, or dropped and counted. -/
def Batch.add (b : Batch) : Except MapError (Record × Int) → Batch
  | .error _ => { b with rejected := b.rejected + 1 }
  | .ok (record, sourceTs) =>
      match b.stamper.stamp sourceTs with
      | (.error _, stamper) => { b with stamper, rejected := b.rejected + 1 }
      | (.ok ts, stamper) =>
          match (record.withTs ts).encode libs.display with
          | .ok line =>
              { b with
                stamper
                lines := b.lines ++ line
                records := b.records ++ [record.withTs ts] }
          | .error _ => { b with stamper, rejected := b.rejected + 1 }

/-- The mapping loop over one decoded request. -/
def gather (recv : Recv) (req : ExportLogsServiceRequest) (now : Nat → Int) : Batch :=
  (mapExportRequest libs recv.source req now).foldl (Batch.add libs)
    { stamper := recv.stamper, lines := [], records := [], rejected := 0 }

/-- One request as it reaches `ingest`: what protobuf decoding gives, the clock,
and what the file system does to the push. -/
structure Incoming where
  decoded : Except String ExportLogsServiceRequest
  now : Nat → Int
  io : Io

/-- `ingest`; `ioText` displays an I/O error. -/
def ingest (ioText : IoError → String) (recv : Recv) (inc : Incoming) : Response × Recv :=
  match inc.decoded with
  | .error e =>
      (text 400 s!"not a valid OTLP ExportLogsServiceRequest: {e}\n",
        { recv with otlpRequestsRejected := recv.otlpRequestsRejected + 1 })
  | .ok req =>
      let b := gather libs recv req inc.now
      let recv := { recv with
        stamper := b.stamper
        otlpReceived := recv.otlpReceived + b.records.length
        otlpRejected := recv.otlpRejected + b.rejected }
      if b.records = [] then (protoOk, recv)
      else
        -- durable before the response
        match Queue.push Text.utf8Len recv.queue recv.dir b.lines inc.io with
        | (.ok true, queue, dir) => (protoOk, { recv with queue, dir })
        | (.ok false, queue, dir) => (text 503 "queue full; retry\n", { recv with queue, dir })
        | (.error e, queue, dir) =>
            let e := ioText e
            (text 500 s!"could not queue: {e}\n", { recv with queue, dir })

/-- The receiver as `run` starts it, over an opened queue. -/
def Recv.start (source : Source) (queue : Queue) (dir : Dir Text) : Recv :=
  { source, queue, dir, stamper := Stamper.new .nanos, otlpReceived := 0, otlpRejected := 0,
    otlpRequestsRejected := 0 }

end Tributary.Otlp
