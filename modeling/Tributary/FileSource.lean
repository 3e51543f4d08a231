import Tributary.Drain
import Tributary.Framer
import Tributary.Tail
import Tributary.Transform
import Tributary.Watermark

/-!
# The file-tail pipeline

`run_file_source` as a step function. A phase says where in the loop the source
is; an event carries what the environment decides there: the clock, what the
server answers, whether a file system call succeeds, which in-flight batch is
done first, whether a timer is due. An error the loop propagates stops the source.

Lines carry the numbers of the source lines they were made of; `read`, `acked`,
`dropped` and `made` record what has happened, and nothing reads them back.
-/

namespace Tributary

open Lib Queue Ship Stamp Tail Map Transform

/-! ## Error texts -/

def Map.FieldType.name : FieldType → String
  | .string => "String"
  | .integer => "Integer"
  | .float => "Float"
  | .boolean => "Boolean"

/-- `Display` of a mapping error. -/
def Map.MapError.message : MapError → String
  | .empty => "empty line"
  | .unparseable e => s!"unparseable: {e}"
  | .badTimestamp e => s!"bad timestamp: {e}"
  | .uncoercibleField key want got =>
      s!"field '{String.ofList key}' will not coerce to {want.name}: {String.ofList got}"

/-- `Display` of a stamping error. -/
def Stamp.StampError.message : StampError → String
  | .exhausted tickNs sourceTsNs =>
      s!"more than {tickNs} lines share source timestamp {sourceTsNs}; the tick has no slots left"

namespace FileSource

/-! ## Building a record -/

inductive DropStage where
  | filter
  | sample
deriving DecidableEq, Repr

inductive Built where
  | ready (record : Lp.Record) (sourceTs : Int)
  | empty
  | dropped (stage : DropStage)
deriving DecidableEq, Repr

/-- The reloadable rules of the transform stage. -/
structure Rules where
  filters : List Filter
  samples : List Sample
  redacts : List Redact
deriving DecidableEq, Repr

/-- `build`: a raw line as a shippable record. -/
def build (libs : Libs) (source : Source) (rules : Rules) (line : Text) (now : Int)
    (stamper : Stamper) (wm : Watermark) : Except String Built × Stamper × Watermark :=
  match mapLine libs source line now with
  | .error .empty => (.ok .empty, stamper, wm)
  | .error e => (.error e.message, stamper, wm)
  | .ok (record, sourceTs) =>
      if !keeps libs record rules.filters then (.ok (.dropped .filter), stamper, wm)
      else if !sampleKeeps libs record sourceTs rules.samples then
        (.ok (.dropped .sample), stamper, wm)
      else
        let record := applyRedacts libs record rules.redacts
        let wm := wm.observe sourceTs
        match stamper.stamp sourceTs with
        | (.error e, stamper) => (.error e.message, stamper, wm)
        | (.ok tsNs, stamper) => (.ok (.ready (record.withTs tsNs) sourceTs), stamper, wm)

/-! ## What the pipeline holds -/

/-- An encoded record of a batch. -/
structure Line where
  ids : List Nat
  /-- its source timestamp -/
  ts : Int
  /-- counted as a violation when it was observed -/
  late : Bool
  text : Text
deriving DecidableEq, Repr

/-- `lines.concat().len()`. -/
def size (body : List Line) : Nat := (body.map fun l => l.text.utf8Len).sum

/-- An empty body is no request. -/
def blank (l : Line) : Bool := l.text.isEmpty

/-- A batch in flight: under way, or done and not yet collected. -/
inductive Task where
  | running (lines : List Line)
  | shipped (lines poison : List Line)
  | failed (lines : List Line) (e : ShipError)
deriving DecidableEq, Repr

def Task.lines : Task → List Line
  | .running lines | .shipped lines _ | .failed lines _ => lines

/-- What the dead-letter file records: a line that became no record, or a record
the server rejected. -/
inductive Dead where
  | refused (line : Chunk) (reason : String)
  | poison (line : Line)
deriving DecidableEq, Repr

def Dead.ids : Dead → List Nat
  | .refused line _ => line.ids
  | .poison line => line.ids

/-- A checkpoint on disk, and how many source lines had been handed out when its
offsets were taken. -/
structure Saved where
  checkpoint : Checkpoint
  covers : Nat
deriving DecidableEq, Repr

/-- A row of the watermark table. -/
structure Row where
  watermarkNs : Int
  latenessNs : Int
  violations : Nat
  nowNs : Int
deriving DecidableEq, Repr

/-- Where a flush returns to. -/
inductive After where
  | read
  | timed
  | final
deriving DecidableEq, Repr

inductive Phase where
  /-- in `drain_queue`; says whether anything shipped, and whether it is the one
  at shutdown -/
  | draining (drained final : Bool)
  | reading
  /-- behind the read loop -/
  | expiring
  /-- at the timed flush -/
  | timing
  | flushing (after : After)
  /-- in `checkpoint_now` -/
  | settling (final : Bool)
  | publishing (final : Bool)
  /-- at the end of a pass -/
  | passed
  /-- emptying the framer at shutdown -/
  | unframing
  | stopped
deriving DecidableEq, Repr

/-- What does not change while the source runs. -/
structure Config where
  libs : Libs
  source : Source
  joiner : Joiner
  rules : Rules
  batchLines : Nat
  maxInflight : Nat
  queueMaxBytes : Nat
  floorNs : Int
  ceilingNs : Int
  once : Bool

structure State where
  fs : Fs
  tailer : Tailer
  framer : Framer
  stamper : Stamper
  watermark : Watermark
  rules : Rules
  batchLines : Nat
  maxInflight : Nat
  batch : List Line
  batchMaxTs : Int
  inflight : List Task
  queue : Queue
  dir : Dir (List Line)
  /-- batches a full disk refused -/
  held : List (List Line)
  deadLetter : List Dead
  readTotal : Nat
  quarantined : Nat
  droppedFilter : Nat
  droppedSample : Nat
  saved : Option Saved
  rows : List Row
  phase : Phase
  idle : Bool
  /-- how many lines the tailer has handed out -/
  read : Nat
  acked : List Line
  /-- the source lines that were filtered, sampled out or blank -/
  dropped : List Nat
  /-- the records that were built -/
  made : List Line

/-! ## Starting -/

/-- What an earlier run left queued. -/
structure Adopted where
  bodies : List (Nat × List Text)
  increasing : bodies.Pairwise fun x y => x.1 < y.1
  narrow : ∀ x ∈ bodies, x.1 < 10 ^ 12

/-- A line of an earlier run: none of this run's source lines. -/
def Line.adopted (text : Text) : Line := { ids := [], ts := i64Min, late := false, text }

def Adopted.live (a : Adopted) : List (Nat × List Line) :=
  a.bodies.map fun x => (x.1, x.2.map Line.adopted)

/-- The source in front of its loop; `none` is an I/O error of the tailer. -/
def start (c : Config) (fs : Fs) (restored : Option Checkpoint) (adopted : Adopted) :
    Option State :=
  let wm := Watermark.new c.floorNs c.ceilingNs
  let (dir, queue) := Queue.open size (adopted.live.map entry) c.queueMaxBytes
  (Tailer.resume fs c.source.path ((restored.map (·.files)).getD [])).map fun tailer =>
    { fs
      tailer
      framer := .ofParser c.source.parser c.joiner
      stamper := match restored with
        | some cp => Stamper.resume c.source.resolution cp
        | none => Stamper.new c.source.resolution
      watermark := match restored.bind (·.latenessNs) with
        | some l => wm.restore l
        | none => wm
      rules := c.rules
      batchLines := c.batchLines
      maxInflight := c.maxInflight
      batch := []
      batchMaxTs := i64Min
      inflight := []
      queue
      dir
      held := []
      deadLetter := []
      readTotal := 0
      quarantined := 0
      droppedFilter := 0
      droppedSample := 0
      saved := restored.map fun checkpoint => { checkpoint, covers := 0 }
      rows := []
      phase := .draining false false
      idle := true
      read := 0
      acked := []
      dropped := []
      made := [] }

/-! ## The parts of the loop -/

namespace State

def stop (s : State) : State := { s with phase := .stopped }

/-- `dead_letter`. -/
def refuse (s : State) (line : Chunk) (reason : String) : State :=
  { s with
    deadLetter := s.deadLetter ++ [.refused line reason]
    quarantined := s.quarantined + 1 }

def quarantine (s : State) (poison : List Line) : State :=
  { s with
    deadLetter := s.deadLetter ++ poison.map .poison
    quarantined := s.quarantined + poison.length }

def countDrop (s : State) (ids : List Nat) : DropStage → State
  | .filter => { s with droppedFilter := s.droppedFilter + 1, dropped := s.dropped ++ ids }
  | .sample => { s with droppedSample := s.droppedSample + 1, dropped := s.dropped ++ ids }

/-- A record joins the batch. -/
def enlist (s : State) (line : Line) : State :=
  { s with
    batch := s.batch ++ [line]
    batchMaxTs := max s.batchMaxTs line.ts
    made := s.made ++ [line] }

/-- A record that has no encoding. -/
def unencoded (s : State) (line : Line) : State := { s with made := s.made ++ [line] }

/-- What the loop does with a record the framer completed. -/
def take (c : Config) (s : State) (line : Chunk) (now : Int) : State :=
  let (built, stamper, watermark) := build c.libs c.source s.rules line.text now s.stamper
    s.watermark
  let late := s.watermark.violates
  let s := { s with stamper, watermark, readTotal := s.readTotal + 1 }
  match built with
  | .ok (.ready record ts) =>
      let made (text : Text) : Line := { ids := line.ids, ts, late := late ts, text }
      match record.encode c.libs.display with
      | .ok text => s.enlist (made text)
      | .error _ => (s.unencoded (made [])).refuse line "unencodable"
  | .ok .empty => { s with readTotal := s.readTotal - 1, dropped := s.dropped ++ line.ids }
  | .ok (.dropped stage) => s.countDrop line.ids stage
  | .error e => s.refuse line e

/-- What shutdown does with a record the framer still held: what fails is
passed over. -/
def takeLast (c : Config) (s : State) (line : Chunk) (now : Int) : State :=
  let (built, stamper, watermark) := build c.libs c.source s.rules line.text now s.stamper
    s.watermark
  let late := s.watermark.violates
  let s := { s with stamper, watermark }
  let counted : State := { s with readTotal := s.readTotal + 1 }
  match built with
  | .ok (.ready record ts) =>
      let made (text : Text) : Line := { ids := line.ids, ts, late := late ts, text }
      match record.encode c.libs.display with
      | .ok text => counted.enlist (made text)
      | .error _ => s.unencoded (made [])
  | .ok (.dropped stage) => counted.countDrop line.ids stage
  | .ok .empty => { s with dropped := s.dropped ++ line.ids }
  | .error _ => s

/-- The checkpoint of this moment. -/
def checkpoint (s : State) : Checkpoint :=
  { s.stamper.save with files := s.tailer.marks, latenessNs := some s.watermark.latenessNs }

/-- `save_checkpoint`: not while batches are held, and a full disk is put up
with. -/
def saveCheckpoint (s : State) (io : Io) : State :=
  if s.held ≠ [] then s
  else
    match io with
    | .ok => { s with saved := some { checkpoint := s.checkpoint, covers := s.read } }
    | .fail _ e => if outOfSpace e then s else s.stop

/-- The next phase, unless the source stopped. -/
def go (s : State) (phase : Phase) : State :=
  if s.phase = .stopped then s else { s with phase }

/-- Behind `drain_queue`. -/
def leaveDrain (s : State) (final : Bool) : State :=
  if final then s.go (.publishing true) else { s with idle := true }.go .reading

def afterFlush (s : State) : After → State
  | .read => s.go .reading
  | .timed => s.go (.settling false)
  | .final => s.go (.settling true)

/-- `reap_one`, on a batch that is done. -/
def reap (s : State) (task : Task) (io forcedIo : Io) : Option State :=
  match task with
  | .running _ => none
  | .shipped _ poison => some (s.quarantine poison)
  | .failed lines _ =>
      match Queue.push size s.queue s.dir lines io with
      | (.error _, queue, dir) => some { s with queue, dir }.stop
      | (.ok true, queue, dir) => some { s with queue, dir }
      | (.ok false, queue, dir) =>
          -- already read off the source: over the cap rather than lost
          match Queue.pushForced size queue dir lines forcedIo with
          | (.error _, queue, dir) => some { s with queue, dir }.stop
          | (.ok true, queue, dir) => some { s with queue, dir }
          | (.ok false, queue, dir) => some { s with queue, dir, held := s.held ++ [lines] }

end State

/-! ## Steps -/

inductive Event where
  /-- whatever others do to the files -/
  | files (fs : Fs)
  /-- an in-flight batch is done -/
  | finish (i : Nat) (sched : List (Answer Line))
  /-- a turn over the held batches: the disk's answer, and the server's if the
  disk refuses -/
  | land (io : Io) (sched : List (Answer Line))
  /-- a turn over the queue -/
  | ship (sched : List (Answer Line))
  /-- nothing is left to drain -/
  | drained (io : Io)
  /-- a turn of the read loop -/
  | next (nowNs : Int) (nowMs : Nat)
  | expire (nowNs : Int) (nowMs : Nat) (order : List Text)
  | time (due : Bool)
  /-- `flush`: spawn the batch -/
  | submit
  /-- collect a batch that is done -/
  | reap (i : Nat) (io forcedIo : Io)
  /-- `checkpoint_now`, with nothing in flight any more -/
  | settle (io : Io)
  | publish (due : Bool) (nowNs : Int)
  | reload (rules : Rules) (batchLines maxInflight : Nat)
  | again (shutdown : Bool)
  /-- a turn of the shutdown loop over the framer -/
  | unframe (nowNs : Int) (order : List Text)
  /-- an I/O error the loop propagates, or the end of the process -/
  | die

def finish (s : State) (i : Nat) (sched : List (Answer Line)) : Option State :=
  match s.inflight[i]? with
  | some (.running lines) =>
      let sent := sendLines blank sched [lines]
      let s := { s with acked := s.acked ++ sent.acked }
      match sent.outcome with
      | .pending => none
      | .shipped poison => some { s with inflight := s.inflight.set i (.shipped lines poison) }
      | .failed e => some { s with inflight := s.inflight.set i (.failed lines e) }
  | _ => none

def land (s : State) (io : Io) (sched : List (Answer Line)) : Option State :=
  match s.phase, s.held with
  | .draining _ final, body :: held =>
      match Queue.pushForced size s.queue s.dir body io with
      | (.error _, queue, dir) => some { s with queue, dir }.stop
      | (.ok true, queue, dir) => some { s with queue, dir, held }
      | (.ok false, queue, dir) =>
          let sent := sendLines blank sched [body]
          let s := { s with queue, dir, acked := s.acked ++ sent.acked }
          match sent.outcome with
          | .pending => none
          | .shipped poison =>
              some { s.quarantine poison with held, phase := .draining true final }
          | .failed _ => some (s.leaveDrain final)
  | _, _ => none

def ship (s : State) (sched : List (Answer Line)) : Option State :=
  match s.phase, s.held, s.queue.front with
  | .draining _ final, [], some path =>
      match Queue.read s.dir path with
      | none => some s.stop
      | some body =>
          let sent := sendLines blank sched [body]
          let s := { s with acked := s.acked ++ sent.acked }
          match sent.outcome with
          | .pending => none
          | .shipped poison =>
              let s := s.quarantine poison
              match Queue.pop size s.queue s.dir path with
              | none => some s.stop
              | some (queue, dir) => some { s with queue, dir, phase := .draining true final }
          | .failed _ => some (s.leaveDrain final)
  | _, _, _ => none

def drained (s : State) (io : Io) : Option State :=
  match s.phase, s.held, s.queue.front with
  | .draining drained final, [], none =>
      some ((if drained then s.saveCheckpoint io else s).leaveDrain final)
  | _, _, _ => none

def next (c : Config) (s : State) (nowNs : Int) (nowMs : Nat) : Option State :=
  if s.phase ≠ .reading then none
  else if s.queue.full then some (s.go .expiring)
  else
    match Tailer.nextLine s.fs s.tailer with
    | (none, tailer) => some ({ s with tailer }.go .expiring)
    | (some raw, tailer) =>
        let line : Chunk := { ids := [s.read], text := c.libs.decodeLossy raw }
        let s := { s with tailer, idle := false, read := s.read + 1 }
        match s.framer.push c.libs line nowMs with
        | (.ok none, framer) => some { s with framer }
        | (.error e, framer) => some ({ s with framer }.refuse line e)
        | (.ok (some record), framer) =>
            let s := { s with framer }.take c record nowNs
            if s.batchLines ≤ s.batch.length ∧ s.framer.hasPending = false then
              some (s.go (.flushing .read))
            else some s

def expire (c : Config) (s : State) (nowNs : Int) (nowMs : Nat) (order : List Text) :
    Option State :=
  if s.phase ≠ .expiring then none
  else
    match s.framer.expire c.libs nowMs order with
    | (none, framer) => some ({ s with framer }.go .timing)
    | (some record, framer) => some (({ s with framer }.take c record nowNs).go .timing)

def time (s : State) (due : Bool) : Option State :=
  if s.phase ≠ .timing then none
  else if due && !s.framer.hasPending then some (s.go (.flushing .timed))
  else some (s.go (.publishing false))

def submit (s : State) : Option State :=
  match s.phase with
  | .flushing after =>
      if s.batch = [] then some (s.afterFlush after)
      else if s.inflight.length < s.maxInflight then
        some ({ s with
          inflight := s.inflight ++ [Task.running s.batch]
          batch := []
          watermark :=
            if s.batchMaxTs ≠ i64Min then s.watermark.advance s.batchMaxTs else s.watermark
          batchMaxTs := i64Min }.afterFlush after)
      else none
  | _ => none

/-- Whether `join_next` is called: in a flush with every slot taken, and in
`checkpoint_now` while something is in flight. -/
def collects (s : State) : Bool :=
  match s.phase with
  | .flushing _ => !s.batch.isEmpty && decide (s.maxInflight ≤ s.inflight.length)
  | .settling _ => true
  | _ => false

def reap (s : State) (i : Nat) (io forcedIo : Io) : Option State :=
  if collects s then
    s.inflight[i]?.bind fun task =>
      { s with inflight := s.inflight.eraseIdx i }.reap task io forcedIo
  else none

def settle (s : State) (io : Io) : Option State :=
  match s.phase, s.inflight with
  | .settling final, [] =>
      some ((s.saveCheckpoint io).go (if final then .draining false true else .publishing false))
  | _, _ => none

/-- `write_watermark`. -/
def writeWatermark (s : State) (nowNs : Int) : State :=
  if s.watermark.publishedNs = i64Min then s
  else
    { s with rows := s.rows ++
        [{ watermarkNs := s.watermark.publishedNs
           latenessNs := s.watermark.latenessNs
           violations := s.watermark.violations
           nowNs }] }

def publish (s : State) (due : Bool) (nowNs : Int) : Option State :=
  match s.phase with
  | .publishing true => some (writeWatermark s nowNs).stop
  | .publishing false => some ((if due then writeWatermark s nowNs else s).go .passed)
  | _ => none

def again (c : Config) (s : State) (shutdown : Bool) : Option State :=
  if s.phase ≠ .passed then none
  else if s.idle ∧ (c.once ∧ s.queue.isEmpty ∨ shutdown) then some (s.go .unframing)
  else some (s.go (.draining false false))

def unframe (c : Config) (s : State) (nowNs : Int) (order : List Text) : Option State :=
  if s.phase ≠ .unframing then none
  else
    match s.framer.drain c.libs order with
    | (none, framer) => some ({ s with framer }.go (.flushing .final))
    | (some record, framer) => some ({ s with framer }.takeLast c record nowNs)

/-- One step of the source and its environment. -/
def step (c : Config) (s : State) (e : Event) : Option State :=
  if s.phase = .stopped then none
  else
    match e with
    | .files fs => some { s with fs }
    | .finish i sched => finish s i sched
    | .land io sched => land s io sched
    | .ship sched => ship s sched
    | .drained io => drained s io
    | .next nowNs nowMs => next c s nowNs nowMs
    | .expire nowNs nowMs order => expire c s nowNs nowMs order
    | .time due => time s due
    | .submit => submit s
    | .reap i io forcedIo => reap s i io forcedIo
    | .settle io => settle s io
    | .publish due nowNs => publish s due nowNs
    | .reload rules batchLines maxInflight =>
        if s.phase = .passed then some { s with rules, batchLines, maxInflight } else none
    | .again shutdown => again c s shutdown
    | .unframe nowNs order => unframe c s nowNs order
    | .die => some s.stop

end FileSource

end Tributary
