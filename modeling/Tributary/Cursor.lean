import Tributary.Drain
import Tributary.Map

/-!
# Cursor sources

`run_journald` and `run_winlog`: read entries behind a cursor, queue each batch
on disk, save the cursor, ship. The journal is the sequence of entries appended
so far, each under the cursor it is addressed by; a process runs over it and over
the state directory, and can be killed between any two steps and inside a spool,
a shipment or the sweep of an open queue. An error the source propagates ends the
process like a kill.
-/

namespace Tributary

open Lib Queue Ship Stamp Map

namespace Cursor

/-! ## Entries -/

/-- What a cursor source knows of its entries, and the one point where the two
loops differ. -/
structure Kind (ε : Type) where
  /-- the data fields in key order -/
  fields : ε → List (Text × Text)
  /-- the time the store stamped on the entry, in nanoseconds -/
  sourceTs : ε → Int
  /-- a pass that met the tail with nothing to ship saves its cursor too -/
  savesEmptyPass : Bool

end Cursor

/-- `journald::Entry`. -/
structure Journald.Entry where
  fields : List (Text × Text)
  realtimeUsec : Nat
deriving DecidableEq, Repr

/-- `winlog::Event`. -/
structure Winlog.Event where
  fields : List (Text × Text)
  timeCreatedNs : Int
deriving DecidableEq, Repr

/-- journald: microseconds, multiplied with saturation. -/
def Journald.kind : Cursor.Kind Journald.Entry where
  fields := Journald.Entry.fields
  sourceTs e := max i64Min (min i64Max (wrap64 e.realtimeUsec * 1000))
  savesEmptyPass := false

/-- The Windows event log: already nanoseconds. -/
def Winlog.kind : Cursor.Kind Winlog.Event where
  fields := Winlog.Event.fields
  sourceTs := Winlog.Event.timeCreatedNs
  savesEmptyPass := true

namespace Cursor

/-- `entry_to_json`, `event_to_json`. -/
def entryToJson (libs : Libs) (fields : List (Text × Text)) : Text :=
  libs.render (.object (fields.map fun kv => (kv.1, .string kv.2)))

inductive EntryError where
  | map (e : MapError)
  | stamp (e : StampError)
  | encode (e : Lp.EncodeError)
deriving DecidableEq, Repr

/-- `map_entry`, `map_event`: the line of an entry, or nothing for one that maps
to nothing. -/
def mapEntry (libs : Libs) (src : Source) (fields : List (Text × Text)) (sourceTs now : Int)
    (stamper : Stamper) : Except EntryError (Option Text) × Stamper :=
  match mapLine libs src (entryToJson libs fields) now with
  | .error .empty => (.ok none, stamper)
  | .error e => (.error (.map e), stamper)
  | .ok (record, _) =>
      if record.fields = [] then (.ok none, stamper)
      else
        match stamper.stamp sourceTs with
        | (.error e, stamper) => (.error (.stamp e), stamper)
        | (.ok tsNs, stamper) =>
            match (record.withTs tsNs).encode libs.display with
            | .error e => (.error (.encode e), stamper)
            | .ok out => (.ok (some out), stamper)

/-! ## Batches -/

/-- The line of an entry; which entry is not part of the text. -/
structure Rec where
  entry : Nat
  text : Text
deriving DecidableEq, Repr

/-- `batch.join("\n")`. -/
def body (batch : List Rec) : Text := ['\n'].intercalate (batch.map Rec.text)

/-- A line of a segment: of a record, or the empty one between two records. -/
def lineText : Option Rec → Text
  | some r => r.text.stripEol
  | none => []

/-- The drain of both sources, over segments that remember their records. -/
def drain : Drainer (List Rec) (Option Rec) where
  split batch := (batch.map some).intersperse none
  size batch := (body batch).utf8Len
  blank l := (lineText l).isEmpty
  poison := .keep

/-! ## The agent -/

structure Agent (ε : Type) where
  kind : Kind ε
  libs : Libs
  source : Source
  queueMaxBytes : Nat
  batchLines : Nat
  once : Bool

inductive Phase where
  /-- shipping what a previous run left queued -/
  | starting
  /-- in the inner loop -/
  | reading
  /-- behind the inner loop -/
  | assembled
  | saving
  | draining
  /-- at the end of a pass -/
  | passed
  /-- in the last drain -/
  | closing
deriving DecidableEq, Repr

/-- What a running agent keeps in memory. -/
structure Process where
  phase : Phase
  /-- the number of entries the reader has moved past -/
  pos : Nat
  stamper : Stamper
  queue : Queue
  batch : List Rec
  lastCursor : Option Text
  atTail : Bool

/-- The journal, the state directory, what the server accepted, and the agent if
one runs. -/
structure World (ε : Type) where
  journal : List (Text × ε)
  dir : Dir (List Rec)
  saved : Option Checkpoint
  acked : List Rec
  process : Option Process

variable {ε : Type}

def World.empty : World ε :=
  { journal := [], dir := [], saved := none, acked := [], process := none }

/-- `reader.seek`: how many entries are behind the reader. -/
def seek (journal : List (Text × ε)) : Option Text → Nat
  | none => 0
  | some c => journal.findIdx (fun x => decide (x.1 = c)) + 1

/-- An agent behind its `Queue::open`. -/
def Process.start (src : Source) (saved : Option Checkpoint) (pos : Nat) (queue : Queue) :
    Process :=
  { phase := .starting
    pos
    stamper := match saved with
      | some cp => Stamper.resume src.resolution cp
      | none => Stamper.new src.resolution
    queue
    batch := []
    lastCursor := none
    atTail := false }

/-- A new pass of the outer loop. -/
def Process.newPass (p : Process) : Process :=
  { p with phase := .reading, batch := [], lastCursor := none, atTail := false }

/-! ## Steps -/

inductive Event (ε : Type) where
  /-- the journal grows -/
  | append (cursor : Text) (entry : ε)
  | boot
  /-- killed in the sweep, after these files were removed -/
  | bootKilled (swept : List FileName)
  /-- one turn of a drain, with the server's answers -/
  | turn (sched : List (Answer (Option Rec)))
  /-- killed in a turn, before or after the segment file was removed -/
  | turnKilled (sched : List (Answer (Option Rec))) (removed : Bool)
  /-- one turn of the inner loop, at this time of the wall clock -/
  | next (now : Int)
  | push (io : Io)
  | pushKilled (at_ : KillPoint)
  /-- nothing to push -/
  | skip
  | save
  | again
  | kill

/-- The call a turn makes, if a segment is queued. -/
def Process.call (p : Process) (dir : Dir (List Rec)) (sched : List (Answer (Option Rec))) :
    Option (Sent (Option Rec)) :=
  (p.queue.front.bind (Queue.read dir)).map fun batch =>
    sendLines drain.blank sched [drain.split batch]

/-- What comes after a drain. -/
def Process.drained (p : Process) : Option Process :=
  match p.phase with
  | .starting => some p.newPass
  | .draining => some { p with phase := .passed }
  | _ => none

/-- The agent after a turn that left this queue. -/
def Process.turned (p : Process) (queue : Queue) (more : Bool) : Option Process :=
  if more then some { p with queue } else Process.drained { p with queue }

def Process.spool (p : Process) (dir : Dir (List Rec)) : Spool (List Rec) (Option Rec) :=
  Drainer.start p.queue dir

def turn (w : World ε) (p : Process) (sched : List (Answer (Option Rec))) :
    Option (World ε) :=
  if p.phase ∉ [.starting, .draining, .closing] then none
  else if (p.call w.dir sched).any fun sent => sent.outcome = .pending then none
  else
    let (s, more, _) := drain.attempt (p.spool w.dir) sched
    some { w with
      dir := s.dir
      acked := w.acked ++ s.acked.filterMap (·.2)
      process := p.turned s.queue more }

def turnKilled (w : World ε) (p : Process) (sched : List (Answer (Option Rec)))
    (removed : Bool) : Option (World ε) :=
  if p.phase ∉ [.starting, .draining, .closing] then none
  else
    match p.call w.dir sched, p.queue.front with
    | some sent, some path =>
        if removed && sent.outcome ≠ .shipped [] then none
        else
          some { w with
            dir := if removed then w.dir.remove path else w.dir
            acked := w.acked ++ sent.acked.filterMap id
            process := none }
    | _, _ => none

variable (a : Agent ε)

/-- One turn of the inner loop. -/
def next (w : World ε) (p : Process) (now : Int) : Option (World ε) :=
  if p.phase ≠ .reading then none
  else if p.batch.length < a.batchLines then
    match w.journal[p.pos]? with
    | none => some { w with process := some { p with phase := .assembled, atTail := true } }
    | some (cursor, entry) =>
        match mapEntry a.libs a.source (a.kind.fields entry) (a.kind.sourceTs entry) now
          p.stamper with
        | (.error _, _) => some { w with process := none }
        | (.ok out, stamper) =>
            some { w with process := some { p with
              pos := p.pos + 1
              stamper
              batch := p.batch ++ (out.map fun text => ⟨p.pos, text⟩).toList
              lastCursor := some cursor } }
  else some { w with process := some { p with phase := .assembled } }

/-- `queue.push(&body)?`: an error ends the run, and the answer is not looked
at. -/
def push (w : World ε) (p : Process) (io : Io) : Option (World ε) :=
  if p.phase ≠ .assembled ∨ p.batch = [] then none
  else
    match Queue.push drain.size p.queue w.dir p.batch io with
    | (.error _, _, dir) => some { w with dir, process := none }
    | (.ok _, queue, dir) =>
        some { w with dir, process := some { p with queue, phase := .saving } }

def pushKilled (w : World ε) (p : Process) (at_ : KillPoint) : Option (World ε) :=
  if p.phase ≠ .assembled ∨ p.batch = [] ∨ p.queue.maxBytes < p.queue.bytes + drain.size p.batch
  then none
  else some { w with dir := tornDir p.queue w.dir p.batch at_, process := none }

def skip (w : World ε) (p : Process) : Option (World ε) :=
  if p.phase ≠ .assembled ∨ p.batch ≠ [] then none
  else if a.kind.savesEmptyPass ∧ p.atTail ∧ p.lastCursor.isSome then
    some { w with process := some { p with phase := .saving } }
  else some { w with process := some { p with phase := .passed } }

/-- `Checkpoint::save`, all or nothing. -/
def save (w : World ε) (p : Process) : Option (World ε) :=
  if p.phase ≠ .saving then none
  else
    some { w with
      saved := some { p.stamper.save with cursor := p.lastCursor }
      process := some { p with phase := if p.batch = [] then .passed else .draining } }

def again (w : World ε) (p : Process) : Option (World ε) :=
  if p.phase ≠ .passed then none
  else if p.atTail ∧ a.once then some { w with process := some { p with phase := .closing } }
  else some { w with process := some p.newPass }

/-- One step of journal and agent. -/
def step (w : World ε) : Event ε → Option (World ε)
  | .append cursor entry =>
      -- a cursor addresses one entry
      if cursor ∈ w.journal.map (·.1) then none
      else some { w with journal := w.journal ++ [(cursor, entry)] }
  | .boot =>
      match w.process with
      | some _ => none
      | none =>
          let (dir, queue) := Queue.open drain.size w.dir a.queueMaxBytes
          let pos := seek w.journal (w.saved.bind (·.cursor))
          some { w with dir, process := some (.start a.source w.saved pos queue) }
  | .bootKilled swept =>
      match w.process with
      | some _ => none
      | none => some { w with dir := partlySwept w.dir swept }
  | .turn sched => w.process.bind fun p => turn w p sched
  | .turnKilled sched removed => w.process.bind fun p => turnKilled w p sched removed
  | .next now => w.process.bind fun p => next a w p now
  | .push io => w.process.bind fun p => push w p io
  | .pushKilled at_ => w.process.bind fun p => pushKilled w p at_
  | .skip => w.process.bind fun p => skip a w p
  | .save => w.process.bind fun p => save w p
  | .again => w.process.bind fun p => again a w p
  | .kill => w.process.map fun _ => { w with process := none }

end Cursor

/-- The agent `run_journald` runs. -/
def runJournald (libs : Libs) (source : Source) (queueMaxBytes batchLines : Nat) (once : Bool) :
    Cursor.Agent Journald.Entry :=
  { kind := Journald.kind, libs, source, queueMaxBytes, batchLines, once }

/-- The agent `run_winlog` runs. -/
def runWinlog (libs : Libs) (source : Source) (queueMaxBytes batchLines : Nat) (once : Bool) :
    Cursor.Agent Winlog.Event :=
  { kind := Winlog.kind, libs, source, queueMaxBytes, batchLines, once }

end Tributary
