import Tributary.Coordinator
import Tributary.FileSource.Exit
import Tributary.Glob.Children

/-!
# The tails of a glob source

`run_glob_source`: a scan of the directory, a file tail for each match, and every few
seconds another scan that starts tails for new files and stops those whose file is gone.
When a tail that was stopped for that returns, its checkpoint is deleted, and its queue if
no segment is left. `running` holds the stop-sender of a tail under its state key.

Each tail has a queue of its own, as its key is its own; two files of one key would write
to one directory.
-/

namespace Tributary.Glob.Tails

open Coordinator (Joined)
open Map

/-! ## State -/

/-- A file tail in the join set; its number names its stop channel. -/
structure Task where
  id : Nat
  name : Text
  config : FileSource.Config
  /-- `none`: its files could not be opened -/
  source : Option FileSource.State
  /-- `files_lost` when they were -/
  lost : Nat
  /-- its shutdown has passed over a record; nothing reads it back -/
  passedOver : Bool
  returned : Option Joined

/-- A tail whose state was retired, and what is left of its queue's directory. -/
structure Retired where
  task : Task
  left : Queue.Dir (List FileSource.Line)

structure State where
  /-- stop-senders by state key -/
  running : List (Text × Nat)
  set : List Task
  /-- the channels that say `true` -/
  told : List Nat
  retiring : List Text
  stopping : Bool
  nextId : Nat
  /-- the first scan is done -/
  scanned : Bool
  retired : List Retired

namespace State

def sender (s : State) (name : Text) : Option Nat :=
  (s.running.find? fun e => decide (e.1 = name)).map (·.2)

/-- `HashMap::remove`; a sender that is dropped closes its channel. -/
def remove (s : State) (name : Text) : State :=
  { s with running := s.running.filter fun e => decide (e.1 ≠ name) }

/-- `tx.send(true)` on every sender, and no more scans. -/
def stopAll (s : State) : State :=
  { s with told := s.told ++ s.running.map (·.2), stopping := true }

/-- The shutdown future of a task is ready. -/
def stops (s : State) (t : Task) : Bool :=
  s.told.contains t.id || !(s.running.map (·.2)).contains t.id

def task (s : State) (id : Nat) : Option Task := s.set.find? fun t => decide (t.id = id)

def update (s : State) (id : Nat) (t : Task) : State :=
  { s with set := s.set.map fun u => if u.id = id then t else u }

end State

/-- In front of the first scan. -/
def start : State :=
  { running := [], set := [], told := [], retiring := [], stopping := false, nextId := 0
    scanned := false, retired := [] }

/-! ## Scans -/

/-- What a new tail finds: the files, what an earlier one left under its key, and the
labels of its pod. -/
structure Found where
  fs : Fs
  restored : Option Checkpoint
  adopted : FileSource.Adopted
  labels : List (Text × Text)

/-- `spawn_glob_child`; `c` is the template's configuration. -/
def spawn (c : FileSource.Config) (found : Path → Found) (s : State) (path : Path) : State :=
  let name := streamId c.source.name path
  let config := { c with source := syntheticSource c.source (found path).labels path }
  let source := FileSource.start config (found path).fs (found path).restored (found path).adopted
  let task : Task :=
    { id := s.nextId, name, config, source
      lost := (source.map (·.tailer.filesLost)).getD 0
      passedOver := false
      returned := if source.isNone then some .err else none }
  { s with
    running := (s.running.filter fun e => decide (e.1 ≠ name)) ++ [(name, s.nextId)]
    set := s.set ++ [task]
    nextId := s.nextId + 1 }

/-- A file we tail is gone: its tail is told to stop. -/
def vanish (names : List Text) (s : State) (name : Text) : State :=
  if names.contains name || s.retiring.contains name then s
  else { s with told := s.told ++ (s.sender name).toList, retiring := s.retiring ++ [name] }

/-- A file that has appeared is tailed. -/
def adopt (c : FileSource.Config) (found : Path → Found) (s : State) (path : Path) : State :=
  if (s.running.map (·.1)).contains (streamId c.source.name path) then s
  else spawn c found s path

/-- The matches of a scan. -/
def matchesOf (c : FileSource.Config) (readDir : ReadDir) : List Path :=
  globMatches readDir c.source.path

def rescan (c : FileSource.Config) (readDir : ReadDir) (found : Path → Found) (s : State) :
    State :=
  let paths := matchesOf c readDir
  let s := (s.running.map (·.1)).foldl (vanish (paths.map (streamId c.source.name))) s
  paths.foldl (adopt c found) s

/-! ## Retiring -/

/-- The queue part of `retire_stream_state`: what it leaves of the directory. A directory
that cannot be listed counts as one without data. -/
def retireStreamState (dir : Queue.Dir (List FileSource.Line)) (listed : Bool) :
    Queue.Dir (List FileSource.Line) :=
  if listed && !(dir.withExt Queue.lp).isEmpty then dir else []

/-- The directory of a task's queue. -/
def Task.dir (t : Task) : Queue.Dir (List FileSource.Line) := (t.source.map (·.dir)).getD []

/-- A tail that has returned is collected. -/
def join (s : State) (id : Nat) (listed : Bool) : Option State :=
  match s.task id with
  | some t =>
      match t.returned with
      | none => none
      | some r =>
          let s := { s with set := s.set.filter fun t => decide (t.id ≠ id) }
          match r with
          | .panicked => some s.stopAll
          | .err =>
              some { s.remove t.name with
                retiring := s.retiring.filter fun n => decide (n ≠ t.name) }.stopAll
          | .ok =>
              let wasRetiring := s.retiring.contains t.name
              let s := { s.remove t.name with
                retiring := s.retiring.filter fun n => decide (n ≠ t.name) }
              some (if wasRetiring then
                { s with retired := s.retired ++
                    [{ task := t, left := retireStreamState t.dir listed }] }
              else s)
  | none => none

/-! ## Steps -/

inductive Event where
  /-- the scan in front of the loop -/
  | scan (readDir : ReadDir) (found : Path → Found)
  | rescan (readDir : ReadDir) (found : Path → Found)
  /-- the process is told to stop -/
  | shutdown
  /-- a step of a tail -/
  | tail (id : Nat) (e : FileSource.Event)
  | panic (id : Nat)
  /-- a tail is collected; `listed` says whether the queue's directory can be read -/
  | join (id : Nat) (listed : Bool)

/-- What a tail that stopped returns. -/
def returns (before after : FileSource.State) (e : FileSource.Event) : Option Joined :=
  if after.phase = .stopped then some (if before.exits e then .ok else .err) else none

/-- The tail's select takes the shutdown branch only if its channel says so. -/
def allowed (s : State) (t : Task) : FileSource.Event → Bool
  | .again true => s.stops t
  | _ => true

def tail (s : State) (id : Nat) (e : FileSource.Event) : Option State :=
  match s.task id with
  | some t =>
      match t.returned, t.source with
      | none, some source =>
          if allowed s t e then
            (FileSource.step t.config source e).map fun after =>
              s.update id { t with
                source := some after
                passedOver := t.passedOver || source.passesOver t.config e
                returned := returns source after e }
          else none
      | _, _ => none
  | none => none

def panic (s : State) (id : Nat) : Option State :=
  match s.task id with
  | some t =>
      if t.returned = none then some (s.update id { t with returned := some .panicked }) else none
  | none => none

def step (c : FileSource.Config) (s : State) : Event → Option State
  | .scan readDir found =>
      if s.scanned then none
      else some { (matchesOf c readDir).foldl (spawn c found) s with scanned := true }
  | .rescan readDir found =>
      if s.scanned && !s.stopping && !c.once then some (rescan c readDir found s) else none
  | .shutdown => if s.scanned && !s.stopping then some s.stopAll else none
  | .tail id e => tail s id e
  | .panic id => panic s id
  | .join id listed => join s id listed

end Tributary.Glob.Tails
