import Tributary.Map

/-!
# The coordinator

One task for each source. `running` holds the shutdown sender of a task under its
source's name; a reload compares the configured names with those and stops or
starts tasks. A task that has returned stays in the join set until it is
collected. A task shuts down when its channel says so, or when its sender is gone.
-/

namespace Tributary.Coordinator

/-! ## State -/

/-- What a task returned. -/
inductive Joined where
  | ok
  | err
  /-- it panicked: the name is lost with it -/
  | panicked
deriving DecidableEq, Repr

/-- A task of the join set; its number names its shutdown channel. -/
structure Task where
  id : Nat
  name : Text
  /-- set once it has returned -/
  returned : Option Joined
deriving DecidableEq, Repr

def Task.live (t : Task) : Bool := t.returned.isNone

structure State where
  /-- senders by source name -/
  running : List (Text × Nat)
  set : List Task
  /-- the channels that say `true` -/
  told : List Nat
  signalled : Bool
  nextId : Nat
  /-- the names of the configuration accepted last -/
  configured : List Text
  /-- the loop is left -/
  ended : Bool
deriving DecidableEq, Repr

namespace State

/-- `HashMap::get`. -/
def sender (s : State) (name : Text) : Option Nat :=
  (s.running.find? fun e => decide (e.1 = name)).map (·.2)

/-- `HashMap::remove`; a sender that is dropped closes its channel. -/
def remove (s : State) (name : Text) : State :=
  { s with running := s.running.filter fun e => decide (e.1 ≠ name) }

/-- `tx.send(true)` on every sender. -/
def signalAll (s : State) : State :=
  { s with told := s.told ++ s.running.map (·.2), signalled := true }

/-- The shutdown future of a task is ready. -/
def stops (s : State) (t : Task) : Bool :=
  s.told.contains t.id || !(s.running.map (·.2)).contains t.id

end State

/-! ## Reloading -/

/-- `diff_source_set`: the names to stop, and the indices to start. -/
def diffSourceSet (running configured : List Text) : List Text × List Nat :=
  ((running.filter fun n => !configured.contains n).insertionSort (· ≤ ·),
    (List.range configured.length).filter fun i => !running.contains (configured.getD i []))

/-- `spawn_source`: a channel of its own, the sender under the name. -/
def spawnSource (s : State) (name : Text) : State :=
  { s with
    running := (s.running.filter fun e => decide (e.1 ≠ name)) ++ [(name, s.nextId)]
    set := s.set ++ [{ id := s.nextId, name, returned := none }]
    nextId := s.nextId + 1 }

/-- A removed source is told to stop and leaves the map. -/
def stopSource (s : State) (name : Text) : State :=
  match s.sender name with
  | some tx => { s.remove name with told := s.told ++ [tx] }
  | none => s

/-- `reload_source_set`, with the names of a configuration that loaded; two
sources of one name do not load. -/
def reloadSourceSet (s : State) (configured : List Text) : State :=
  if configured.Nodup then
    let (removed, added) := diffSourceSet (s.running.map (·.1)) configured
    let s := removed.foldl stopSource s
    let s := added.foldl (fun s i => spawnSource s (configured.getD i [])) s
    { s with configured }
  else s

/-- The coordinator in front of its loop. -/
def start (configured : List Text) : State :=
  configured.foldl spawnSource
    { running := [], set := [], told := [], signalled := false, nextId := 0, configured
      ended := false }

/-! ## The loop -/

inductive Event where
  /-- an OS stop signal -/
  | stop
  /-- a SIGHUP; `none` is a file that does not load -/
  | reload (configured : Option (List Text))
  /-- a task returns: it was told to stop, is done, or fails -/
  | finish (id : Nat) (r : Joined)
  /-- the coordinator collects a task that has returned -/
  | join (id : Nat)
  /-- the join set is empty -/
  | leave
deriving DecidableEq, Repr

def finish (s : State) (id : Nat) (r : Joined) : Option State :=
  if s.set.any fun t => decide (t.id = id) && t.live then
    some { s with set := s.set.map fun t => if t.id = id then { t with returned := some r } else t }
  else none

def join (s : State) (id : Nat) : Option State :=
  match s.set.find? fun t => decide (t.id = id) with
  | some { name, returned := some r, .. } =>
      let s := { s with set := s.set.filter fun t => decide (t.id ≠ id) }
      match r with
      | .ok => some (s.remove name)
      | .err => some (s.remove name).signalAll
      | .panicked => some s.signalAll
  | _ => none

def step (s : State) (e : Event) : Option State :=
  if s.ended then none
  else
    match e with
    | .stop => if s.signalled then none else some s.signalAll
    | .reload configured =>
        if s.signalled then none
        else some (match configured with
          | some configured => reloadSourceSet s configured
          | none => s)
    | .finish id r => finish s id r
    | .join id => join s id
    | .leave => if s.set.isEmpty then some { s with ended := true } else none

end Tributary.Coordinator
