import Tributary.Checkpoint
import Tributary.Lib.Publish

/-!
# Checkpoints on disk

How the tasks of an agent load and save their checkpoints, with the agent killed at any point and
power lost. A save that is under way leaves the checkpoint before it in place, and a checkpoint
that the agent refuses to read stays as it is.
-/

namespace Tributary.Checkpoint

open Lib Lib.Publish

/-! ## Names -/

/-- `Path::file_stem`: what is before the last dot, unless that is nothing. -/
def fileStem (name : Text) : Text :=
  match ((name.reverse.dropWhile (· ≠ '.')).drop 1).reverse with
  | [] => name
  | stem => stem

/-- `Path::with_extension`. -/
def withExtension (name ext : Text) : Text := fileStem name ++ '.' :: ext

/-- In the state directory. -/
def pathFor (stream : Text) : Text := stream ++ ".checkpoint".toList

def tmpFor (stream : Text) : Text := withExtension (pathFor stream) "checkpoint.tmp".toList

/-- A stream name that is one component of a path. -/
def Named (stream : Text) : Prop := stream ≠ [] ∧ '/' ∉ stream

instance : DecidablePred Named := fun stream =>
  inferInstanceAs (Decidable (stream ≠ [] ∧ '/' ∉ stream))

theorem tmpFor_eq {stream : Text} (h : stream ≠ []) :
    tmpFor stream = stream ++ ".checkpoint.tmp".toList := by
  have hstem : fileStem (pathFor stream) = stream := by
    rw [fileStem, pathFor]
    have hdrop : ((stream ++ ".checkpoint".toList).reverse.dropWhile (· ≠ '.')).drop 1
        = stream.reverse := by
      rw [List.reverse_append]
      rfl
    rw [hdrop, List.reverse_reverse]
    cases stream with
    | nil => exact absurd rfl h
    | cons c cs => rfl
  rw [tmpFor, withExtension, hstem]
  rfl

/-- `File::create` truncates. -/
def names : Names Text Text Text where
  temp := tmpFor
  final := pathFor
  empty := []

theorem names_apart : names.Apart Named where
  temp := by
    intro k l hk hl heq
    have heq : tmpFor k = tmpFor l := heq
    rw [tmpFor_eq hk.1, tmpFor_eq hl.1] at heq
    exact List.append_cancel_right heq
  final := fun _ _ _ heq => List.append_cancel_right heq
  both := by
    intro k l heq
    -- one ends in `tmp`, the other in `checkpoint`
    have hlast := congrArg List.getLast? heq
    simp [names, tmpFor, withExtension, pathFor, List.getLast?_append] at hlast

/-- Two names that would not do: both streams save through one temporary file. -/
example : tmpFor [] = tmpFor ".checkpoint".toList := by decide

/-! ## Loading -/

inductive LoadError where
  | io
  | malformed
  | newer (message : Text)
deriving DecidableEq, Repr

def newerMessage (path : Text) (format : Nat) : Text :=
  path ++ " was written by a newer tributary (checkpoint format ".toList
    ++ Text.ofInt format ++ " > ".toList ++ Text.ofInt checkpointFormatVersion
    ++ "); refusing to guess at it. Run that version, or delete the file to re-read every ".toList
    ++ "source from the start (lines are then duplicated, not lost).".toList

/-- `Checkpoint::load`, of what stands under the path; `readable` is false where reading it
fails. -/
def load (fromSlice : Text → Option Checkpoint) (path : Text) (readable : Bool)
    (file : Option Text) : Except LoadError (Option Checkpoint) :=
  if readable then
    match file with
    | none => .ok none
    | some bytes =>
        match fromSlice bytes with
        | none => .error .malformed
        | some cp =>
            if cp.format > checkpointFormatVersion then
              .error (.newer (newerMessage path cp.format))
            else .ok (some cp)
  else .error .io

/-! ## The agent -/

/-- The files, and which streams a task runs for. -/
structure Agent where
  disk : State Text Text Text
  running : Text → Bool

inductive Event where
  /-- A task loads the checkpoint of its stream first, and fails where that is refused. -/
  | start (stream : Text) (readable : Bool)
  | save (stream : Text) (cp : Checkpoint)
  | write (stream : Text) (failed : Option Text)
  | sync (stream : Text) (ok : Bool)
  | rename (stream : Text) (ok : Bool)
  | settle
  /-- A task is over; `retired` where its file is gone and `retire_stream_state` removes the
  checkpoint. -/
  | join (stream : Text) (retired : Bool)
  | kill
  | powerLoss (pick : Text → Nat) (garbled : Text → Option Text)

namespace Agent

def found (files : Text → Option Text) : Agent :=
  { disk := State.found names files, running := fun _ => false }

def onDisk (a : Agent) (e : Lib.Publish.Event Text Text Text) : Option Agent :=
  (State.step names a.disk e).map fun disk => { a with disk }

variable (toVec : Checkpoint → Text) (fromSlice : Text → Option Checkpoint)

def step (a : Agent) : Event → Option Agent
  | .start stream readable =>
      if a.running stream then none
      else
        match load fromSlice (pathFor stream) readable (a.disk.files (pathFor stream)) with
        -- the task fails, and the coordinator ends the others; the model lets them go on, which
        -- gives it more runs than there are
        | .error _ => some a
        | .ok _ => some { a with running := Function.update a.running stream true }
  | .save stream cp =>
      if a.running stream then
        a.onDisk (.create stream (toVec { cp with format := checkpointFormatVersion }))
      else none
  | .write stream failed => a.onDisk (.write stream failed)
  | .sync stream ok => a.onDisk (.sync stream ok)
  | .rename stream ok => a.onDisk (.rename stream ok)
  | .settle => a.onDisk .settle
  | .join stream retired =>
      -- a save that has begun is over before its task is
      if a.running stream && (a.disk.saving stream).isNone then
        (if retired then a.onDisk (.remove stream) else some a).map fun b =>
          { b with running := Function.update b.running stream false }
      else none
  | .kill => (a.onDisk .kill).map fun b => { b with running := fun _ => false }
  | .powerLoss pick garbled =>
      (a.onDisk (.powerLoss pick garbled)).map fun b => { b with running := fun _ => false }

/-- Streams are named by one component of a path. -/
def OfNamed : Event → Prop
  | .start stream _ => Named stream
  | _ => True

/-- What an event is on disk. -/
def diskEvent : Event → Option (Lib.Publish.Event Text Text Text)
  | .start _ _ | .join _ false => none
  | .save stream cp =>
      some (.create stream (toVec { cp with format := checkpointFormatVersion }))
  | .write stream failed => some (.write stream failed)
  | .sync stream ok => some (.sync stream ok)
  | .rename stream ok => some (.rename stream ok)
  | .settle => some .settle
  | .join stream true => some (.remove stream)
  | .kill => some .kill
  | .powerLoss pick garbled => some (.powerLoss pick garbled)

variable {toVec fromSlice} {a b : Agent} {e : Event}

theorem onDisk_eq_some {d : Lib.Publish.Event Text Text Text} (h : a.onDisk d = some b) :
    State.step names a.disk d = some b.disk ∧ b.running = a.running := by
  obtain ⟨disk, hdisk, rfl⟩ := Option.map_eq_some_iff.mp h
  exact ⟨hdisk, rfl⟩

/-- Retiring a checkpoint leaves the tasks alone. -/
theorem running_retire {stream : Text} {retired : Bool} {c : Agent}
    (hc : (if retired then a.onDisk (.remove stream) else some a) = some c) :
    c.running = a.running := by
  cases retired with
  | false =>
      cases hc
      rfl
  | true => exact (onDisk_eq_some hc).2

theorem step_disk (h : a.step toVec fromSlice e = some b) :
    (diskEvent toVec e = none ∧ b.disk = a.disk)
      ∨ ∃ d, diskEvent toVec e = some d ∧ State.step names a.disk d = some b.disk := by
  cases e with
  | start stream readable =>
      rw [step] at h
      split at h
      · cases h
      · split at h <;> cases h <;> exact .inl ⟨rfl, rfl⟩
  | save stream cp =>
      rw [step] at h
      split at h
      · exact .inr ⟨_, rfl, (onDisk_eq_some h).1⟩
      · cases h
  | write stream failed => exact .inr ⟨_, rfl, (onDisk_eq_some h).1⟩
  | sync stream ok => exact .inr ⟨_, rfl, (onDisk_eq_some h).1⟩
  | rename stream ok => exact .inr ⟨_, rfl, (onDisk_eq_some h).1⟩
  | settle => exact .inr ⟨_, rfl, (onDisk_eq_some h).1⟩
  | join stream retired =>
      rw [step] at h
      split at h
      · obtain ⟨c, hc, rfl⟩ := Option.map_eq_some_iff.mp h
        cases retired with
        | false =>
            cases hc
            exact .inl ⟨rfl, rfl⟩
        | true => exact .inr ⟨_, rfl, (onDisk_eq_some hc).1⟩
      · cases h
  | kill =>
      rw [step] at h
      obtain ⟨c, hc, rfl⟩ := Option.map_eq_some_iff.mp h
      exact .inr ⟨_, rfl, (onDisk_eq_some hc).1⟩
  | powerLoss pick garbled =>
      rw [step] at h
      obtain ⟨c, hc, rfl⟩ := Option.map_eq_some_iff.mp h
      exact .inr ⟨_, rfl, (onDisk_eq_some hc).1⟩

/-- A task has been running, unless it has just loaded its checkpoint. -/
theorem step_running {stream : Text} (h : a.step toVec fromSlice e = some b)
    (hb : b.running stream = true) : a.running stream = true
      ∨ ∃ readable c, e = .start stream readable
        ∧ load fromSlice (pathFor stream) readable (a.disk.files (pathFor stream)) = .ok c := by
  cases e with
  | start other readable =>
      rw [step] at h
      split at h
      · cases h
      · split at h
        · cases h
          exact .inl hb
        · rename_i c hload
          cases h
          by_cases heq : stream = other
          · subst heq
            exact .inr ⟨readable, c, rfl, hload⟩
          · exact .inl (by simpa only [Function.update_of_ne heq] using hb)
  | save other cp =>
      rw [step] at h
      split at h
      · exact .inl ((onDisk_eq_some h).2 ▸ hb)
      · cases h
  | write other failed => exact .inl ((onDisk_eq_some h).2 ▸ hb)
  | sync other ok => exact .inl ((onDisk_eq_some h).2 ▸ hb)
  | rename other ok => exact .inl ((onDisk_eq_some h).2 ▸ hb)
  | settle => exact .inl ((onDisk_eq_some h).2 ▸ hb)
  | join other retired =>
      rw [step] at h
      split at h
      · obtain ⟨c, hc, rfl⟩ := Option.map_eq_some_iff.mp h
        have hrunning : c.running = a.running := running_retire hc
        by_cases heq : stream = other
        · subst heq
          simp at hb
        · rw [← hrunning]
          exact .inl (by simpa only [Function.update_of_ne heq] using hb)
      · cases h
  | kill =>
      rw [step] at h
      obtain ⟨c, hc, rfl⟩ := Option.map_eq_some_iff.mp h
      cases hb
  | powerLoss pick garbled =>
      rw [step] at h
      obtain ⟨c, hc, rfl⟩ := Option.map_eq_some_iff.mp h
      cases hb

/-- A task that is over has nothing under way. -/
theorem step_stopped {stream : Text} (h : a.step toVec fromSlice e = some b)
    (ha : a.running stream = true) : b.running stream = true ∨ b.disk.saving stream = none := by
  cases e with
  | start other readable =>
      rw [step] at h
      split at h
      · cases h
      · split at h <;> cases h
        · exact .inl ha
        · by_cases heq : stream = other
          · subst heq
            exact .inl (Function.update_self ..)
          · exact .inl (by simpa only [Function.update_of_ne heq] using ha)
  | save other cp =>
      rw [step] at h
      split at h
      · exact .inl ((onDisk_eq_some h).2 ▸ ha)
      · cases h
  | write other failed => exact .inl ((onDisk_eq_some h).2 ▸ ha)
  | sync other ok => exact .inl ((onDisk_eq_some h).2 ▸ ha)
  | rename other ok => exact .inl ((onDisk_eq_some h).2 ▸ ha)
  | settle => exact .inl ((onDisk_eq_some h).2 ▸ ha)
  | join other retired =>
      rw [step] at h
      split at h
      · rename_i hjoin
        obtain ⟨c, hc, rfl⟩ := Option.map_eq_some_iff.mp h
        by_cases heq : stream = other
        · subst heq
          have hnone := Option.isNone_iff_eq_none.mp (Bool.and_eq_true_iff.mp hjoin).2
          cases retired with
          | false =>
              cases hc
              exact .inr hnone
          | true =>
              have hdisk := (onDisk_eq_some hc).1
              rw [State.step, hnone] at hdisk
              have hsaving : c.disk.saving stream = none := Option.some.inj hdisk ▸ hnone
              exact .inr hsaving
        · have hrunning : c.running = a.running := running_retire hc
          exact .inl (by simpa only [Function.update_of_ne heq, hrunning] using ha)
      · cases h
  | kill =>
      rw [step] at h
      obtain ⟨c, hc, rfl⟩ := Option.map_eq_some_iff.mp h
      have hdisk := Option.some.inj (onDisk_eq_some hc).1
      have hsaving : c.disk.saving stream = none := hdisk ▸ rfl
      exact .inr hsaving
  | powerLoss pick garbled =>
      rw [step] at h
      obtain ⟨c, hc, rfl⟩ := Option.map_eq_some_iff.mp h
      have hdisk := Option.some.inj (onDisk_eq_some hc).1
      have hsaving : c.disk.saving stream = none := hdisk ▸ rfl
      exact .inr hsaving

/-- Only the task of a stream puts something in the place of its checkpoint. -/
theorem step_own {stream : Text} (h : a.step toVec fromSlice e = some b)
    (hd : (∃ content, diskEvent toVec e = some (.create stream content))
      ∨ diskEvent toVec e = some (.remove stream)) : a.running stream = true := by
  cases e with
  | save other cp =>
      rw [step] at h
      split at h
      · rename_i hrunning
        rcases hd with ⟨content, hd⟩ | hd <;> cases hd
        exact hrunning
      · cases h
  | join other retired =>
      rw [step] at h
      split at h
      · rename_i hrunning
        cases retired <;> rcases hd with ⟨content, hd⟩ | hd <;> cases hd
        exact (Bool.and_eq_true_iff.mp hrunning).1
      · cases h
  | _ => rcases hd with ⟨content, hd⟩ | hd <;> cases hd

/-! ## What is kept -/

/-- Saves are under way for the streams whose tasks run. -/
structure Inv (a : Agent) : Prop where
  disk : State.Inv names Named a.disk
  named : ∀ stream, a.running stream = true → Named stream
  working : ∀ stream, a.disk.saving stream ≠ none → a.running stream = true

variable {files : Text → Option Text} {stream : Text}

theorem inv_found (files : Text → Option Text) : Inv (found files) where
  disk := State.inv_found files
  named := fun _ h => by cases h
  working := fun _ h => absurd rfl h

theorem Inv.step (h : Inv a) (hnamed : OfNamed e) (hb : a.step toVec fromSlice e = some b) :
    Inv b := by
  have hby : ∀ d, diskEvent toVec e = some d → State.By Named a.disk d := by
    intro d hd
    cases d with
    | create stream content => exact h.named _ (step_own hb (.inl ⟨content, hd⟩))
    | remove stream => exact h.named _ (step_own hb (.inr hd))
    | _ => exact True.intro
  refine ⟨?_, fun stream hrunning => ?_, fun stream hsv => ?_⟩
  · rcases step_disk hb with ⟨-, hdisk⟩ | ⟨d, hd, hdisk⟩
    · exact hdisk ▸ h.disk
    · exact h.disk.step names_apart (hby d hd) hdisk
  · rcases step_running hb hrunning with hrunning | ⟨readable, c, rfl, -⟩
    · exact h.named stream hrunning
    · exact hnamed
  · have hrunning : a.running stream = true := by
      rcases step_disk hb with ⟨-, hdisk⟩ | ⟨d, hd, hdisk⟩
      · exact h.working stream (hdisk ▸ hsv)
      · rcases State.saving_step hdisk hsv with hold | ⟨content, rfl⟩
        · exact h.working stream hold
        · exact step_own hb (.inl ⟨content, hd⟩)
    exact (step_stopped hb hrunning).resolve_right hsv

theorem Inv.run {es : List Event} (h : Inv a) (hnamed : ∀ e ∈ es, OfNamed e)
    (hr : run (Agent.step toVec fromSlice) a es = some b) : Inv b :=
  run_invariant (fun _ _ _ h hok hb => h.step hok hb) h (.of_forall fun e he _ => hnamed e he) hr

/-- What the events put in the place of the checkpoint of a stream: what a save that came as far
as its rename wrote, and nothing, where the stream was retired. -/
def published (toVec : Checkpoint → Text) (stream : Text) (es : List Event) :
    List (Option Text) :=
  puts stream none (es.filterMap (diskEvent toVec))

/-- The checkpoint is the one that was found, and no task runs for the stream. -/
structure Untouched (stream : Text) (file : Option Text) (a : Agent) : Prop where
  off : a.running stream = false
  stands : a.disk.stands stream = [0]
  history : a.disk.history stream = [file]

theorem Untouched.file {file : Option Text} (hu : Untouched stream file a)
    (h : Inv a) : a.disk.files (pathFor stream) = file := by
  obtain ⟨is, i, his, -, hfile⟩ := h.disk.stands_eq stream
  have hfile : a.disk.files (pathFor stream) = (a.disk.history stream).getD i none := hfile
  rw [hu.stands] at his
  have hsplit : [] ++ [0] = is ++ [i] := his
  have hi := (List.append_inj' hsplit rfl).2
  rw [hfile, hu.history, ← List.singleton_inj.mp hi]
  rfl

theorem Untouched.step {file : Option Text} (h : Inv a) (hu : Untouched stream file a)
    (hrefused : ∀ readable c, load fromSlice (pathFor stream) readable file ≠ .ok c)
    (hb : a.step toVec fromSlice e = some b) : Untouched stream file b := by
  have hfile := hu.file h
  have hoff : b.running stream = false := by
    by_contra hrunning
    rcases step_running hb (Bool.eq_true_of_not_eq_false hrunning) with ha | ⟨r, c, -, hload⟩
    · rw [hu.off] at ha
      cases ha
    · exact hrefused r c (hfile ▸ hload)
  have hidle : a.disk.saving stream = none := by
    by_contra hsv
    have hrunning := h.working stream hsv
    rw [hu.off] at hrunning
    cases hrunning
  rcases step_disk hb with ⟨-, hdisk⟩ | ⟨d, hd, hdisk⟩
  · exact ⟨hoff, hdisk ▸ hu.stands, hdisk ▸ hu.history⟩
  · cases State.change hdisk with
    | none hhistory hstands => exact ⟨hoff, hstands ▸ hu.stands, hhistory ▸ hu.history⟩
    | record other content hsource hhistory hstands =>
        have hne : stream ≠ other := by
          rintro rfl
          rcases hsource with ⟨rfl, -⟩ | ⟨sv, hsv, -⟩
          · have hrunning := step_own hb (.inr hd)
            rw [hu.off] at hrunning
            cases hrunning
          · rw [hidle] at hsv
            cases hsv
        refine ⟨hoff, ?_, ?_⟩
        · simpa only [hstands, State.record, Function.update_of_ne hne] using hu.stands
        · simpa only [hhistory, State.record, Function.update_of_ne hne] using hu.history
    | settle hhistory hstands =>
        refine ⟨hoff, ?_, hhistory ▸ hu.history⟩
        rw [hstands]
        simp [hu.stands]
    | powerLoss pick garbled _ hhistory hstands =>
        refine ⟨hoff, ?_, hhistory ▸ hu.history⟩
        rw [hstands]
        simp [hu.stands]

/-! ## What is found -/

/-- A checkpoint of one stream and the one after it, and how they are written. -/
def written : List (Checkpoint × Text) :=
  [({ lastTickNs := some 5, nextSeq := 1 },
      "\x7b\"format\":1,\"files\":[],\"last_tick_ns\":5,\"next_seq\":1,".toList
        ++ "\"lateness_ns\":null,\"cursor\":null\x7d".toList),
    ({ lastTickNs := some 7, nextSeq := 0 },
      "\x7b\"format\":1,\"files\":[],\"last_tick_ns\":7,\"next_seq\":0,".toList
        ++ "\"lateness_ns\":null,\"cursor\":null\x7d".toList)]

def writtenVec (cp : Checkpoint) : Text := ((written.find? (·.1 = cp)).map (·.2)).getD []

def writtenSlice (bytes : Text) : Option Checkpoint :=
  (written.find? (·.2 = bytes)).map (·.1)

def app : Text := "app".toList

/-- The save of a checkpoint that goes through. -/
def saves (stream : Text) (cp : Checkpoint) : List Event :=
  [.save stream cp, .write stream none, .sync stream true, .rename stream true]

/-- The process is killed while the second checkpoint is saved. -/
def killed : List Event :=
  .start app true :: saves app { lastTickNs := some 5, nextSeq := 1 }
    ++ [.save app { lastTickNs := some 7, nextSeq := 0 }, .write app (some []), .kill,
      .start app true]

/-- **A checkpoint that is refused stays as it is**, to the end of every run, and no task runs for
its stream. -/
theorem refused_untouched {es : List Event} {bytes : Text} {why : LoadError}
    (hnamed : ∀ e ∈ es, OfNamed e) (hfile : files (pathFor stream) = some bytes)
    (hrefused : load fromSlice (pathFor stream) true (some bytes) = .error why)
    (hr : run (Agent.step toVec fromSlice) (found files) es = some a) :
    a.running stream = false ∧ a.disk.files (pathFor stream) = some bytes := by
  have hnone : ∀ readable c,
      load fromSlice (pathFor stream) readable (some bytes) ≠ .ok c := by
    intro readable c
    cases readable with
    | false => simp [load]
    | true => simp [hrefused]
  have hfound : Untouched stream (some bytes) (found files) :=
    ⟨rfl, rfl, congrArg (fun c => [c]) hfile⟩
  have hinv := run_invariant
    (I := fun a => Inv a ∧ Untouched stream (some bytes) a)
    (fun _ _ _ h hok hstep => ⟨h.1.step hok hstep, h.2.step h.1 hnone hstep⟩)
    ⟨inv_found files, hfound⟩ (.of_forall fun e he _ => hnamed e he) hr
  exact ⟨hinv.2.off, hinv.2.file hinv.1⟩

/-- What a newer agent left under the name of a stream. -/
def newer : Text := "\x7b\"format\":2,\"files\":[],\"last_tick_ns\":null,\"next_seq\":0\x7d".toList

def newerSlice (bytes : Text) : Option Checkpoint :=
  if bytes = newer then some { format := 2 } else writtenSlice bytes

def db : Text := "db".toList

/-- The task of the stream is refused, and that of another saves and is retired. -/
def rolledBack : List Event :=
  [.start app true, .start db true] ++ saves db { lastTickNs := some 5, nextSeq := 1 }
    ++ [.join db true, .powerLoss (fun _ => 1) (fun _ => none), .start app true]

theorem refused_untouched_rolledBack :
    ∃ a, run (Agent.step writtenVec newerSlice)
        (found fun name => if name = pathFor app then some newer else none) rolledBack = some a
      ∧ a.running app = false ∧ a.disk.files (pathFor app) = some newer := by
  have hrun : (run (Agent.step writtenVec newerSlice)
      (found fun name => if name = pathFor app then some newer else none) rolledBack).isSome
      = true := by decide +kernel
  obtain ⟨a, ha⟩ := Option.isSome_iff_exists.mp hrun
  have happ : Named app := by decide
  have hdb : Named db := by decide
  have hnamed : ∀ e ∈ rolledBack, OfNamed e := by simp [rolledBack, saves, OfNamed, happ, hdb]
  exact ⟨a, ha, refused_untouched hnamed (if_pos rfl)
    (by decide +kernel : load newerSlice (pathFor app) true (some newer)
      = .error (.newer (newerMessage (pathFor app) 2))) ha⟩

end Agent

end Tributary.Checkpoint
