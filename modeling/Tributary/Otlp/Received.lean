import Tributary.Lib.Run
import Tributary.Otlp.Unique

/-!
# The counter of received records

A request counts its accepted records before it asks the queue for room. What the queue
refuses has been counted by then, and is counted again when the sender repeats it.
-/

namespace Tributary.Otlp

open Lib Lp Map Queue Stamp

variable (libs : Libs) (ioText : IoError → String)

/-! ## The receiver over time -/

/-- The receiver, and how many records have been placed in its queue. -/
structure Counted where
  recv : Recv
  placed : Nat

inductive Step where
  | request (inc : Incoming)
  /-- the drain has shipped and removed segments -/
  | drained (queue : Queue) (dir : Dir Text)

/-- The records of a request that come to stand in the queue. -/
def placedBy (recv : Recv) (inc : Incoming) : Nat :=
  match inc.decoded with
  | .error _ => 0
  | .ok req => if queues libs recv inc req then (gather libs recv req inc.now).records.length else 0

def serve (s : Counted) : Step → Counted
  | .request inc =>
      { recv := (ingest libs ioText s.recv inc).2, placed := s.placed + placedBy libs s.recv inc }
  | .drained queue dir => { s with recv := { s.recv with queue, dir } }

def Counted.start (source : Source) (queue : Queue) (dir : Dir Text) : Counted :=
  { recv := Recv.start source queue dir, placed := 0 }

/-- There is room for the lines of a request, under the cap and on the disk, if it has
any. -/
def Room (s : Counted) : Step → Prop
  | .request inc => ∀ req, inc.decoded = .ok req →
      (gather libs s.recv req inc.now).records ≠ [] →
        s.recv.queue.bytes + (gather libs s.recv req inc.now).lines.utf8Len
          ≤ s.recv.queue.maxBytes ∧ inc.io = .ok
  | .drained _ _ => True

variable {libs ioText} {recv : Recv} {inc : Incoming} {s : Counted} {e : Step}

/-! ## One request -/

/-- What a request counts. -/
def countedBy (libs : Libs) (recv : Recv) (inc : Incoming) : Nat :=
  match inc.decoded with
  | .error _ => 0
  | .ok req => (gather libs recv req inc.now).records.length

theorem ingest_received :
    (ingest libs ioText recv inc).2.otlpReceived = recv.otlpReceived + countedBy libs recv inc := by
  rw [ingest, countedBy]
  cases inc.decoded with
  | error e => rfl
  | ok req =>
      simp only
      split
      · rfl
      · split <;> rfl

/-- A push succeeds when there is room, and only then. -/
theorem push_eq_true_iff {β : Type} (size : β → Nat) (q : Queue) (dir : Dir β) (body : β)
    (io : Io) :
    (Queue.push size q dir body io).1 = .ok true ↔ q.bytes + size body ≤ q.maxBytes ∧ io = .ok := by
  unfold Queue.push
  by_cases hcap : q.maxBytes < q.bytes + size body
  · rw [if_pos hcap]
    refine ⟨nofun, fun h => absurd h.1 (Nat.not_le.mpr hcap)⟩
  · rw [if_neg hcap]
    have hfits : q.bytes + size body ≤ q.maxBytes := Nat.not_lt.mp hcap
    cases io with
    | ok => exact ⟨fun _ => ⟨hfits, rfl⟩, fun _ => rfl⟩
    | fail at_ e =>
        refine ⟨fun h => ?_, nofun⟩
        cases at_ <;> cases hspace : outOfSpace e <;>
          simp [spool, writeSegment, renameError, hspace] at h

/-- The records of a request are placed if there are any, there is room under the cap, and
the disk takes them. -/
theorem queues_iff {req : ExportLogsServiceRequest} :
    queues libs recv inc req = true ↔
      (gather libs recv req inc.now).records ≠ [] ∧
        recv.queue.bytes + (gather libs recv req inc.now).lines.utf8Len
          ≤ recv.queue.maxBytes ∧ inc.io = .ok := by
  rw [← push_eq_true_iff Text.utf8Len recv.queue recv.dir]
  simp only [queues]
  generalize (Queue.push Text.utf8Len recv.queue recv.dir
    (gather libs recv req inc.now).lines inc.io).1 = answer
  cases answer with
  | error e => simp
  | ok took => cases took <;> simp

/-- The room of a request that was decoded. -/
theorem room_request_iff {req : ExportLogsServiceRequest} (hreq : inc.decoded = .ok req) :
    Room libs s (.request inc) ↔
      ((gather libs s.recv req inc.now).records ≠ [] →
        s.recv.queue.bytes + (gather libs s.recv req inc.now).lines.utf8Len
          ≤ s.recv.queue.maxBytes ∧ inc.io = .ok) := by
  simp only [Room, hreq, Except.ok.injEq, forall_eq']

/-- A request counts what it places exactly if there is room for it, and never less. -/
theorem placedBy_eq_iff :
    placedBy libs s.recv inc ≤ countedBy libs s.recv inc ∧
      (placedBy libs s.recv inc = countedBy libs s.recv inc
        ↔ Room libs s (.request inc)) := by
  cases hreq : inc.decoded with
  | error e =>
      refine ⟨by simp [placedBy, countedBy, hreq], ?_⟩
      simp [placedBy, countedBy, Room, hreq]
  | ok req =>
      rw [room_request_iff hreq]
      simp only [placedBy, countedBy, hreq]
      by_cases hq : queues libs s.recv inc req = true
      · rw [if_pos hq]
        exact ⟨Nat.le_refl _, iff_of_true rfl fun _ => (queues_iff.mp hq).2⟩
      · rw [if_neg hq]
        refine ⟨Nat.zero_le _, ?_⟩
        by_cases hnone : (gather libs s.recv req inc.now).records = []
        · apply iff_of_true
          · rw [hnone]
            rfl
          · exact fun h => absurd hnone h
        · apply iff_of_false
          · exact fun h => hnone (List.length_eq_zero_iff.mp h.symm)
          · exact fun h => hq (queues_iff.mpr ⟨hnone, h hnone⟩)

/-! ## A sequence of requests -/

/-- What is placed has been counted. -/
theorem serve_le (h : s.placed ≤ s.recv.otlpReceived) :
    (serve libs ioText s e).placed ≤ (serve libs ioText s e).recv.otlpReceived := by
  cases e with
  | drained queue dir => exact h
  | request inc =>
      show s.placed + _ ≤ (ingest libs ioText s.recv inc).2.otlpReceived
      rw [ingest_received]
      exact Nat.add_le_add h placedBy_eq_iff.1

/-- A step keeps the two equal exactly if it has room. -/
theorem serve_eq_iff (h : s.placed ≤ s.recv.otlpReceived) :
    (serve libs ioText s e).recv.otlpReceived = (serve libs ioText s e).placed
      ↔ s.recv.otlpReceived = s.placed ∧ Room libs s e := by
  cases e with
  | drained queue dir => exact (and_iff_left True.intro).symm
  | request inc =>
      obtain ⟨hle, hroom⟩ : placedBy libs s.recv inc ≤ countedBy libs s.recv inc
          ∧ (placedBy libs s.recv inc = countedBy libs s.recv inc
            ↔ Room libs s (.request inc)) := placedBy_eq_iff
      show (ingest libs ioText s.recv inc).2.otlpReceived = s.placed + _ ↔ _
      rw [ingest_received, ← hroom]
      omega

/-- The steps of the receiver are always possible. -/
theorem run_serve (s : Counted) (es : List Step) :
    run (fun s e => some (serve libs ioText s e)) s es
      = some (es.foldl (serve libs ioText) s) := by
  induction es generalizing s with
  | nil => rfl
  | cons e es ih => exact ih _

/-- **The counter is the number of records in the queue's segments** after a sequence of
requests, exactly if there was room for every request that had records to place. -/
theorem received_eq_placed_iff (libs : Libs) (ioText : IoError → String) (source : Source)
    (queue : Queue) (dir : Dir Text) (es : List Step) :
    (es.foldl (serve libs ioText) (.start source queue dir)).recv.otlpReceived
        = (es.foldl (serve libs ioText) (.start source queue dir)).placed
      ↔ Meets (fun s e => some (serve libs ioText s e)) (Room libs)
          (.start source queue dir) es := by
  let step := fun s e => some (serve libs ioText s e)
  have hkeep : ∀ s e t, s.placed ≤ s.recv.otlpReceived → step s e = some t →
      t.placed ≤ t.recv.otlpReceived := by
    intro s e t h ht
    cases Option.some.inj ht
    exact serve_le h
  have hstep : ∀ s e t, s.placed ≤ s.recv.otlpReceived → step s e = some t →
      (t.recv.otlpReceived = t.placed ↔ s.recv.otlpReceived = s.placed ∧ Room libs s e) := by
    intro s e t h ht
    cases Option.some.inj ht
    exact serve_eq_iff h
  have hiff := run_meets_iff (I := fun s : Counted => s.placed ≤ s.recv.otlpReceived)
    (Q := fun s : Counted => s.recv.otlpReceived = s.placed) hkeep hstep (Nat.le_refl 0)
    (run_serve (.start source queue dir) es)
  exact hiff.trans (and_iff_right rfl)

/-! ## A request that is repeated -/

/-- A queue that takes nothing. -/
def cappedQueue : Queue := (Queue.open (β := Text) Text.utf8Len [] 0).2

/-- Two records are refused twice, and have been received four times. -/
theorem refused_counted :
    ¬ ∀ (libs : Libs) (ioText : IoError → String) (source : Source) (queue : Queue)
      (dir : Dir Text) (es : List Step),
      (es.foldl (serve libs ioText) (.start source queue dir)).recv.otlpReceived
        = (es.foldl (serve libs ioText) (.start source queue dir)).placed := by
  intro h
  have hfour : ([.request twoBodies, .request twoBodies].foldl (serve plainLibs fun _ => "")
      (.start bodySource cappedQueue [])).recv.otlpReceived = 4 := by decide +kernel
  have hnone : ([.request twoBodies, .request twoBodies].foldl (serve plainLibs fun _ => "")
      (.start bodySource cappedQueue [])).placed = 0 := by decide +kernel
  have heq := h plainLibs (fun _ => "") bodySource cappedQueue []
    [.request twoBodies, .request twoBodies]
  rw [hfour, hnone] at heq
  cases heq

end Tributary.Otlp
