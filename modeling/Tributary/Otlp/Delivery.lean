import Tributary.Drain.Relay
import Tributary.Lp.Encode
import Tributary.Otlp.Acknowledge
import Tributary.Otlp.Unique

/-!
# What the receiver promised

A request that is answered 200 may be forgotten by its sender. The handlers push onto the
queue from which the drain task ships, and the process may be killed at any point and started
anew over the same directory; through all of that a promised record stands in a segment on disk
until the server has taken its line, or refused it.
-/

namespace Tributary.Otlp

open Lib Lp Map Queue Ship Stamp

/-! ## The service -/

/-- The queue with its drain, the rest of the handlers' state, and the records of the requests
that were answered 200. -/
structure Service where
  relay : Relay Text Text
  stamper : Stamper
  otlpReceived : Nat
  otlpRejected : Nat
  otlpRequestsRejected : Nat
  promised : List Record

namespace Service

inductive Event where
  | request (inc : Incoming)
  /-- killed inside the push of the request's lines -/
  | requestKilled (inc : Incoming) (at_ : KillPoint)
  /-- the drain's steps, kills and restarts -/
  | relay (e : Relay.Event Text Text)

def empty : Service :=
  { relay := Relay.empty, stamper := Stamper.new .nanos, otlpReceived := 0, otlpRejected := 0,
    otlpRequestsRejected := 0, promised := [] }

/-- What a handler works on. -/
def recv (source : Source) (s : Service) (q : Queue) : Recv :=
  { source, queue := q, dir := s.relay.host.dir, stamper := s.stamper,
    otlpReceived := s.otlpReceived, otlpRejected := s.otlpRejected,
    otlpRequestsRejected := s.otlpRequestsRejected }

variable (libs : Libs) (ioText : IoError → String) (source : Source)

/-- The body that a request comes to put into the queue, if any. -/
def placed (recv : Recv) (inc : Incoming) : List Text :=
  match inc.decoded with
  | .error _ => []
  | .ok req => if queues libs recv inc req then [(gather libs recv req inc.now).lines] else []

/-- The records of a request with this answer that its sender may forget. -/
def promise (recv : Recv) (inc : Incoming) (answer : Response) : List Record :=
  match inc.decoded with
  | .error _ => []
  | .ok req => if answer.status = 200 then (gather libs recv req inc.now).records else []

def step (s : Service) : Event → Option Service
  | .request inc =>
      s.relay.host.queue.map fun q =>
        let recv := s.recv source q
        let (answer, after) := ingest libs ioText recv inc
        { relay := { s.relay with
            host := { s.relay.host with
              dir := after.dir
              queue := some after.queue
              fifo := s.relay.host.fifo ++ placed libs recv inc }
            landed := s.relay.landed ++ placed libs recv inc }
          stamper := after.stamper
          otlpReceived := after.otlpReceived
          otlpRejected := after.otlpRejected
          otlpRequestsRejected := after.otlpRequestsRejected
          promised := s.promised ++ promise libs recv inc answer }
  | .requestKilled inc at_ =>
      s.relay.host.queue.bind fun q =>
        match inc.decoded with
        | .error _ => none
        | .ok req =>
            let b := gather libs (s.recv source q) req inc.now
            if b.records = [] then none
            else
              (Relay.step drain s.relay (.pushKilled b.lines at_)).map fun relay => { s with relay }
  | .relay (.push _ _) => none
  | .relay (.pushKilled _ _) => none
  | .relay (.open maxBytes) =>
      (Relay.step drain s.relay (.open maxBytes)).map fun relay =>
        { empty with relay, promised := s.promised }
  | .relay e => (Relay.step drain s.relay e).map fun relay => { s with relay }

/-- The sequence number a push could use still has twelve digits. -/
def Sequenced (s : Service) (_ : Event) : Prop :=
  ∀ q ∈ s.relay.host.queue, q.nextSeq < 10 ^ 12

instance : DecidableRel Sequenced := fun s _ =>
  inferInstanceAs (Decidable (∀ q ∈ s.relay.host.queue, q.nextSeq < 10 ^ 12))

/-! ## A request as a push -/

variable {libs ioText source} {s t : Service} {inc : Incoming}

theorem queues_eq_true_iff {recv : Recv} {req : ExportLogsServiceRequest} :
    queues libs recv inc req = true ↔ (gather libs recv req inc.now).records ≠ []
      ∧ (Queue.push Text.utf8Len recv.queue recv.dir (gather libs recv req inc.now).lines
          inc.io).1 = .ok true := by
  rw [queues]
  generalize (Queue.push Text.utf8Len recv.queue recv.dir
    (gather libs recv req inc.now).lines inc.io).1 = answer
  rcases answer with e | (_ | _) <;> simp

/-- A request leaves queue and directory alone, or pushes the lines of its records. -/
theorem ingest_cases (recv : Recv) (inc : Incoming) :
    ((ingest libs ioText recv inc).2.queue = recv.queue
        ∧ (ingest libs ioText recv inc).2.dir = recv.dir ∧ placed libs recv inc = []
        ∧ promise libs recv inc (ingest libs ioText recv inc).1 = [])
      ∨ ∃ req, inc.decoded = .ok req ∧ (gather libs recv req inc.now).records ≠ []
        ∧ ((ingest libs ioText recv inc).2.queue, (ingest libs ioText recv inc).2.dir)
          = (Queue.push Text.utf8Len recv.queue recv.dir (gather libs recv req inc.now).lines
              inc.io).2
        ∧ (∀ fifo : List Text, fifo ++ placed libs recv inc
          = Host.offered fifo (gather libs recv req inc.now).lines
              (Queue.push Text.utf8Len recv.queue recv.dir (gather libs recv req inc.now).lines
                inc.io).1)
        ∧ ∀ r ∈ promise libs recv inc (ingest libs ioText recv inc).1,
            placed libs recv inc = [(gather libs recv req inc.now).lines]
              ∧ r ∈ (gather libs recv req inc.now).records := by
  rw [ingest]
  cases hreq : inc.decoded with
  | error e => exact .inl ⟨rfl, rfl, by rw [placed, hreq], by rw [promise, hreq]⟩
  | ok req =>
      simp only [placed, promise, hreq]
      by_cases hnone : (gather libs recv req inc.now).records = []
      · have hq : ¬ queues libs recv inc req = true := fun h => (queues_eq_true_iff.mp h).1 hnone
        refine .inl ⟨by rw [if_pos hnone], by rw [if_pos hnone], if_neg hq, ?_⟩
        rw [hnone]
        exact ite_self _
      · refine .inr ⟨req, rfl, hnone, ?_⟩
        have hqueues : queues libs recv inc req = true ↔ _ := queues_eq_true_iff
        rw [if_neg hnone]
        rcases hpush : Queue.push Text.utf8Len recv.queue recv.dir
          (gather libs recv req inc.now).lines inc.io with ⟨answer, queue, dir⟩
        rw [hpush] at hqueues
        rcases answer with e | (_ | _)
        · have hq : ¬ queues libs recv inc req = true := fun h => by cases (hqueues.mp h).2
          exact ⟨rfl, fun fifo => by rw [if_neg hq]; exact List.append_nil _, by simp [text]⟩
        · have hq : ¬ queues libs recv inc req = true := fun h => by cases (hqueues.mp h).2
          exact ⟨rfl, fun fifo => by rw [if_neg hq]; exact List.append_nil _, by simp [text]⟩
        · have hq : queues libs recv inc req = true := hqueues.mpr ⟨hnone, rfl⟩
          refine ⟨rfl, fun fifo => by rw [if_pos hq]; rfl, fun r hr => ⟨if_pos hq, ?_⟩⟩
          simpa [protoOk] using hr

/-- A request leaves the relay as it is, or is a push. -/
theorem step_request {q : Queue} (hq : s.relay.host.queue = some q)
    (ht : step libs ioText source s (.request inc) = some t) :
    (t.relay = s.relay ∧ t.promised = s.promised)
      ∨ ∃ req, inc.decoded = .ok req
        ∧ Relay.step drain s.relay
            (.push (gather libs (s.recv source q) req inc.now).lines inc.io) = some t.relay
        ∧ ∀ r ∈ t.promised, r ∈ s.promised
          ∨ (gather libs (s.recv source q) req inc.now).lines ∈ t.relay.landed
            ∧ r ∈ (gather libs (s.recv source q) req inc.now).records := by
  simp only [step, hq, Option.map_some, Option.some.injEq] at ht
  subst ht
  rcases @ingest_cases libs ioText (s.recv source q) inc with
    ⟨hqueue, hdir, hplaced, hpromise⟩ | ⟨req, hreq, -, hpush, hoffered, hpromise⟩
  · left
    simp only [hqueue, hdir, hplaced, hpromise, List.append_nil]
    exact ⟨by simp only [recv, ← hq], True.intro⟩
  · refine .inr ⟨req, hreq, ?_, ?_⟩
    · rw [Prod.ext_iff] at hpush
      simp only at hpush
      simp only [Relay.step, hq, Option.bind_some, Host.step, Option.map_some, hpush.1, hpush.2,
        hoffered]
      rfl
    · intro r hr
      rcases List.mem_append.mp hr with hr | hr
      · exact .inl hr
      · obtain ⟨hplaced, hmem⟩ := hpromise r hr
        refine .inr ⟨?_, hmem⟩
        simp [hplaced]

/-! ## The invariant -/

/-- A promised record is one of a body that landed. -/
structure Inv (libs : Libs) (s : Service) : Prop where
  relay : ∃ live, Relay.Inv drain s.relay live
  promised : ∀ r ∈ s.promised, ∃ rs, encodings libs rs ∈ s.relay.landed ∧ r ∈ rs

theorem Inv.empty : Inv libs empty where
  relay := ⟨[], Relay.Inv.empty⟩
  promised := by simp [Service.empty]

/-- A step of the relay keeps the promises. -/
theorem Inv.relayed (h : Inv libs s) {e : Relay.Event Text Text} {relay : Relay Text Text}
    (hok : Relay.Sequenced s.relay e) (hs : Relay.step drain s.relay e = some relay)
    (ht : t.relay = relay) (hpromised : t.promised = s.promised) : Inv libs t where
  relay := by
    obtain ⟨live, hlive⟩ := h.relay
    rw [ht]
    exact hlive.step hok hs
  promised := by
    intro r hr
    rw [hpromised] at hr
    obtain ⟨rs, hlanded, hmem⟩ := h.promised r hr
    rw [ht]
    exact ⟨rs, (Relay.landed_prefix hs).subset hlanded, hmem⟩

theorem Inv.step {e : Event} (h : Inv libs s) (hok : Sequenced s e)
    (ht : step libs ioText source s e = some t) : Inv libs t := by
  cases e with
  | request inc =>
      obtain ⟨q, hq, -⟩ := Option.map_eq_some_iff.mp ht
      rcases step_request hq ht with ⟨hrelay, hpromised⟩ | ⟨req, -, hpush, hpromised⟩
      · exact ⟨hrelay ▸ h.relay, by rw [hrelay, hpromised]; exact h.promised⟩
      · obtain ⟨live, hlive⟩ := h.relay
        refine ⟨hlive.step hok hpush, fun r hr => ?_⟩
        rcases hpromised r hr with hr | ⟨hlanded, hmem⟩
        · obtain ⟨rs, hlanded, hmem⟩ := h.promised r hr
          exact ⟨rs, (Relay.landed_prefix hpush).subset hlanded, hmem⟩
        · obtain ⟨-, hlines⟩ := @gather_eq libs (s.recv source q) req inc.now
          obtain ⟨hrecords, -⟩ := @gather_eq libs (s.recv source q) req inc.now
          rw [hlines] at hlanded
          rw [hrecords] at hmem
          exact ⟨_, hlanded, hmem⟩
  | requestKilled inc at_ =>
      obtain ⟨q, hq, ht⟩ := Option.bind_eq_some_iff.mp ht
      split at ht
      · cases ht
      · simp only at ht
        split at ht
        · cases ht
        · obtain ⟨relay, hs, rfl⟩ := Option.map_eq_some_iff.mp ht
          exact h.relayed hok hs rfl rfl
  | relay e =>
      cases e with
      | push body io => cases ht
      | pushKilled body at_ => cases ht
      | _ =>
          obtain ⟨relay, hs, rfl⟩ := Option.map_eq_some_iff.mp ht
          exact h.relayed hok hs rfl rfl

/-! ## The promise -/

/-- The server has taken the record's line, or refused it. -/
def Taken (libs : Libs) (s : Service) (r : Record) : Prop :=
  r.line libs.display ∈ s.relay.acked ∨ r.line libs.display ∈ s.relay.rejected

/-- The record's line is one of a segment on disk. -/
def Waiting (libs : Libs) (s : Service) (r : Record) : Prop :=
  ∃ body, Relay.OnDisk s.relay body ∧ r.line libs.display ∈ drain.split body

/-- The drain cuts a body into the lines of its records. -/
theorem mem_records_encodings (hd : ∀ f, (libs.display f).Printable) {rs : List Record}
    {r : Record} (hr : r ∈ rs) : r.line libs.display ∈ drain.records (encodings libs rs) := by
  have hone : ∀ t ∈ rs.map fun r => r.line libs.display, Record.OneLine t := by
    intro t ht
    obtain ⟨r, -, rfl⟩ := List.mem_map.mp ht
    exact ⟨r.content libs.display, Record.line_eq r, Record.printable_content hd r⟩
  have hsplit : drain.split (encodings libs rs) = rs.map fun r => r.line libs.display := by
    rw [encodings, List.flatMap_def]
    exact Record.splitInclusive_flatten hone
  refine Drainer.mem_records.mpr ⟨hsplit ▸ List.mem_map_of_mem hr, ?_⟩
  obtain ⟨u, hu, -⟩ := hone _ (List.mem_map_of_mem hr)
  rw [hu]
  exact List.isEmpty_eq_false_iff.mpr (by simp)

theorem Inv.taken_or_waiting (h : Inv libs s) (hd : ∀ f, (libs.display f).Printable)
    {r : Record} (hr : r ∈ s.promised) : Taken libs s r ∨ Waiting libs s r := by
  obtain ⟨rs, hlanded, hmem⟩ := h.promised r hr
  obtain ⟨live, hlive⟩ := h.relay
  have hrecord := mem_records_encodings hd hmem
  rcases hlive.kept_or_delivered hlanded with hdel | hdisk
  · exact .inl (hdel _ hrecord)
  · exact .inr ⟨_, hdisk, (Drainer.mem_records.mp hrecord).1⟩

/-- The drain's turns, as the service sees them. -/
def turns (scheds : List (List (Answer Text))) : List Event :=
  (scheds.flatMap Relay.turnOver).map .relay

theorem run_relay {es : List (Relay.Event Text Text)} {relay : Relay Text Text}
    (hes : ∀ e ∈ es, (∃ sched, e = .send sched) ∨ e = .look ∨ e = .load ∨ e = .pop)
    (h : run (Relay.step drain) s.relay es = some relay) :
    run (step libs ioText source) s (es.map .relay) = some { s with relay } := by
  induction es generalizing s with
  | nil =>
      cases h
      rfl
  | cons e es ih =>
      obtain ⟨u, hu, hrest⟩ := run_cons.mp h
      have hstep : step libs ioText source s (.relay e) = some { s with relay := u } := by
        rcases hes e (List.mem_cons_self ..) with ⟨sched, rfl⟩ | rfl | rfl | rfl <;>
          simp only [step, hu, Option.map_some]
      rw [List.map_cons]
      refine run_cons.mpr ⟨_, hstep, ?_⟩
      exact ih (s := { s with relay := u }) (fun e he => hes e (List.mem_cons_of_mem _ he)) hrest

/-- **What the receiver promised is delivered.** Through every history of requests, drain steps,
kills and restarts, each record of a request that was answered 200 has been taken by the server
or refused by it, or stands in a segment on disk; and whenever the drain is at the top of its
loop, a server that is up takes or refuses all that is left. -/
theorem promised_delivered (libs : Libs) (ioText : IoError → String) (source : Source)
    (hd : ∀ f, (libs.display f).Printable) {es : List Event} {s : Service}
    (hseq : Meets (step libs ioText source) Sequenced empty es)
    (hr : run (step libs ioText source) empty es = some s) :
    (∀ r ∈ s.promised, Taken libs s r ∨ Waiting libs s r)
      ∧ ∀ bad scheds, s.relay.turn = .idle → s.relay.host.queue ≠ none →
          List.Forall₂ (Relay.Suffices drain bad) s.relay.host.fifo scheds →
          ∃ t, run (step libs ioText source) s (turns scheds) = some t
            ∧ t.promised = s.promised ∧ ∀ r ∈ s.promised, Taken libs t r := by
  have hinv : Inv libs s :=
    run_invariant (I := Inv libs) (fun _ _ _ h hok hs => h.step hok hs) Inv.empty hseq hr
  refine ⟨fun r hr => hinv.taken_or_waiting hd hr, fun bad scheds hidle hq hup => ?_⟩
  obtain ⟨live, hlive⟩ := hinv.relay
  obtain ⟨relay, hrun, hlanded, hsettled, hafter⟩ := hlive.drains hidle hq hup
  refine ⟨{ s with relay }, run_relay ?_ hrun, rfl, fun r hr => ?_⟩
  · intro e he
    obtain ⟨sched, -, hmem⟩ := List.mem_flatMap.mp he
    simp only [Relay.turnOver, List.mem_cons, List.not_mem_nil, or_false] at hmem
    rcases hmem with rfl | rfl | rfl | rfl <;> simp
  · obtain ⟨rs, hmem, hrs⟩ := hinv.promised r hr
    exact hafter.delivered _ (hsettled ▸ hmem) _ (mem_records_encodings hd hrs)

/-- Answers 204 to everything. -/
def taking : Answer Text := fun _ => .status 204 none ""

/-- A request is taken, then the process is killed between sending and removing its segment,
and killed again inside the push of the next request. -/
def killedTwice : List Event :=
  [.relay (.open 1000), .request twoBodies, .relay .look, .relay .load, .relay (.send [taking]),
    .relay (.popKilled false), .relay (.open 1000), .request twoBodies,
    .requestKilled twoBodies .written, .relay (.open 1000)]

theorem promised_delivered_killedTwice :
    ∃ s, run (step plainLibs (fun _ => "") bodySource) empty killedTwice = some s
      ∧ s.promised.length = 4
      ∧ (∀ r ∈ s.promised, Taken plainLibs s r ∨ Waiting plainLibs s r)
      ∧ ∀ bad scheds, s.relay.turn = .idle → s.relay.host.queue ≠ none →
          List.Forall₂ (Relay.Suffices drain bad) s.relay.host.fifo scheds →
          ∃ t, run (step plainLibs (fun _ => "") bodySource) s (turns scheds) = some t
            ∧ t.promised = s.promised ∧ ∀ r ∈ s.promised, Taken plainLibs t r := by
  have hseq : Meets (step plainLibs (fun _ => "") bodySource) Sequenced empty killedTwice := by
    decide +kernel
  have hrun : (run (step plainLibs (fun _ => "") bodySource) empty killedTwice).map
      (fun s => s.promised.length) = some 4 := by decide +kernel
  obtain ⟨s, hs, hlen⟩ := Option.map_eq_some_iff.mp hrun
  exact ⟨s, hs, hlen, promised_delivered plainLibs (fun _ => "") bodySource
    (fun _ => by simp [plainLibs, Text.Printable]) hseq hs⟩

end Service

end Tributary.Otlp
