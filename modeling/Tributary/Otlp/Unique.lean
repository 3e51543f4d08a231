import Tributary.Otlp

/-!
# Keys of the queued records

The server keeps one row for a table, a tag set and a timestamp. The receiver's
stamper works at nanosecond resolution, where it passes every timestamp through,
so two records of one tag set share a row whenever their sender gave them the
same time.
-/

namespace Tributary.Otlp

open Lp Map Queue Stamp

variable (libs : Libs) (ioText : IoError → String)

/-! ## What a run of the receiver queues -/

/-- Whether the lines of the request come to stand in the queue. -/
def queues (recv : Recv) (inc : Incoming) (req : ExportLogsServiceRequest) : Bool :=
  let b := gather libs recv req inc.now
  match (Queue.push Text.utf8Len recv.queue recv.dir b.lines inc.io).1 with
  | .ok true => b.records ≠ []
  | _ => false

/-- The records whose lines a sequence of requests puts into the queue, as they
stand there. -/
def queuedRecords (recv : Recv) : List Incoming → List Record
  | [] => []
  | inc :: rest =>
      (match inc.decoded with
        | .ok req =>
            if queues libs recv inc req then (gather libs recv req inc.now).records else []
        | .error _ => [])
        ++ queuedRecords (ingest libs ioText recv inc).2 rest

/-- A mapped record that has a line-protocol form. -/
def encodable (r : Except MapError (Record × Int)) : Option (Record × Int) :=
  match r with
  | .ok (record, ts) =>
      match record.encode libs.display with
      | .ok _ => some (record, ts)
      | .error _ => none
  | .error _ => none

/-- The same records as their sender gave them: each with the time it carries. -/
def queuedInputs (recv : Recv) : List Incoming → List (Record × Int)
  | [] => []
  | inc :: rest =>
      (match inc.decoded with
        | .ok req =>
            if queues libs recv inc req then
              (mapExportRequest libs recv.source req inc.now).filterMap (encodable libs)
            else []
        | .error _ => [])
        ++ queuedInputs (ingest libs ioText recv inc).2 rest

/-- No two queued records have the same table, encoded tag set and timestamp. -/
def KeysDistinct (recv : Recv) (incs : List Incoming) : Prop :=
  (queuedRecords libs ioText recv incs).Pairwise fun a b =>
    a.table = b.table → a.encodeTags = b.encodeTags → a.tsNs ≠ b.tsNs

/-- No two of these records that agree in table and tag set carry the same
time. -/
def TimesDistinct (recv : Recv) (incs : List Incoming) : Prop :=
  (queuedInputs libs ioText recv incs).Pairwise fun a b =>
    a.1.table = b.1.table → a.1.encodeTags = b.1.encodeTags → a.2 ≠ b.2

/-! ## The stamper passes times through -/

/-- A record under the time its sender gave it. -/
def stamped (p : Record × Int) : Record := p.1.withTs p.2

/-- Whether a record can be encoded does not depend on its timestamp. -/
theorem encode_stamped (p : Record × Int) :
    (∃ t, (stamped p).encode libs.display = .ok t) ↔ ∃ t, p.1.encode libs.display = .ok t := by
  simp only [Record.encode_eq_ok_iff, exists_eq_right]
  exact Iff.rfl

variable {libs ioText}

theorem Batch.add_nanos {b : Batch} (h : b.stamper.tickNs = 1)
    (r : Except MapError (Record × Int)) :
    (b.add libs r).stamper = b.stamper
      ∧ (b.add libs r).records = b.records ++ ((encodable libs r).map stamped).toList := by
  cases r with
  | error e => simp [Batch.add, encodable]
  | ok p =>
      have henc := encode_stamped libs p
      simp only [Batch.add, Stamper.stamp_nanos h, encodable]
      rw [stamped] at henc
      -- both are encoded or neither is
      cases hs : (p.1.withTs p.2).encode libs.display <;> cases hp : p.1.encode libs.display <;>
        simp_all [stamped]

theorem foldl_add_nanos {b : Batch} (h : b.stamper.tickNs = 1)
    (rs : List (Except MapError (Record × Int))) :
    (rs.foldl (Batch.add libs) b).stamper = b.stamper
      ∧ (rs.foldl (Batch.add libs) b).records
        = b.records ++ (rs.filterMap (encodable libs)).map stamped := by
  induction rs generalizing b with
  | nil => simp
  | cons r rs ih =>
      obtain ⟨hst, hrec⟩ := Batch.add_nanos h r
      obtain ⟨hst', hrec'⟩ := ih (b := b.add libs r) (by rw [hst]; exact h)
      rw [List.foldl_cons, hst', hst, hrec', hrec]
      refine ⟨rfl, ?_⟩
      cases he : encodable libs r <;> simp [he]

/-- **Ingest at nanosecond resolution** keeps the times it is given, and the
stamper as it is. -/
theorem gather_nanos {recv : Recv} (h : recv.stamper.tickNs = 1)
    (req : ExportLogsServiceRequest) (now : Nat → Int) :
    (gather libs recv req now).stamper = recv.stamper
      ∧ (gather libs recv req now).records
        = ((mapExportRequest libs recv.source req now).filterMap (encodable libs)).map stamped := by
  have hfold := @foldl_add_nanos libs
    { stamper := recv.stamper, lines := [], records := [], rejected := 0 } h
    (mapExportRequest libs recv.source req now)
  simpa [gather] using hfold

theorem ingest_stamper {recv : Recv} (h : recv.stamper.tickNs = 1) (inc : Incoming) :
    (ingest libs ioText recv inc).2.stamper = recv.stamper := by
  rw [ingest]
  split
  · rfl
  · rename_i req _
    have hg := (@gather_nanos libs recv h req inc.now).1
    simp only
    split
    · exact hg
    · split <;> exact hg

/-- **What is queued is what was sent**, each record under the time it carries. -/
theorem queuedRecords_eq {recv : Recv} (h : recv.stamper.tickNs = 1) (incs : List Incoming) :
    queuedRecords libs ioText recv incs = (queuedInputs libs ioText recv incs).map stamped := by
  induction incs generalizing recv with
  | nil => rfl
  | cons inc rest ih =>
      have hrest := @ih (ingest libs ioText recv inc).2 (by rw [ingest_stamper h]; exact h)
      rw [queuedRecords, queuedInputs, List.map_append, hrest]
      congr 1
      cases inc.decoded with
      | error e => rfl
      | ok req =>
          simp only
          split
          · exact (gather_nanos h req inc.now).2
          · rfl

/-- **Keys are distinct exactly when the senders' times are**: no stamping comes
between them. -/
theorem keysDistinct_iff (libs : Libs) (ioText : IoError → String) (source : Source)
    (queue : Queue) (dir : Dir Text) (incs : List Incoming) :
    KeysDistinct libs ioText (Recv.start source queue dir) incs
      ↔ TimesDistinct libs ioText (Recv.start source queue dir) incs := by
  have hns : (Recv.start source queue dir).stamper.tickNs = 1 := rfl
  rw [KeysDistinct, TimesDistinct, queuedRecords_eq hns, List.pairwise_map]
  exact Iff.rfl

/-! ## Two records of one moment -/

/-- The libraries as far as string values need them. -/
def plainLibs : Libs :=
  { display := fun _ => [], parseF64 := fun _ => none, floatOf := fun _ => ⟨0⟩,
    render := fun _ => [], parseJson := fun _ => .ok [], intError := fun _ => "",
    parseRfc3339 := fun _ => .error "",
    parseValue := fun _ => .error "", decodeLossy := id, isMatch := fun _ _ => false
    replaceAll := fun _ _ t => t }

def bodySource : Source :=
  { name := "otlp".toList, path := [], table := "logs".toList, parser := .json,
    timestamp := { field := none, format := "unix_ms".toList, resolution := .millis }, tags := [],
    tagsStatic := [], fields := [("body".toList, .string)], visibility := none, kubernetes := false }

def bodyRecord (body : String) : LogRecord :=
  { timeUnixNano := 1786280343206000000, severityNumber := 0, severityText := [],
    body := some (.stringValue body.toList), attributes := [], observedTimeUnixNano := 0 }

/-- One request with two records that differ in their body only. -/
def twoBodies : Incoming :=
  { decoded := .ok { resourceLogs := [{ resource := none, scopeLogs :=
      [{ scope := none, logRecords := [bodyRecord "a", bodyRecord "b"] }] }] }
    now := fun _ => 0
    io := .ok }

def emptyQueue : Queue := (Queue.open (β := Text) Text.utf8Len [] 1000).2

/-- Both records are queued, and the second overwrites the first. -/
theorem one_moment_one_row :
    (queuedRecords plainLibs (fun _ => "") (Recv.start bodySource emptyQueue []) [twoBodies]).length
        = 2
      ∧ ¬ KeysDistinct plainLibs (fun _ => "") (Recv.start bodySource emptyQueue []) [twoBodies] := by
  unfold KeysDistinct
  decide +kernel

end Tributary.Otlp
