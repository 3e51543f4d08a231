import Tributary.Otlp
import Tributary.Queue.Store

/-!
# What an acknowledgement says

A 200 stands for the records the receiver accepted, and for nothing else: their
lines are one new segment of the queue. Every other answer leaves the segments as
they were, so a sender that repeats the request repeats all of it.
-/

namespace Tributary

/-! ## One push, over any directory -/

namespace Queue

section

variable {β : Type} {dir : Dir β} {p p' : FileName} {c : Content β}

theorem Dir.get_remove_ne (h : p' ≠ p) : (dir.remove p).get p' = dir.get p' := by
  rw [Dir.get, Dir.get, Dir.remove, List.find?_filter]
  congr 2
  funext e
  by_cases he : e.1 = p'
  · simp [he, h]
  · simp [he]

theorem Dir.get_write_ne (h : p' ≠ p) : (dir.write p c).get p' = dir.get p' := by
  have hrest := @Dir.get_remove_ne β dir p p' h
  rw [Dir.get] at hrest ⊢
  rw [Dir.write, List.find?_append, List.find?_singleton, if_neg (by simpa using h.symm),
    Option.or_none]
  exact hrest

/-- A segment never has the name of a temporary file. -/
theorem ne_tmpPath {n : Nat} (h : p.ext = lp) : p ≠ (segmentName n).withExtension tmp :=
  fun he => lp_ne_tmp (h.symm.trans (congrArg FileName.ext he))

/-- The directory has one more segment; the other segments keep their content. -/
structure Added (q q' : Queue) (dir dir' : Dir β) (body : β) : Prop where
  segments : q'.segments = q.segments ++ [segmentName q.nextSeq]
  body : Queue.read dir' (segmentName q.nextSeq) = some body
  others : ∀ p, p.ext = lp → p ≠ segmentName q.nextSeq → dir'.get p = dir.get p

/-- The queue has the segments it had, with the content they had. -/
structure Kept (q q' : Queue) (dir dir' : Dir β) : Prop where
  segments : q'.segments = q.segments
  files : ∀ p, p.ext = lp → dir'.get p = dir.get p

variable (size : β → Nat) (q : Queue) (body : β)

/-- **One spool**: it adds the segment, or gives the reason and leaves the segments
alone. -/
theorem spool_cases (dir : Dir β) (io : Io) :
    ((spool size q dir body io).1 = .ok true
        ∧ Added q (spool size q dir body io).2.1 dir (spool size q dir body io).2.2 body)
      ∨ ((spool size q dir body io).1 ≠ .ok true
        ∧ Kept q (spool size q dir body io).2.1 dir (spool size q dir body io).2.2) := by
  have hremoved : ∀ p : FileName, p.ext = lp →
      (dir.remove ((segmentName q.nextSeq).withExtension tmp)).get p = dir.get p :=
    fun p hp => Dir.get_remove_ne (ne_tmpPath hp)
  cases io with
  | ok =>
      left
      simp only [spool, writeSegment, renameError, Dir.rename_write]
      refine ⟨True.intro, rfl, ?_, fun p hp hne => ?_⟩
      · rw [Queue.read, Dir.get_write]
      · rw [Dir.get_write_ne hne, hremoved p hp]
  | fail at_ e =>
      -- whatever was written stands in the temporary file
      right
      cases at_ <;> simp only [spool, writeSegment, renameError, Dir.remove_write] <;> split <;>
        exact ⟨by simp, rfl, hremoved⟩

/-- **One push**: it adds the segment, or refuses and leaves the segments alone. -/
theorem push_cases (dir : Dir β) (io : Io) :
    ((push size q dir body io).1 = .ok true
        ∧ Added q (push size q dir body io).2.1 dir (push size q dir body io).2.2 body)
      ∨ ((push size q dir body io).1 ≠ .ok true
        ∧ Kept q (push size q dir body io).2.1 dir (push size q dir body io).2.2) := by
  rw [push]
  split
  · exact .inr ⟨by simp, rfl, fun _ _ => rfl⟩
  · have hspool := spool_cases size q body dir io
    split
    · rename_i he
      rw [he] at hspool
      rcases hspool with ⟨h, -⟩ | ⟨-, h⟩
      · cases h
      · exact .inr ⟨by simp, h.segments, h.files⟩
    · exact hspool

end

end Queue

namespace Otlp

open Lp Map Queue Stamp

/-! ## The accepted records -/

variable (libs : Libs)

/-- The results in order, without those that have no record, no timestamp or no
line. -/
def accepted (stamper : Stamper) : List (Except MapError (Record × Int)) → List Record
  | [] => []
  | .error _ :: rest => accepted stamper rest
  | .ok (record, sourceTs) :: rest =>
      match stamper.stamp sourceTs with
      | (.error _, stamper) => accepted stamper rest
      | (.ok ts, stamper) =>
          match (record.withTs ts).encode libs.display with
          | .ok _ => record.withTs ts :: accepted stamper rest
          | .error _ => accepted stamper rest

/-- The records the receiver accepts from a request. -/
def acceptedOf (recv : Recv) (req : ExportLogsServiceRequest) (now : Nat → Int) : List Record :=
  accepted libs recv.stamper (mapExportRequest libs recv.source req now)

/-- The encodings of these records. -/
def encodings (rs : List Record) : Text := rs.flatMap fun r => r.line libs.display

variable {libs}

theorem encodings_cons (r : Record) (rs : List Record) :
    encodings libs (r :: rs) = r.line libs.display ++ encodings libs rs := rfl

/-- **The mapping loop** gathers the accepted records, and their encodings. -/
theorem foldl_add (b : Batch) (rs : List (Except MapError (Record × Int))) :
    (rs.foldl (Batch.add libs) b).records = b.records ++ accepted libs b.stamper rs
      ∧ (rs.foldl (Batch.add libs) b).lines
        = b.lines ++ encodings libs (accepted libs b.stamper rs) := by
  induction rs generalizing b with
  | nil => simp [accepted, encodings]
  | cons r rs ih =>
      obtain ⟨hrec, hlines⟩ := ih (b.add libs r)
      rw [List.foldl_cons, hrec, hlines]
      rcases r with _ | ⟨record, sourceTs⟩
      · exact ⟨rfl, rfl⟩
      · simp only [Batch.add, accepted]
        rcases hstamp : b.stamper.stamp sourceTs with ⟨_ | ts, stamper⟩
        · exact ⟨rfl, rfl⟩
        · cases henc : (record.withTs ts).encode libs.display with
          | error e => simp [henc]
          | ok line =>
              obtain ⟨-, rfl⟩ := (Record.encode_eq_ok_iff libs.display).mp henc
              simp [henc, encodings_cons]

theorem gather_eq (recv : Recv) (req : ExportLogsServiceRequest) (now : Nat → Int) :
    (gather libs recv req now).records = acceptedOf libs recv req now
      ∧ (gather libs recv req now).lines = encodings libs (acceptedOf libs recv req now) := by
  have hfold := @foldl_add libs
    { stamper := recv.stamper, lines := [], records := [], rejected := 0 }
    (mapExportRequest libs recv.source req now)
  simpa [gather, acceptedOf] using hfold

/-! ## The answer -/

variable (libs)

/-- The line of the record stands in a segment that is new in the queue. -/
def Queued (before after : Recv) (r : Record) : Prop :=
  ∃ p body, after.queue.segments = before.queue.segments ++ [p]
    ∧ Queue.read after.dir p = some body ∧ r.line libs.display <:+: body

/-- An acknowledgement is atomic: a 200 is given exactly when all accepted records
are queued, as one segment of their encodings, and nothing is queued otherwise. -/
structure Atomic (recv : Recv) (decoded : Except String ExportLogsServiceRequest)
    (now : Nat → Int) (answer : Response) (after : Recv) : Prop where
  acknowledged : answer.status = 200 ↔
    ∃ req, decoded = .ok req ∧ ∀ r ∈ acceptedOf libs recv req now, Queued libs recv after r
  segment : answer.status = 200 → ∀ req, decoded = .ok req → acceptedOf libs recv req now ≠ [] →
    Added recv.queue after.queue recv.dir after.dir (encodings libs (acceptedOf libs recv req now))
  nothing : ∀ req, decoded = .ok req → acceptedOf libs recv req now = [] →
    Kept recv.queue after.queue recv.dir after.dir
  refused : answer.status ≠ 200 → Kept recv.queue after.queue recv.dir after.dir

variable {libs}

/-- A record of an added segment is queued. -/
theorem queued_of_added {recv after : Recv} {rs : List Record}
    (h : Added recv.queue after.queue recv.dir after.dir (encodings libs rs)) :
    ∀ r ∈ rs, Queued libs recv after r := by
  intro r hr
  refine ⟨_, _, h.segments, h.body, ?_⟩
  obtain ⟨before, behind, rfl⟩ := List.append_of_mem hr
  rw [encodings, List.flatMap_append, List.flatMap_cons]
  exact ⟨_, _, List.append_assoc _ _ _⟩

/-- No record is queued where the segments are as they were. -/
theorem not_queued_of_kept {recv after : Recv}
    (h : Kept recv.queue after.queue recv.dir after.dir) (r : Record) :
    ¬ Queued libs recv after r := by
  rintro ⟨p, body, hsegments, -, -⟩
  simp [h.segments] at hsegments

variable (libs)

/-- **An acknowledgement is atomic**, for every body and every state of the receiver,
whatever the file system does to the push. -/
theorem ingest_atomic {Bytes : Type} (decode : Bytes → Except String ExportLogsServiceRequest)
    (ioText : IoError → String) (recv : Recv) (body : Bytes) (now : Nat → Int) (io : Io) :
    Atomic libs recv (decode body) now
      (ingest libs ioText recv { decoded := decode body, now, io }).1
      (ingest libs ioText recv { decoded := decode body, now, io }).2 := by
  rw [ingest]
  cases hreq : decode body with
  | error e =>
      exact ⟨by simp [text], by simp, by simp, fun _ => ⟨rfl, fun _ _ => rfl⟩⟩
  | ok req =>
      obtain ⟨hrecords, hlines⟩ := @gather_eq libs recv req now
      simp only [hrecords, hlines]
      by_cases hnone : acceptedOf libs recv req now = []
      · have hkept : Kept recv.queue recv.queue recv.dir recv.dir := ⟨rfl, fun _ _ => rfl⟩
        rw [if_pos hnone]
        refine ⟨iff_of_true rfl ⟨req, rfl, by simp [hnone]⟩, ?_, fun _ _ _ => hkept, fun _ => hkept⟩
        rintro - _ ⟨⟩ hsome
        exact absurd hnone hsome
      · rw [if_neg hnone]
        obtain ⟨r, hr⟩ := List.exists_mem_of_ne_nil _ hnone
        have hpush := push_cases Text.utf8Len recv.queue
          (encodings libs (acceptedOf libs recv req now)) recv.dir io
        rcases hans : Queue.push Text.utf8Len recv.queue recv.dir
          (encodings libs (acceptedOf libs recv req now)) io with ⟨answer, queue, dir⟩
        rw [hans] at hpush
        rcases hpush with ⟨rfl, hadded⟩ | ⟨hrefused, hkept⟩
        · refine ⟨iff_of_true rfl ⟨req, rfl, queued_of_added hadded⟩, ?_, ?_, ?_⟩
          · rintro - _ ⟨⟩ -
            exact hadded
          · rintro _ ⟨⟩ hnil
            exact absurd hnil hnone
          · exact fun hstatus => absurd rfl hstatus
        · have hatomic : ∀ (response : Response) (after : Recv), response.status ≠ 200 →
              Kept recv.queue after.queue recv.dir after.dir →
              Atomic libs recv (.ok req) now response after := by
            intro response after hstatus hkept
            refine ⟨iff_of_false hstatus ?_, fun h => absurd h hstatus, fun _ _ _ => hkept,
              fun _ => hkept⟩
            rintro ⟨_, ⟨⟩, hqueued⟩
            exact not_queued_of_kept hkept r (hqueued r hr)
          rcases answer with e | (_ | _)
          · exact hatomic _ _ (show (500 : Nat) ≠ 200 by decide) hkept
          · exact hatomic _ _ (show (503 : Nat) ≠ 200 by decide) hkept
          · exact absurd rfl hrefused

end Otlp

end Tributary
