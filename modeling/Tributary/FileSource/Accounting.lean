import Tributary.FileSource.Ledger
import Tributary.Ship.Requests

/-!
# The counters

What was read, less what was shipped, quarantined or dropped, should be what the source
still holds. Three things count that hold nothing: a line the framer refuses was never
read, a batch that is given up after a part of it was accepted is shipped again, and a row
of the watermark table goes through the shipper too.
-/

namespace Tributary

open Lib Queue Ship Stamp Tail Map Transform

namespace FileSource

variable {c : Config} {s s' : State}

/-! ## The counters -/

/-- What a row of the watermark table is written with. -/
structure RowNames where
  watermarkTable : Text
  host : Text

/-- The line `write_watermark` posts. -/
def Row.line (n : RowNames) (stream : Text) (row : Row) : Text :=
  n.watermarkTable ++ ",stream=".toList ++ stream ++ ",host=".toList ++ n.host
    ++ " watermark_ns=".toList ++ Text.ofInt row.watermarkNs
    ++ "i,lateness_ns=".toList ++ Text.ofInt row.latenessNs
    ++ "i,violations=".toList ++ Text.ofInt row.violations
    ++ "i ".toList ++ Text.ofInt row.nowNs ++ ['\n']

/-- `body.lines().count()`, over the bodies of accepted requests. -/
def countLines (bodies : List Text) : Nat := (bodies.map fun body => body.lines.length).sum

/-- `chunk.concat()`. -/
def body (chunk : List Line) : Text := (chunk.map (·.text)).flatten

namespace State

/-- The batch a step puts through `send_lines`, and what the server answers. -/
def posted (s : State) : Event → Option (List Line × List (Answer Line))
  | .finish i sched =>
      match s.inflight[i]? with
      | some (.running lines) => some (lines, sched)
      | _ => none
  | .land io sched =>
      match s.held with
      | [] => none
      | lines :: _ =>
          match Queue.pushForced size s.queue s.dir lines io with
          | (.ok false, _, _) => some (lines, sched)
          | _ => none
  | .ship sched => (s.queue.front.bind (Queue.read s.dir)).map fun lines => (lines, sched)
  | _ => none

/-- The row a step posts. -/
def postedRow (s : State) : Event → Option Row
  | .publish due nowNs =>
      if (due = true ∨ s.phase = .publishing true) ∧ s.watermark.publishedNs ≠ i64Min then
        some
          { watermarkNs := s.watermark.publishedNs
            latenessNs := s.watermark.latenessNs
            violations := s.watermark.violations
            nowNs }
      else none
  | _ => none

/-- The bodies of a step's accepted requests. -/
def acceptedBodies (s : State) (e : Event) : List Text :=
  match s.posted e with
  | some (lines, sched) => (taken (requests blank sched [lines])).map body
  | none => []

/-- The summary is printed. -/
def exits (s : State) : Event → Bool
  | .publish _ _ => decide (s.phase = .publishing true)
  | _ => false

end State

/-- The source, and the shipper's counter beside it. -/
structure Account where
  source : State
  shipped : Nat
  exited : Bool

/-- The lines of the row a step posts, if the server takes it. -/
def State.rowLines (c : Config) (n : RowNames) (s : State) (e : Event) (answer : Reply) : Nat :=
  if result answer = .ok () then
    countLines ((s.postedRow e).toList.map (Row.line n c.source.name))
  else 0

/-- A step of the source, with the server's answer to the row it may post. A batch's
requests are counted when the batch is done: until then what they shipped is no longer the
batch's to ship. -/
def account (c : Config) (n : RowNames) (a : Account) (x : Event × Reply) : Option Account :=
  (step c a.source x.1).map fun source =>
    { source
      shipped := a.shipped + countLines (a.source.acceptedBodies x.1)
        + a.source.rowLines c n x.1 x.2
      exited := a.source.exits x.1 }

/-! ## What is held -/

/-- What of a batch in flight is neither shipped nor quarantined yet. -/
def Task.unsettled : Task → List Line
  | .running lines => lines
  | .shipped _ poison => poison
  | .failed lines _ => lines

namespace State

/-- The records in the segments. -/
def queued (s : State) : List Line :=
  s.queue.segments.flatMap fun p => (Queue.read s.dir p).getD []

/-- The records that are still to be shipped. -/
def atHand (s : State) : List Line :=
  s.batch ++ s.inflight.flatMap Task.unsettled ++ s.held.flatten ++ s.queued

/-- Nothing is left to ship. -/
structure Empty (s : State) : Prop where
  batch : s.batch = []
  inflight : s.inflight = []
  held : s.held = []
  queue : s.queue.segments = []

end State

/-- Lines read that no counter says what became of. -/
def Account.unaccounted (a : Account) : Int :=
  a.source.readTotal - a.shipped - a.source.quarantined
    - (a.source.droppedFilter + a.source.droppedSample)

/-- **The books balance.** -/
structure Account.Balanced (a : Account) : Prop where
  equation : a.unaccounted = a.source.atHand.length
  nonneg : 0 ≤ a.unaccounted
  clear : a.exited = true → a.source.Empty → a.unaccounted = 0

/-- The source runs, or has left its loop and printed its summary. -/
def Account.Live (a : Account) : Prop := a.source.phase ≠ .stopped ∨ a.exited = true

/-! ## When they balance -/

namespace State

/-- The framer takes the line that is read next. -/
def Frames (c : Config) (s : State) (nowMs : Nat) : Prop :=
  s.queue.full = false → ∀ raw ∈ (Tailer.nextLine s.fs s.tailer).1, ∀ e,
    (s.framer.push c.libs { ids := [s.read], text := c.libs.decodeLossy raw } nowMs).1 ≠ .error e

/-- A batch that is given up is given up whole: the server accepted no part of it. -/
def Undivided (s : State) (e : Event) : Prop :=
  ∀ p ∈ s.posted e, ∀ err, (sendLines blank p.2 [p.1]).outcome = .failed err →
    (sendLines blank p.2 [p.1]).acked = []

end State

/-- The framer refuses no line, no batch is given up in part, and the server takes no
row. -/
structure Account.Clean (c : Config) (a : Account) (x : Event × Reply) : Prop where
  frames : ∀ nowNs nowMs, x.1 = .next nowNs nowMs → a.source.Frames c nowMs
  undivided : a.source.Undivided x.1
  rows : ∀ row ∈ a.source.postedRow x.1, result x.2 ≠ .ok ()

/-! ## Lines of a body -/

/-- A text that is one line. -/
def OneLine (l : Line) : Prop := ∃ t : Text, t.Printable ∧ l.text = t ++ ['\n']

theorem OneLine.blank {l : Line} (h : OneLine l) : blank l = false := by
  obtain ⟨t, -, ht⟩ := h
  simp [FileSource.blank, ht]

/-- An encoded record is one line. -/
theorem oneLine_encode (hd : ∀ f, (c.libs.display f).Printable) {record : Lp.Record} {text : Text}
    (h : record.encode c.libs.display = .ok text) (l : Line) (hl : l.text = text) : OneLine l := by
  refine ⟨record.content c.libs.display, Lp.Record.printable_content hd record, ?_⟩
  rw [hl, ((Lp.Record.encode_eq_ok_iff c.libs.display).mp h).2, Lp.Record.line_eq]

/-- A body has as many lines as the chunk has records. -/
theorem length_lines_body {chunk : List Line} (h : ∀ l ∈ chunk, OneLine l) :
    (body chunk).lines.length = chunk.length := by
  induction chunk with
  | nil => rfl
  | cons l chunk ih =>
      obtain ⟨t, hprint, ht⟩ := h l (List.mem_cons_self ..)
      have hbody : body (l :: chunk) = t ++ '\n' :: body chunk := by
        simp [body, ht]
      rw [hbody, hprint.lines, List.length_cons, List.length_cons,
        ih fun l hl => h l (List.mem_cons_of_mem _ hl)]

/-- **The shipper counts the acknowledged lines.** -/
theorem countLines_accepted {lines : List Line} (h : ∀ l ∈ lines, OneLine l)
    (sched : List (Answer Line)) :
    countLines ((taken (requests blank sched [lines])).map body)
      = (sendLines blank sched [lines]).acked.length := by
  have hsub : ∀ l ∈ (sendLines blank sched [lines]).acked, OneLine l := by
    intro l hl
    exact h l (by simpa using acked_subset sched [lines] l hl)
  rw [← accepted_requests, ← flatten_taken] at hsub ⊢
  rw [countLines, List.map_map, List.length_flatten]
  congr 1
  refine List.map_congr_left fun chunk hchunk => ?_
  exact length_lines_body fun l hl => hsub l (List.mem_flatten.mpr ⟨chunk, hchunk, hl⟩)

/-- The line of a row is at least one line. -/
theorem lines_row_pos (n : RowNames) (stream : Text) (row : Row) :
    0 < (Row.line n stream row).lines.length := by
  rw [List.length_pos_iff, Ne, Text.lines_eq_nil_iff]
  simp [Row.line]

end FileSource

end Tributary
