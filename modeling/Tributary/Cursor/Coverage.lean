import Tributary.Cursor
import Tributary.Lib.Run

/-!
# What the saved cursor covers

The cursor is saved after the batch was offered to the queue. When the queue took
it, every entry up to the cursor that maps to a record is on disk or accepted by
the server, through every order of kills, restarts and outages. The queue's
refusal is not looked at: then the cursor moves past entries that are nowhere.
-/

namespace Tributary.Cursor

open Lib Queue Ship Stamp Map

variable {ε : Type}

/-! ## The law -/

/-- The entry maps to this record, whatever the wall clock says. -/
def Maps (a : Agent ε) (entry : ε) (record : Lp.Record) : Prop :=
  record.fields ≠ []
    ∧ ∃ now ts, mapLine a.libs a.source (entryToJson a.libs (a.kind.fields entry)) now
      = .ok (record, ts)

/-- An entry whose record is to be delivered. -/
def Owed (a : Agent ε) (w : World ε) (i : Nat) : Prop :=
  ∃ x record, w.journal[i]? = some x ∧ Maps a x.2 record

/-- The line is one of the entry's record, under some timestamp. -/
def RecordOf (a : Agent ε) (w : World ε) (i : Nat) (r : Rec) : Prop :=
  r.entry = i ∧ ∃ x record tsNs, w.journal[i]? = some x ∧ Maps a x.2 record
    ∧ r.text = (record.withTs tsNs).line a.libs.display

/-- Acknowledged by the server, or in a queue segment on disk. -/
def Secured (w : World ε) (r : Rec) : Prop := r ∈ w.acked ∨ InSegment w.dir r

def Delivered (a : Agent ε) (w : World ε) (i : Nat) : Prop :=
  ∃ r, RecordOf a w i r ∧ Secured w r

/-- **The coverage law**: up to the entry the saved cursor addresses, every entry
that maps to a record is delivered. -/
def Covered (a : Agent ε) (w : World ε) : Prop :=
  ∀ cp ∈ w.saved, ∀ k x, w.journal[k]? = some x → cp.cursor = some x.1 →
    ∀ i ≤ k, Owed a w i → Delivered a w i

/-- The file system does not run out of space. -/
def roomOnDisk : Io → Bool
  | .ok => true
  | .fail _ e => !outOfSpace e

/-- The queue has room for the batch that is pushed, so does the disk, and its
number has twelve digits. -/
def Roomy (w : World ε) : Event ε → Prop
  | .push io => ∀ p ∈ w.process,
      p.queue.bytes + drain.size p.batch ≤ p.queue.maxBytes ∧ roomOnDisk io = true
        ∧ p.queue.nextSeq < 10 ^ 12
  | .pushKilled _ => ∀ p ∈ w.process, p.queue.nextSeq < 10 ^ 12
  | _ => True

instance : DecidableRel (Roomy (ε := ε)) := fun w e =>
  match e with
  | .push io => inferInstanceAs (Decidable (∀ p ∈ w.process,
      p.queue.bytes + drain.size p.batch ≤ p.queue.maxBytes ∧ roomOnDisk io = true
        ∧ p.queue.nextSeq < 10 ^ 12))
  | .pushKilled _ => inferInstanceAs (Decidable (∀ p ∈ w.process, p.queue.nextSeq < 10 ^ 12))
  | .append _ _ | .boot | .bootKilled _ | .turn _ | .turnKilled _ _ | .next _ | .skip | .save
  | .again | .kill => isTrue True.intro

/-! ## Lines of records -/

variable {a : Agent ε} {w w' : World ε} {p : Process} {i : Nat} {r : Rec}

/-- The text is the line of some record. -/
def Genuine (a : Agent ε) (r : Rec) : Prop :=
  ∃ record : Lp.Record, r.text = record.line a.libs.display

theorem RecordOf.genuine (h : RecordOf a w i r) : Genuine a r := by
  obtain ⟨-, x, record, tsNs, -, -, htext⟩ := h
  exact ⟨_, htext⟩

theorem Genuine.not_blank (h : Genuine a r) : drain.blank (some r) = false := by
  obtain ⟨record, htext⟩ := h
  show (Text.stripEol r.text).isEmpty = false
  rw [htext, Lp.Record.stripEol_line, List.isEmpty_eq_false_iff]
  exact record.content_ne_nil

/-- A segment is cut back into its lines, and an empty one between two of them,
as the drains of both sources cut its text. -/
theorem drain_split {batch : List Rec} (hd : ∀ f, (a.libs.display f).Printable)
    (h : ∀ r ∈ batch, Genuine a r) :
    (drain.split batch).map lineText = Journald.drain.split (body batch) := by
  have hline : ∀ r ∈ batch, ∃ t : Text, t.Printable ∧ r.text = t ++ ['\n'] := by
    intro r hr
    obtain ⟨record, htext⟩ := h r hr
    exact ⟨_, Lp.Record.printable_content hd record, htext⟩
  show ((batch.map some).intersperse none).map lineText = Text.lines (body batch)
  induction batch with
  | nil => rfl
  | cons r batch ih =>
      obtain ⟨t, ht, htext⟩ := hline r (List.mem_cons_self ..)
      have hfirst : lineText (some r) = t := by
        rw [lineText, htext, Text.stripEol_concat ht.getLast_ne]
      cases batch with
      | nil => simp [body, hfirst, htext, ht.lines]
      | cons r' batch =>
          have hrest := ih (fun x hx => h x (List.mem_cons_of_mem _ hx))
            fun x hx => hline x (List.mem_cons_of_mem _ hx)
          have hbody : body (r :: r' :: batch) = t ++ '\n' :: '\n' :: body (r' :: batch) := by
            simp [body, htext, List.intercalate]
          have hempty : Text.lines ('\n' :: body (r' :: batch))
              = [] :: Text.lines (body (r' :: batch)) :=
            Text.Printable.lines (t := []) (by simp [Text.Printable]) _
          rw [hbody, ht.lines, hempty, ← hrest, ← hfirst]
          rfl

/-! ## What an entry maps to -/

/-- An entry the loop takes without an error maps to nothing, or to the record
whose line it hands over. -/
theorem mapEntry_ok {entry : ε} {now : Int} {stamper stamper' : Stamper} {out : Option Text}
    (h : mapEntry a.libs a.source (a.kind.fields entry) (a.kind.sourceTs entry) now stamper
      = (.ok out, stamper')) :
    (out = none ∧ ∀ record, ¬ Maps a entry record)
      ∨ ∃ (record : Lp.Record) (tsNs : Int), Maps a entry record
          ∧ out = some ((record.withTs tsNs).line a.libs.display) := by
  unfold mapEntry at h
  split at h
  · -- a blank line
    rename_i hempty
    cases h
    refine .inl ⟨rfl, fun record hm => ?_⟩
    obtain ⟨-, now', ts, hok⟩ := hm
    exact (mapLine_eq_ok_iff.mp hok).1 (mapLine_eq_empty_iff.mp hempty)
  · cases h
  · rename_i record ts hmap
    obtain ⟨-, parsed, fields, hparse, -, hfields, hrecord⟩ := mapLine_eq_ok_iff.mp hmap
    by_cases hnone : record.fields = []
    · -- no declared field is present, and none is at another time
      rw [if_pos hnone] at h
      cases h
      refine .inl ⟨rfl, fun record' hm => hm.1 ?_⟩
      obtain ⟨-, now', ts', hok⟩ := hm
      obtain ⟨-, parsed', fields', hparse', -, hfields', hrecord'⟩ := mapLine_eq_ok_iff.mp hok
      cases hparse.symm.trans hparse'
      cases hfields.symm.trans hfields'
      rw [hrecord', ← hrecord, hnone]
    · rw [if_neg hnone] at h
      split at h
      · cases h
      · rename_i tsNs _ _
        split at h
        · cases h
        · rename_i text hencode
          cases h
          exact .inr ⟨record, tsNs, ⟨hnone, now, ts, hmap⟩,
            congrArg some ((Lp.Record.encode_eq_ok_iff _).mp hencode).2⟩

/-! ## What a step keeps -/

/-- Entries stay where they are, and what is secured stays secured. -/
structure Grows (a : Agent ε) (w w' : World ε) : Prop where
  journal : w.journal <+: w'.journal
  secured : ∀ r, Genuine a r → Secured w r → Secured w' r

theorem Grows.get (h : Grows a w w') {x : Text × ε} (hx : w.journal[i]? = some x) :
    w'.journal[i]? = some x := by
  obtain ⟨rest, hrest⟩ := h.journal
  rw [← hrest, List.getElem?_append_left (List.getElem?_eq_some_iff.mp hx).1]
  exact hx

theorem Grows.recordOf (h : Grows a w w') (hr : RecordOf a w i r) : RecordOf a w' i r := by
  obtain ⟨hi, x, record, tsNs, hx, hm, ht⟩ := hr
  exact ⟨hi, x, record, tsNs, h.get hx, hm, ht⟩

theorem Grows.delivered (h : Grows a w w') (hd : Delivered a w i) : Delivered a w' i := by
  obtain ⟨r, hr, hs⟩ := hd
  exact ⟨r, h.recordOf hr, h.secured r hr.genuine hs⟩

/-- An entry that was there owes what it owed. -/
theorem Grows.owed (h : Grows a w w') (hi : i < w.journal.length) (ho : Owed a w' i) :
    Owed a w i := by
  obtain ⟨x, record, hx, hm⟩ := ho
  have hget := List.getElem?_eq_getElem hi
  cases (h.get hget).symm.trans hx
  exact ⟨_, record, hget, hm⟩

/-! ## The invariant -/

/-- What a running agent has read is in its batch or delivered; outside the inner
loop it is delivered. -/
structure Running (a : Agent ε) (w : World ε) (p : Process) : Prop where
  within : p.pos ≤ w.journal.length
  batch : ∀ r ∈ p.batch, ∃ i, RecordOf a w i r
  taken : ∀ i < p.pos, Owed a w i → (∃ r ∈ p.batch, RecordOf a w i r) ∨ Delivered a w i
  settled : p.phase ≠ .reading → p.phase ≠ .assembled →
    ∀ i < p.pos, Owed a w i → Delivered a w i
  last : ∀ c, p.lastCursor = some c → ∃ k e, k + 1 = p.pos ∧ w.journal[k]? = some (c, e)

/-- The segments of a directory hold lines of records. -/
def Holds (a : Agent ε) (dir : Dir (List Rec)) (queue : Option Queue)
    (live : List (Nat × List Rec)) : Prop :=
  Backs drain.size dir queue live ∧ ∀ x ∈ live, ∀ r ∈ x.2, Genuine a r

structure Inv (a : Agent ε) (w : World ε) : Prop where
  cursors : (w.journal.map (·.1)).Nodup
  saved : ∀ cp ∈ w.saved, ∀ c, cp.cursor = some c →
    ∃ k e, w.journal[k]? = some (c, e) ∧ ∀ i ≤ k, Owed a w i → Delivered a w i
  stored : ∃ live, Holds a w.dir (w.process.map Process.queue) live
  running : ∀ p ∈ w.process, Running a w p

theorem Running.grow (h : Running a w p) (hg : Grows a w w') : Running a w' p where
  within := Nat.le_trans h.within hg.journal.length_le
  batch := fun r hr => (h.batch r hr).imp fun _ => hg.recordOf
  taken := by
    intro i hi ho
    have ho := hg.owed (Nat.lt_of_lt_of_le hi h.within) ho
    rcases h.taken i hi ho with ⟨r, hr, hrec⟩ | hd
    · exact .inl ⟨r, hr, hg.recordOf hrec⟩
    · exact .inr (hg.delivered hd)
  settled := by
    intro h1 h2 i hi ho
    exact hg.delivered (h.settled h1 h2 i hi (hg.owed (Nat.lt_of_lt_of_le hi h.within) ho))
  last := by
    intro c hc
    obtain ⟨k, e, hk, he⟩ := h.last c hc
    exact ⟨k, e, hk, hg.get he⟩

/-- What a step that saves nothing has to show. -/
theorem Inv.grow (h : Inv a w) (hg : Grows a w w') (hnodup : (w'.journal.map (·.1)).Nodup)
    (hsaved : w'.saved = w.saved)
    (hstored : ∃ live, Holds a w'.dir (w'.process.map Process.queue) live)
    (hrun : ∀ p ∈ w'.process, Running a w' p) : Inv a w' where
  cursors := hnodup
  saved := by
    intro cp hcp c hc
    rw [hsaved] at hcp
    obtain ⟨k, e, hk, hall⟩ := h.saved cp hcp c hc
    have hlen := (List.getElem?_eq_some_iff.mp hk).1
    exact ⟨k, e, hg.get hk, fun i hi ho =>
      hg.delivered (hall i hi (hg.owed (Nat.lt_of_le_of_lt hi hlen) ho))⟩
  stored := hstored
  running := hrun

theorem Inv.covered (h : Inv a w) : Covered a w := by
  intro cp hcp k x hk hc
  obtain ⟨k', e, hk', hall⟩ := h.saved cp hcp x.1 hc
  have hsame : k = k' := by
    have hlt := (List.getElem?_eq_some_iff.mp hk).1
    refine (List.getElem?_inj (by rwa [List.length_map]) h.cursors).mp ?_
    rw [List.getElem?_map, List.getElem?_map, hk, hk']
    rfl
  rw [hsame]
  exact hall

/-! ## Storage -/

section storage

variable {queue : Option Queue} {q : Queue} {dir dir' : Dir (List Rec)}
  {live live' : List (Nat × List Rec)}

theorem Holds.inSegment_iff (h : Holds a dir queue live) :
    InSegment dir r ↔ ∃ x ∈ live, r ∈ x.2 := h.1.disk.inSegment_iff

/-- Killing the agent leaves the segments. -/
theorem Holds.killed (h : Holds a dir queue live) : Holds a dir none live :=
  ⟨h.1.killed, h.2⟩

/-- An agent that ended or goes on with that queue. -/
theorem Holds.of_queue (h : Holds a dir (some q) live) {process : Option Process}
    (hq : ∀ p ∈ process, p.queue = q) : Holds a dir (process.map Process.queue) live := by
  cases process with
  | none => exact h.killed
  | some p =>
      rw [Option.map_some, hq p rfl]
      exact h

/-- Segments stay, or their lines were accepted. -/
theorem Holds.grows {w' : World ε} (h : Holds a w.dir queue live)
    (h' : Holds a w'.dir (w'.process.map Process.queue) live') (hj : w.journal <+: w'.journal)
    (hacked : ∀ r ∈ w.acked, r ∈ w'.acked)
    (hlive : ∀ x ∈ live, x ∈ live' ∨ ∀ r ∈ x.2, r ∈ w'.acked) : Grows a w w' where
  journal := hj
  secured := by
    rintro r - (hr | hr)
    · exact .inl (hacked r hr)
    · obtain ⟨x, hx, hm⟩ := h.inSegment_iff.mp hr
      rcases hlive x hx with hx' | hx'
      · exact .inr (h'.inSegment_iff.mpr ⟨x, hx', hm⟩)
      · exact .inl (hx' r hm)

/-- A call that is dealt with and hands nothing back had every record of the
segment accepted. -/
theorem mem_acked_of_shipped {batch : List Rec} {sched : List (Answer (Option Rec))}
    (hgen : ∀ r ∈ batch, Genuine a r)
    (hs : (sendLines drain.blank sched [drain.split batch]).outcome = .shipped []) :
    ∀ r ∈ batch, some r ∈ (sendLines drain.blank sched [drain.split batch]).acked := by
  intro r hr
  have hm : some r ∈ [drain.split batch].flatten := by
    rw [List.flatten_cons, List.flatten_nil, List.append_nil]
    exact mem_intersperse_of_mem (List.mem_map.mpr ⟨r, hr, rfl⟩)
  exact (mem_of_shipped hs hm (hgen r hr).not_blank).resolve_right (by simp)

/-- One turn of a drain keeps every segment, or retires the front one with all
its records accepted. -/
theorem turn_holds (hq : Holds a dir (some q) live) (sched : List (Answer (Option Rec))) :
    ∃ live', Holds a (drain.attempt (Drainer.start q dir) sched).1.dir
        (some (drain.attempt (Drainer.start q dir) sched).1.queue) live'
      ∧ ∀ x ∈ live, x ∈ live' ∨ ∀ r ∈ x.2,
        r ∈ (drain.attempt (Drainer.start q dir) sched).1.acked.filterMap (·.2) := by
  have hst : Stored drain.size (Drainer.start q dir : Spool (List Rec) (Option Rec)).dir
      (Drainer.start q dir : Spool (List Rec) (Option Rec)).queue live := hq.1.running q rfl
  cases live with
  | nil =>
      rw [Drainer.attempt_nil hst]
      exact ⟨[], hq, by simp⟩
  | cons x left =>
      rcases Drainer.attempt_cons hst sched with ⟨poison, hout, hkeep, he⟩ | ⟨-, he⟩
      · rw [he]
        cases hkeep rfl
        refine ⟨left, ⟨.of_stored hst.pop_front.2 fun y hy =>
          hq.1.narrow y (List.mem_cons_of_mem _ hy), fun y hy => hq.2 y (List.mem_cons_of_mem _ hy)⟩,
          ?_⟩
        intro y hy
        rcases List.mem_cons.mp hy with rfl | hy
        · refine .inr fun r hr => List.mem_filterMap.mpr ⟨(name y, some r), ?_, rfl⟩
          have hm := mem_acked_of_shipped (hq.2 y (List.mem_cons_self ..)) hout r hr
          simpa [Drainer.retired, Drainer.noted, Drainer.start] using hm
        · exact .inl hy
      · rw [he]
        exact ⟨x :: left, hq, fun y hy => .inl hy⟩

end storage

/-! ## The steps -/

/-- A step that touches neither journal nor storage. -/
theorem Grows.of_eq (hj : w'.journal = w.journal) (hd : w'.dir = w.dir)
    (ha : w'.acked = w.acked) : Grows a w w' where
  journal := by rw [hj]
  secured := by
    intro r _ hr
    rwa [Secured, hd, ha]

/-- The storage moves on, and the agent with it or ends. -/
theorem Inv.holds (h : Inv a w) {queue : Option Queue} {q : Queue}
    {live live' : List (Nat × List Rec)} (hl : Holds a w.dir queue live)
    (hl' : Holds a w'.dir (some q) live') (hj : w'.journal = w.journal)
    (hacked : ∀ r ∈ w.acked, r ∈ w'.acked)
    (hlive : ∀ x ∈ live, x ∈ live' ∨ ∀ r ∈ x.2, r ∈ w'.acked)
    (hsaved : w'.saved = w.saved)
    (hrun : ∀ p ∈ w'.process, p.queue = q ∧ Running a w p) : Inv a w' := by
  have hmap : Holds a w'.dir (w'.process.map Process.queue) live' :=
    hl'.of_queue fun p hp => (hrun p hp).1
  have hg : Grows a w w' := hl.grows hmap (by rw [hj]) hacked hlive
  exact h.grow hg (by rw [hj]; exact h.cursors) hsaved ⟨live', hmap⟩
    fun p hp => (hrun p hp).2.grow hg

/-- The agent goes on with the same queue, and nothing else changes. -/
theorem Inv.goOn (h : Inv a w) (hp : w.process = some p) {p' : Process}
    (hq : p'.queue = p.queue) (hr : Running a w p') :
    Inv a { w with process := some p' } := by
  have hg : Grows a w { w with process := some p' } := .of_eq rfl rfl rfl
  refine h.grow hg h.cursors rfl ?_ ?_
  · obtain ⟨live, hl⟩ := h.stored
    rw [hp] at hl
    exact ⟨live, by simpa [hq] using hl⟩
  · rintro _ ⟨⟩
    exact hr.grow hg

/-- The agent ends, and nothing else changes. -/
theorem Inv.ended (h : Inv a w) : Inv a { w with process := none } := by
  refine h.grow (.of_eq rfl rfl rfl) h.cursors rfl ?_ (by simp)
  obtain ⟨live, hl⟩ := h.stored
  exact ⟨live, hl.killed⟩

theorem Inv.append (h : Inv a w) {cursor : Text} {entry : ε}
    (hc : cursor ∉ w.journal.map (·.1)) :
    Inv a { w with journal := w.journal ++ [(cursor, entry)] } := by
  have hg : Grows a w { w with journal := w.journal ++ [(cursor, entry)] } :=
    ⟨List.prefix_append _ _, fun _ _ hr => hr⟩
  refine h.grow hg ?_ rfl h.stored fun p hp => (h.running p hp).grow hg
  rw [List.map_append, List.nodup_append]
  refine ⟨h.cursors, List.nodup_singleton _, ?_⟩
  rintro x hx y hy rfl
  rw [List.map_singleton, List.mem_singleton] at hy
  rw [hy] at hx
  exact hc hx

/-- The reader is set behind the entry the saved cursor addresses. -/
theorem seek_saved {journal : List (Text × ε)} (hnodup : (journal.map (·.1)).Nodup) {k : Nat}
    {c : Text} {e : ε} (hk : journal[k]? = some (c, e)) : seek journal (some c) = k + 1 := by
  have hlt := (List.getElem?_eq_some_iff.mp hk).1
  have hfind : journal.findIdx (fun x => decide (x.1 = c)) = k := by
    rw [List.findIdx_eq hlt]
    refine ⟨by simp [(List.getElem?_eq_some_iff.mp hk).2], fun j hj => ?_⟩
    rw [decide_eq_false_iff_not]
    intro hc
    refine absurd ((List.getElem?_inj (by rw [List.length_map]; omega) hnodup).mp ?_)
      (Nat.ne_of_lt hj)
    rw [List.getElem?_map, List.getElem?_map, hk, List.getElem?_eq_getElem (by omega)]
    simp [hc]
  rw [seek, hfind]

theorem Inv.boot (h : Inv a w) :
    Inv a { w with
      dir := (Queue.open drain.size w.dir a.queueMaxBytes).1
      process := some (.start a.source w.saved (seek w.journal (w.saved.bind (·.cursor)))
        (Queue.open drain.size w.dir a.queueMaxBytes).2) } := by
  obtain ⟨live, hl⟩ := h.stored
  have hopen : Holds a (Queue.open drain.size w.dir a.queueMaxBytes).1
      (some (Queue.open drain.size w.dir a.queueMaxBytes).2) live :=
    ⟨hl.1.opened a.queueMaxBytes, hl.2⟩
  have hg : Grows a w { w with
      dir := (Queue.open drain.size w.dir a.queueMaxBytes).1
      process := some (.start a.source w.saved (seek w.journal (w.saved.bind (·.cursor)))
        (Queue.open drain.size w.dir a.queueMaxBytes).2) } :=
    hl.grows hopen (List.prefix_refl _) (fun _ hr => hr) fun _ hx => .inl hx
  refine h.grow hg h.cursors rfl ⟨live, hopen⟩ ?_
  rintro _ ⟨⟩
  -- what is behind the reader is what the saved cursor covers
  have hpos : seek w.journal (w.saved.bind (·.cursor)) ≤ w.journal.length
      ∧ ∀ i < seek w.journal (w.saved.bind (·.cursor)), Owed a w i → Delivered a w i := by
    cases hc : w.saved.bind (·.cursor) with
    | none => exact ⟨Nat.zero_le _, fun i hi => absurd hi (Nat.not_lt_zero i)⟩
    | some c =>
        obtain ⟨cp, hcp, hcur⟩ := Option.bind_eq_some_iff.mp hc
        obtain ⟨k, e, hk, hall⟩ := h.saved cp hcp c hcur
        rw [seek_saved h.cursors hk]
        exact ⟨(List.getElem?_eq_some_iff.mp hk).1, fun i hi => hall i (Nat.lt_succ_iff.mp hi)⟩
  have hrun : Running a w (.start a.source w.saved (seek w.journal (w.saved.bind (·.cursor)))
      (Queue.open drain.size w.dir a.queueMaxBytes).2) :=
    { within := hpos.1
      batch := by simp [Process.start]
      taken := fun i hi ho => .inr (hpos.2 i hi ho)
      settled := fun _ _ => hpos.2
      last := by simp [Process.start] }
  exact hrun.grow hg

theorem Inv.bootKilled (h : Inv a w) (hp : w.process = none) (swept : List FileName) :
    Inv a { w with dir := partlySwept w.dir swept } := by
  obtain ⟨live, hl⟩ := h.stored
  have hswept : Holds a (partlySwept w.dir swept) none live := ⟨hl.1.partlySwept swept, hl.2⟩
  have hswept' : Holds a (partlySwept w.dir swept) (w.process.map Process.queue) live := by
    rwa [hp]
  refine h.grow (hl.grows hswept' (List.prefix_refl _) (fun _ hr => hr) fun _ hx => .inl hx)
    h.cursors rfl ⟨live, hswept'⟩ ?_
  rw [hp]
  simp

/-- The agent behind a turn of a drain: everything it read is delivered. -/
theorem Running.turned (h : Running a w p) (hs : p.phase ∈ [.starting, .draining, .closing])
    {queue : Queue} {more : Bool} {p' : Process} (hp : p.turned queue more = some p') :
    p'.queue = queue ∧ Running a w p' := by
  have hset : ∀ i < p.pos, Owed a w i → Delivered a w i :=
    h.settled (by rintro he; simp [he] at hs) (by rintro he; simp [he] at hs)
  cases more with
  | true =>
      cases hp
      exact ⟨rfl, { h with }⟩
  | false =>
      simp only [Process.turned, Bool.false_eq_true, if_false, Process.drained] at hp
      split at hp
      · cases hp
        exact ⟨rfl,
          { within := h.within
            batch := by simp [Process.newPass]
            taken := fun i hi ho => .inr (hset i hi ho)
            settled := fun _ _ => hset
            last := by simp [Process.newPass] }⟩
      · cases hp
        exact ⟨rfl, { h with settled := fun _ _ => hset }⟩
      · cases hp

theorem Inv.turn (h : Inv a w) (hp : w.process = some p) {sched : List (Answer (Option Rec))}
    (ht : Cursor.turn w p sched = some w') : Inv a w' := by
  obtain ⟨live, hl⟩ := h.stored
  rw [hp] at hl
  obtain ⟨live', hl', hlive⟩ := turn_holds hl sched
  unfold Cursor.turn at ht
  split at ht
  · cases ht
  · rename_i hphase
    split at ht
    · cases ht
    · cases ht
      refine h.holds hl hl' rfl (fun r hr => List.mem_append_left _ hr) ?_ rfl ?_
      · exact fun x hx => (hlive x hx).imp_right fun hm r hr => List.mem_append_right _ (hm r hr)
      · exact fun p' hp' => (h.running p hp).turned (not_not.mp hphase) hp'

theorem Inv.turnKilled (h : Inv a w) (hp : w.process = some p)
    {sched : List (Answer (Option Rec))} {removed : Bool}
    (ht : Cursor.turnKilled w p sched removed = some w') : Inv a w' := by
  obtain ⟨live, hl⟩ := h.stored
  rw [hp] at hl
  have hst := hl.1.running p.queue rfl
  unfold Cursor.turnKilled at ht
  split at ht
  · cases ht
  · split at ht
    · rename_i sent path hcall hfront
      split at ht
      · cases ht
      · rename_i hremoved
        cases ht
        cases live with
        | nil =>
            rw [hst.front] at hfront
            cases hfront
        | cons x left =>
            rw [hst.front] at hfront
            cases hfront
            cases removed with
            | false =>
                exact h.holds hl hl rfl (fun r hr => List.mem_append_left _ hr)
                  (fun y hy => .inl hy) rfl (by simp)
            | true =>
                -- the file is removed once every line was accepted
                have hout : sent.outcome = .shipped [] := by simpa using hremoved
                have hpop : Holds a (w.dir.remove (name x)) (some (p.queue.retire (drain.size x.2)))
                    left :=
                  ⟨.of_stored hst.pop_front.2 fun y hy => hl.1.narrow y (List.mem_cons_of_mem _ hy),
                    fun y hy => hl.2 y (List.mem_cons_of_mem _ hy)⟩
                refine h.holds hl hpop rfl (fun r hr => List.mem_append_left _ hr) ?_ rfl (by simp)
                intro y hy
                rcases List.mem_cons.mp hy with rfl | hy
                · refine .inr fun r hr => List.mem_append_right _ ?_
                  simp only [Process.call, hst.front, List.head?_cons, Option.map_some,
                    Option.bind_some, hst.read (List.mem_cons_self ..), Option.some.injEq] at hcall
                  subst hcall
                  have hm := mem_acked_of_shipped (hl.2 y (List.mem_cons_self ..)) hout r hr
                  exact List.mem_filterMap.mpr ⟨_, hm, rfl⟩
                · exact .inl hy
    · cases ht

/-- An entry taken is in the batch, or maps to nothing. -/
theorem Running.take (h : Running a w p) (hphase : p.phase = .reading) {cursor : Text}
    {entry : ε} (hx : w.journal[p.pos]? = some (cursor, entry)) {now : Int}
    {out : Option Text} {stamper : Stamper}
    (hm : mapEntry a.libs a.source (a.kind.fields entry) (a.kind.sourceTs entry) now p.stamper
      = (.ok out, stamper)) :
    Running a w { p with
      pos := p.pos + 1
      stamper
      batch := p.batch ++ (out.map fun text => ⟨p.pos, text⟩).toList
      lastCursor := some cursor } where
  within := (List.getElem?_eq_some_iff.mp hx).1
  batch := by
    intro r hr
    rcases List.mem_append.mp hr with hr | hr
    · exact h.batch r hr
    · rcases mapEntry_ok hm with ⟨rfl, -⟩ | ⟨record, tsNs, hmaps, rfl⟩
      · simp at hr
      · simp only [Option.map_some, Option.toList_some, List.mem_singleton] at hr
        subst hr
        exact ⟨p.pos, rfl, _, record, tsNs, hx, hmaps, rfl⟩
  taken := by
    intro i hi ho
    rcases Nat.lt_succ_iff_lt_or_eq.mp hi with hi | rfl
    · rcases h.taken i hi ho with ⟨r, hr, hrec⟩ | hd
      · exact .inl ⟨r, List.mem_append_left _ hr, hrec⟩
      · exact .inr hd
    · rcases mapEntry_ok hm with ⟨rfl, hnone⟩ | ⟨record, tsNs, hmaps, rfl⟩
      · obtain ⟨x, record, hx', hmaps⟩ := ho
        cases hx.symm.trans hx'
        exact absurd hmaps (hnone record)
      · exact .inl ⟨_, List.mem_append_right _ (List.mem_singleton_self _), rfl, _, record, tsNs,
          hx, hmaps, rfl⟩
  settled := fun hne => absurd hphase hne
  last := by
    rintro c ⟨⟩
    exact ⟨p.pos, entry, rfl, hx⟩

theorem Inv.next (h : Inv a w) (hp : w.process = some p) {now : Int}
    (hn : Cursor.next a w p now = some w') : Inv a w' := by
  have hrun := h.running p hp
  unfold Cursor.next at hn
  split at hn
  · cases hn
  · rename_i hphase
    have hphase := not_not.mp hphase
    split at hn
    · split at hn
      · cases hn
        exact h.goOn hp rfl { hrun with settled := fun _ hne => absurd rfl hne }
      · rename_i hx
        split at hn
        · cases hn
          exact h.ended
        · rename_i hm
          cases hn
          exact h.goOn hp rfl (hrun.take hphase hx hm)
    · cases hn
      exact h.goOn hp rfl { hrun with settled := fun _ hne => absurd rfl hne }

/-- Once the batch is on disk, everything that was read is delivered. -/
theorem Running.pushed (h : Running a w p) (hs : ∀ r ∈ p.batch, Secured w r) (phase : Phase) :
    Running a w { p with phase } where
  within := h.within
  batch := h.batch
  taken := h.taken
  settled := by
    intro _ _ i hi ho
    rcases h.taken i hi ho with ⟨r, hr, hrec⟩ | hd
    · exact ⟨r, hrec, hs r hr⟩
    · exact hd
  last := h.last

theorem Inv.push (h : Inv a w) (hp : w.process = some p) {io : Io}
    (hok : Roomy w (.push io : Event ε))
    (hpush : Cursor.push w p io = some w') : Inv a w' := by
  obtain ⟨hcap, hdisk, hseq⟩ := hok p hp
  obtain ⟨live, hl⟩ := h.stored
  rw [hp] at hl
  have hst := hl.1.running p.queue rfl
  have hrun := h.running p hp
  unfold Cursor.push at hpush
  split at hpush
  · cases hpush
  · rcases hst.push_cases p.batch io with ⟨hfull, -⟩ | ⟨-, -, he⟩ | ⟨at_, e, hio, hspace, -⟩
      | ⟨at_, e, -, -, he⟩
    · omega
    · -- the segment is on disk
      rw [he] at hpush
      cases hpush
      have hgen : ∀ x ∈ live ++ [(p.queue.nextSeq, p.batch)], ∀ r ∈ x.2, Genuine a r := by
        intro x hx r hr
        rcases List.mem_append.mp hx with hx | hx
        · exact hl.2 x hx r hr
        · rw [List.mem_singleton.mp hx] at hr
          obtain ⟨i, hrec⟩ := hrun.batch r hr
          exact hrec.genuine
      have hl' : Holds a (w.dir ++ [(segmentName p.queue.nextSeq, .whole p.batch)])
          (some (Queue.spooled drain.size p.queue p.batch))
          (live ++ [(p.queue.nextSeq, p.batch)]) :=
        ⟨.of_stored (hst.spooled p.batch) (hl.1.narrow.snoc hseq p.batch), hgen⟩
      have hg : Grows a w { w with
          dir := w.dir ++ [(segmentName p.queue.nextSeq, .whole p.batch)]
          process := some { p with
            queue := Queue.spooled drain.size p.queue p.batch, phase := .saving } } :=
        hl.grows hl' (List.prefix_refl _) (fun _ hr => hr)
          fun x hx => .inl (List.mem_append_left _ hx)
      refine h.grow hg h.cursors rfl ⟨_, hl'⟩ ?_
      rintro _ ⟨⟩
      have hsec := (hrun.grow hg).pushed (fun r hr => .inr (hl'.inSegment_iff.mpr
        ⟨_, List.mem_append_right _ (List.mem_singleton_self _), hr⟩)) .saving
      exact { hsec with }
    · rw [hio, roomOnDisk, hspace] at hdisk
      cases hdisk
    · rw [he] at hpush
      cases hpush
      exact h.ended

theorem Inv.pushKilled (h : Inv a w) (hp : w.process = some p) {at_ : KillPoint}
    (hok : Roomy w (.pushKilled at_ : Event ε))
    (hpush : Cursor.pushKilled w p at_ = some w') : Inv a w' := by
  obtain ⟨live, hl⟩ := h.stored
  rw [hp] at hl
  unfold Cursor.pushKilled at hpush
  split at hpush
  · cases hpush
  · cases hpush
    have hl' : Holds a (tornDir p.queue w.dir p.batch at_) none
        (if at_ = .renamed then live ++ [(p.queue.nextSeq, p.batch)] else live) := by
      refine ⟨(hl.1.running p.queue rfl).torn hl.1.narrow (hok p hp) p.batch at_, ?_⟩
      intro x hx r hr
      split at hx
      · rcases List.mem_append.mp hx with hx | hx
        · exact hl.2 x hx r hr
        · rw [List.mem_singleton.mp hx] at hr
          obtain ⟨i, hrec⟩ := (h.running p hp).batch r hr
          exact hrec.genuine
      · exact hl.2 x hx r hr
    have hg : Grows a w { w with dir := tornDir p.queue w.dir p.batch at_, process := none } := by
      refine hl.grows hl' (List.prefix_refl _) (fun _ hr => hr) fun x hx => .inl ?_
      split
      · exact List.mem_append_left _ hx
      · exact hx
    exact h.grow hg h.cursors rfl ⟨_, hl'⟩ (by simp)

theorem Inv.skip (h : Inv a w) (hp : w.process = some p)
    (hs : Cursor.skip a w p = some w') : Inv a w' := by
  have hrun := h.running p hp
  unfold Cursor.skip at hs
  split at hs
  · cases hs
  · rename_i hguard
    rw [not_or, not_not, not_not] at hguard
    have hnone : ∀ r ∈ p.batch, Secured w r := by simp [hguard.2]
    split at hs <;> cases hs
    · exact h.goOn hp rfl (hrun.pushed hnone _)
    · exact h.goOn hp rfl (hrun.pushed hnone _)

theorem Inv.save (h : Inv a w) (hp : w.process = some p)
    (hs : Cursor.save w p = some w') : Inv a w' := by
  have hrun := h.running p hp
  unfold Cursor.save at hs
  split at hs
  · cases hs
  · rename_i hphase
    have hphase := not_not.mp hphase
    cases hs
    have hset := hrun.settled (by simp [hphase]) (by simp [hphase])
    obtain ⟨live, hl⟩ := h.stored
    rw [hp] at hl
    refine ⟨h.cursors, ?_, ⟨live, hl⟩, ?_⟩
    · rintro _ ⟨⟩ c hc
      obtain ⟨k, e, hk, he⟩ := hrun.last c hc
      exact ⟨k, e, he, fun i hi ho => hset i (by omega) ho⟩
    · rintro _ ⟨⟩
      exact { hrun with settled := fun _ _ => hset }

theorem Inv.again (h : Inv a w) (hp : w.process = some p)
    (hs : Cursor.again a w p = some w') : Inv a w' := by
  have hrun := h.running p hp
  unfold Cursor.again at hs
  split at hs
  · cases hs
  · rename_i hphase
    have hphase := not_not.mp hphase
    have hset := hrun.settled (by simp [hphase]) (by simp [hphase])
    split at hs <;> cases hs
    · exact h.goOn hp rfl { hrun with settled := fun _ _ => hset }
    · exact h.goOn hp rfl
        { within := hrun.within
          batch := by simp [Process.newPass]
          taken := fun i hi ho => .inr (hset i hi ho)
          settled := fun _ _ => hset
          last := by simp [Process.newPass] }

/-- **One step keeps the invariant**, if what is pushed finds room. -/
theorem Inv.step {e : Event ε} (h : Inv a w) (hok : Roomy w e)
    (hs : Cursor.step a w e = some w') : Inv a w' := by
  cases e with
  | append cursor entry =>
      simp only [Cursor.step] at hs
      split at hs
      · cases hs
      · rename_i hfresh
        cases hs
        exact h.append hfresh
  | boot =>
      simp only [Cursor.step] at hs
      split at hs
      · cases hs
      · cases hs
        exact h.boot
  | bootKilled swept =>
      simp only [Cursor.step] at hs
      split at hs
      · cases hs
      · rename_i hp
        cases hs
        exact h.bootKilled hp swept
  | turn sched =>
      obtain ⟨p, hp, hs⟩ := Option.bind_eq_some_iff.mp hs
      exact h.turn hp hs
  | turnKilled sched removed =>
      obtain ⟨p, hp, hs⟩ := Option.bind_eq_some_iff.mp hs
      exact h.turnKilled hp hs
  | next now =>
      obtain ⟨p, hp, hs⟩ := Option.bind_eq_some_iff.mp hs
      exact h.next hp hs
  | push io =>
      obtain ⟨p, hp, hs⟩ := Option.bind_eq_some_iff.mp hs
      exact h.push hp hok hs
  | pushKilled at_ =>
      obtain ⟨p, hp, hs⟩ := Option.bind_eq_some_iff.mp hs
      exact h.pushKilled hp hok hs
  | skip =>
      obtain ⟨p, hp, hs⟩ := Option.bind_eq_some_iff.mp hs
      exact h.skip hp hs
  | save =>
      obtain ⟨p, hp, hs⟩ := Option.bind_eq_some_iff.mp hs
      exact h.save hp hs
  | again =>
      obtain ⟨p, hp, hs⟩ := Option.bind_eq_some_iff.mp hs
      exact h.again hp hs
  | kill =>
      obtain ⟨p, -, rfl⟩ := Option.map_eq_some_iff.mp hs
      exact h.ended

theorem Inv.empty : Inv a (World.empty : World ε) where
  cursors := List.nodup_nil
  saved := by simp [World.empty]
  stored := ⟨[], ⟨⟨by simp [Narrow], ⟨List.Perm.nil, List.Pairwise.nil⟩, by simp [World.empty],
    by simp [World.empty]⟩, by simp⟩⟩
  running := by simp [World.empty]

/-- **The saved cursor covers what it passed**, for journald and for the Windows
event log, in every state of every run in which each batch that is pushed finds
room. -/
theorem covered_of_roomy (libs : Libs) (source : Source) (queueMaxBytes batchLines : Nat)
    (once : Bool) :
    (∀ events w,
      Meets (step (runJournald libs source queueMaxBytes batchLines once)) Roomy .empty events →
      run (step (runJournald libs source queueMaxBytes batchLines once)) .empty events = some w →
      Covered (runJournald libs source queueMaxBytes batchLines once) w)
    ∧ ∀ events w,
      Meets (step (runWinlog libs source queueMaxBytes batchLines once)) Roomy .empty events →
      run (step (runWinlog libs source queueMaxBytes batchLines once)) .empty events = some w →
      Covered (runWinlog libs source queueMaxBytes batchLines once) w := by
  have hall : ∀ {ε : Type} (a : Agent ε) events w, Meets (step a) Roomy .empty events →
      run (step a) .empty events = some w → Covered a w := fun a events w hok hr =>
    (run_invariant (I := Inv a) (fun _ _ _ h hok hs => h.step hok hs) .empty hok hr).covered
  exact ⟨hall _, hall _⟩

/-! ## An outage that fills the queue -/

/-- The JSON library on objects of one string field. -/
def demoLibs : Libs :=
  { display := fun _ => [], parseF64 := fun _ => none, floatOf := fun _ => ⟨0⟩
    render := fun j => match j with
      | .object [(k, .string v)] => "\x7b\"".toList ++ k ++ "\":\"".toList ++ v ++ "\"\x7d".toList
      | _ => []
    parseJson := fun t =>
      if t = "\x7b\"MESSAGE\":\"hi\"\x7d".toList then
        .ok [("MESSAGE".toList, .string "hi".toList)]
      else .error "expected value"
    intError := fun _ => "", parseRfc3339 := fun _ => .error "", parseValue := fun _ => .error ""
    decodeLossy := id, isMatch := fun _ _ => false, replaceAll := fun _ _ t => t }

def demoSource : Source :=
  { name := "j".toList, path := [], table := "logs".toList, parser := .journald
    timestamp := { field := none, format := "unix_ms".toList, resolution := .millis }
    tags := [], tagsStatic := [], fields := [("MESSAGE".toList, .string)], visibility := none
    kubernetes := false }

def hi : Journald.Entry := ⟨[("MESSAGE".toList, "hi".toList)], 5⟩

def down : Answer (Option Rec) := fun _ => .wire "connection refused"

/-- Two entries, each pushed as a batch of its own while the server is down; the
second time with the cursor saved and the server back. -/
def outage : List (Event Journald.Entry) :=
  [.append ['a'] hi, .append ['b'] hi, .boot, .turn [], .next 0, .next 0, .push .ok, .save,
    .turn [down], .again, .next 0, .next 0, .push .ok, .save]

/-- A queue of 40 bytes, which one batch of 29 leaves no room in for a second. -/
def small : Agent Journald.Entry := runJournald demoLibs demoSource 40 1 true

/-- A queue with room for both. -/
def large : Agent Journald.Entry := runJournald demoLibs demoSource 60 1 true

theorem covered_of_roomy_outage :
    ∃ w, run (step large) .empty outage = some w ∧ Covered large w
      ∧ (w.saved.bind (·.cursor)) = some ['b'] :=
  ⟨_, rfl, (covered_of_roomy demoLibs demoSource 60 1 true).1 outage _ (by decide +kernel) rfl, rfl⟩

theorem small_outage :
    ∃ w, run (step small) .empty outage = some w ∧ w.journal = [(['a'], hi), (['b'], hi)]
      ∧ w.saved.bind (·.cursor) = some ['b'] ∧ w.acked = []
      ∧ w.dir = [(segmentName 0, .whole [⟨0, "logs,stream=j MESSAGE=\"hi\" 0\n".toList⟩])] :=
  ⟨_, rfl, rfl, rfl, rfl, by decide +kernel⟩

/-- The queue refuses the second batch, and the cursor is saved all the same. -/
theorem cursor_passes_refused_batch :
    ∃ w, run (step small) .empty outage = some w ∧ ¬ Covered small w := by
  obtain ⟨w, hrun, hjournal, hsaved, hacked, hdir⟩ := small_outage
  refine ⟨w, hrun, fun hcov => ?_⟩
  obtain ⟨cp, hcp, hcursor⟩ := Option.bind_eq_some_iff.mp hsaved
  have hsecond : w.journal[1]? = some (['b'], hi) := by rw [hjournal]; rfl
  have howed : Owed small w 1 := ⟨_, _, hsecond, by decide +kernel, 0, 0, rfl⟩
  obtain ⟨r, ⟨hentry, -⟩, hsec⟩ := hcov cp hcp 1 _ hsecond hcursor 1 (Nat.le_refl _) howed
  rcases hsec with hm | ⟨path, batch, hm, -, hr⟩
  · simp [hacked] at hm
  · rw [hdir, List.mem_singleton] at hm
    cases hm
    rw [List.mem_singleton] at hr
    subst hr
    cases hentry

end Tributary.Cursor
