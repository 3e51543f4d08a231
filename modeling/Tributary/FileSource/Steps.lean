import Tributary.FileSource

/-!
# What a step can do

Which states an event can lead to, read off its function once. `Quiet` and
`Still` relate states that hold the same lines in the same places; `Took` says
what becomes of a record the framer completed.
-/

namespace Tributary.FileSource

open Lib Queue Ship Stamp Tail Map Transform

variable {c : Config} {s s' : State} {l : Line}

/-! ## Steps that move no line -/

/-- Two states that hold the same lines in the same places, with the same claim
about them. -/
structure Quiet (s s' : State) : Prop where
  framer : s'.framer = s.framer
  batch : s'.batch = s.batch
  inflight : s'.inflight = s.inflight
  held : s'.held = s.held
  queue : s'.queue = s.queue
  dir : s'.dir = s.dir
  acked : s'.acked = s.acked
  deadLetter : s'.deadLetter = s.deadLetter
  dropped : s'.dropped = s.dropped
  made : s'.made = s.made
  read : s'.read = s.read
  published : s'.watermark.publishedNs = s.watermark.publishedNs

/-- Also with the same checkpoint and the same rows. -/
structure Still (s s' : State) : Prop extends Quiet s s' where
  saved : s'.saved = s.saved
  rows : s'.rows = s.rows

theorem Quiet.refl (s : State) : Quiet s s :=
  ⟨rfl, rfl, rfl, rfl, rfl, rfl, rfl, rfl, rfl, rfl, rfl, rfl⟩

theorem Quiet.trans {s'' : State} (h : Quiet s s') (h' : Quiet s' s'') : Quiet s s'' :=
  ⟨h'.framer.trans h.framer, h'.batch.trans h.batch, h'.inflight.trans h.inflight,
    h'.held.trans h.held, h'.queue.trans h.queue, h'.dir.trans h.dir, h'.acked.trans h.acked,
    h'.deadLetter.trans h.deadLetter, h'.dropped.trans h.dropped, h'.made.trans h.made,
    h'.read.trans h.read, h'.published.trans h.published⟩

theorem Still.refl (s : State) : Still s s := ⟨.refl s, rfl, rfl⟩

theorem Still.trans {s'' : State} (h : Still s s') (h' : Still s' s'') : Still s s'' :=
  ⟨h.toQuiet.trans h'.toQuiet, h'.saved.trans h.saved, h'.rows.trans h.rows⟩

section still

variable (s)

/-- What no relation here looks at. -/
theorem still_of (fs : Fs) (tailer : Tailer) (rules : Rules) (batchLines maxInflight : Nat)
    (phase : Phase) (idle : Bool) :
    Still s { s with fs, tailer, rules, batchLines, maxInflight, phase, idle } :=
  ⟨⟨rfl, rfl, rfl, rfl, rfl, rfl, rfl, rfl, rfl, rfl, rfl, rfl⟩, rfl, rfl⟩

theorem still_stop : Still s s.stop := still_of s _ _ _ _ _ _ _

theorem still_go (phase : Phase) : Still s (s.go phase) := by
  rw [State.go]
  split
  · exact .refl s
  · exact still_of s _ _ _ _ _ _ _

theorem still_leaveDrain (final : Bool) : Still s (s.leaveDrain final) := by
  cases final with
  | true => exact still_go s _
  | false => exact (still_of s s.fs s.tailer s.rules _ _ s.phase true).trans (still_go _ _)

theorem still_afterFlush (after : After) : Still s (s.afterFlush after) := by
  cases after <;> exact still_go s _

theorem quiet_saveCheckpoint (io : Io) : Quiet s (s.saveCheckpoint io) := by
  unfold State.saveCheckpoint
  split
  · exact .refl s
  · split
    · exact ⟨rfl, rfl, rfl, rfl, rfl, rfl, rfl, rfl, rfl, rfl, rfl, rfl⟩
    · split
      · exact .refl s
      · exact (still_stop s).toQuiet

theorem quiet_writeWatermark (nowNs : Int) : Quiet s (writeWatermark s nowNs) := by
  rw [writeWatermark]
  split
  · exact .refl s
  · exact ⟨rfl, rfl, rfl, rfl, rfl, rfl, rfl, rfl, rfl, rfl, rfl, rfl⟩

theorem go_phase (phase : Phase) : (s.go phase).phase = phase ∨ (s.go phase).phase = .stopped := by
  rw [State.go]
  split
  · rename_i h
    exact .inr h
  · exact .inl rfl

end still

/-- Saving writes what was handed out so far, or leaves the checkpoint alone. -/
theorem saved_saveCheckpoint (io : Io) :
    (s.saveCheckpoint io).saved = s.saved
      ∨ s.held = [] ∧ io = .ok
        ∧ (s.saveCheckpoint io).saved = some { checkpoint := s.checkpoint, covers := s.read } := by
  unfold State.saveCheckpoint
  split
  · exact .inl rfl
  · rename_i hheld
    split
    · exact .inr ⟨not_not.mp hheld, rfl, rfl⟩
    · split <;> exact .inl rfl

/-! ## What becomes of a completed record -/

/-- What `build` makes of a line. -/
def State.built (c : Config) (s : State) (line : Chunk) (nowNs : Int) : Except String Built :=
  (build c.libs c.source s.rules line.text nowNs s.stamper s.watermark).1

/-- A state that differs in the stamper, the counters and the watermark's
samples. -/
structure Counted (s base : State) : Prop extends Still s base where
  phase : base.phase = s.phase

/-- The four things that happen to a record in the loop. -/
inductive Took (s : State) (line : Chunk) (built : Except String Built) : State → Prop where
  | enlisted (base : State) (l : Line) (record : Lp.Record) (hb : Counted s base)
      (hbuilt : built = .ok (.ready record l.ts)) (hids : l.ids = line.ids) (htext : l.text ≠ [])
      (hlate : l.late = s.watermark.violates l.ts) :
      Took s line built (base.enlist l)
  | unencodable (base : State) (l : Line) (reason : String) (hb : Counted s base)
      (hids : l.ids = line.ids) :
      Took s line built ((base.unencoded l).refuse line reason)
  | refused (base : State) (reason : String) (hb : Counted s base) :
      Took s line built (base.refuse line reason)
  | dropped (base : State) (hb : Counted s base) :
      Took s line built { base with dropped := base.dropped ++ line.ids }

/-- What shutdown gives up: a record without an encoding, and a line that
becomes no record. -/
inductive Lost (c : Config) (s : State) (line : Chunk) (built : Except String Built) :
    State → Prop where
  | unencodable (base : State) (l : Line) (record : Lp.Record) (e : Lp.EncodeError)
      (hb : Counted s base) (hbuilt : built = .ok (.ready record l.ts)) (hids : l.ids = line.ids)
      (hencode : record.encode c.libs.display = .error e) : Lost c s line built (base.unencoded l)
  | unbuilt (base : State) (e : String) (hb : Counted s base) (hbuilt : built = .error e) :
      Lost c s line built base

/-- Building leaves the claim that is published alone. -/
theorem build_published (libs : Libs) (source : Source) (rules : Rules) (line : Text) (now : Int)
    (stamper : Stamper) (wm : Watermark) :
    (build libs source rules line now stamper wm).2.2.publishedNs = wm.publishedNs := by
  unfold build
  split
  · rfl
  · rfl
  · split
    · rfl
    · split
      · rfl
      · split <;> rfl

/-- An encoded record has a text. -/
theorem text_ne_nil {display : F64 → Text} {r : Lp.Record} {text : Text}
    (h : r.encode display = .ok text) : text ≠ [] := by
  rw [((Lp.Record.encode_eq_ok_iff display).mp h).2, Lp.Record.line_eq]
  simp

/-- The states `take` starts from. -/
theorem counted_of (s : State) (stamper : Stamper) (watermark : Watermark)
    (h : watermark.publishedNs = s.watermark.publishedNs)
    (readTotal droppedFilter droppedSample : Nat) :
    Counted s { s with stamper, watermark, readTotal, droppedFilter, droppedSample } :=
  ⟨⟨⟨rfl, rfl, rfl, rfl, rfl, rfl, rfl, rfl, rfl, rfl, rfl, h⟩, rfl, rfl⟩, rfl⟩

theorem took_take (c : Config) (s : State) (line : Chunk) (nowNs : Int) :
    Took s line (s.built c line nowNs) (s.take c line nowNs) := by
  have hpub := build_published c.libs c.source s.rules line.text nowNs s.stamper s.watermark
  unfold State.take State.built
  generalize build c.libs c.source s.rules line.text nowNs s.stamper s.watermark = b at hpub
  obtain ⟨built, stamper, watermark⟩ := b
  have hb := counted_of s stamper watermark hpub
  have hread := hb (s.readTotal + 1) s.droppedFilter s.droppedSample
  dsimp only
  split
  · rename_i record ts
    split
    · rename_i text htext
      exact .enlisted _ { ids := line.ids, ts, late := s.watermark.violates ts, text } record hread
        rfl rfl (text_ne_nil htext) rfl
    · exact .unencodable _ { ids := line.ids, ts, late := s.watermark.violates ts, text := [] } _
        hread rfl
  · exact .dropped _ (hb (s.readTotal + 1 - 1) s.droppedFilter s.droppedSample)
  · rename_i stage
    cases stage with
    | filter => exact .dropped _ (hb (s.readTotal + 1) (s.droppedFilter + 1) s.droppedSample)
    | sample => exact .dropped _ (hb (s.readTotal + 1) s.droppedFilter (s.droppedSample + 1))
  · exact .refused _ _ hread

theorem took_takeLast (c : Config) (s : State) (line : Chunk) (nowNs : Int) :
    Took s line (s.built c line nowNs) (s.takeLast c line nowNs)
      ∨ Lost c s line (s.built c line nowNs) (s.takeLast c line nowNs) := by
  have hpub := build_published c.libs c.source s.rules line.text nowNs s.stamper s.watermark
  unfold State.takeLast State.built
  generalize build c.libs c.source s.rules line.text nowNs s.stamper s.watermark = b at hpub
  obtain ⟨built, stamper, watermark⟩ := b
  have hb := counted_of s stamper watermark hpub
  have hsame := hb s.readTotal s.droppedFilter s.droppedSample
  have hread := hb (s.readTotal + 1) s.droppedFilter s.droppedSample
  dsimp only
  split
  · rename_i record ts
    split
    · rename_i text htext
      exact .inl (.enlisted _ { ids := line.ids, ts, late := s.watermark.violates ts, text } record
        hread rfl rfl (text_ne_nil htext) rfl)
    · rename_i e he
      exact .inr (.unencodable _ { ids := line.ids, ts, late := s.watermark.violates ts, text := [] }
        record e hsame rfl rfl he)
  · rename_i stage
    cases stage with
    | filter =>
        exact .inl (.dropped _ (hb (s.readTotal + 1) (s.droppedFilter + 1) s.droppedSample))
    | sample =>
        exact .inl (.dropped _ (hb (s.readTotal + 1) s.droppedFilter (s.droppedSample + 1)))
  · exact .inl (.dropped _ hsame)
  · exact .inr (.unbuilt _ _ hsame rfl)

theorem Counted.refl (s : State) : Counted s s := ⟨.refl s, rfl⟩

theorem Took.phase {line : Chunk} {built : Except String Built} (h : Took s line built s') :
    s'.phase = s.phase := by
  cases h with
  | enlisted base l record hb => exact hb.phase
  | unencodable base l reason hb => exact hb.phase
  | refused base reason hb => exact hb.phase
  | dropped base hb => exact hb.phase

/-- Taking a record is no matter of the framer. -/
theorem Took.framer {line : Chunk} {built : Except String Built} (h : Took s line built s') :
    s'.framer = s.framer := by
  cases h with
  | enlisted base l record hb => exact hb.framer
  | unencodable base l reason hb => exact hb.framer
  | refused base reason hb => exact hb.framer
  | dropped base hb => exact hb.framer

/-- A checkpoint comes later. -/
theorem Took.saved {line : Chunk} {built : Except String Built} (h : Took s line built s') :
    s'.saved = s.saved := by
  cases h with
  | enlisted base l record hb => exact hb.saved
  | unencodable base l reason hb => exact hb.saved
  | refused base reason hb => exact hb.saved
  | dropped base hb => exact hb.saved

theorem Lost.phase {line : Chunk} {built : Except String Built} (h : Lost c s line built s') :
    s'.phase = s.phase := by
  cases h with
  | unencodable base l record e hb => exact hb.phase
  | unbuilt base e hb => exact hb.phase

theorem Lost.saved {line : Chunk} {built : Except String Built} (h : Lost c s line built s') :
    s'.saved = s.saved := by
  cases h with
  | unencodable base l record e hb => exact hb.saved
  | unbuilt base e hb => exact hb.saved

/-! ## Batches that move -/

namespace State

/-- The batch is in a segment. -/
def spooled (s : State) (lines : List Line) (full : Bool) : State :=
  { s with
    queue := { Queue.spooled size s.queue lines with full }
    dir := s.dir ++ [(segmentName s.queue.nextSeq, .whole lines)] }

/-- Reading stops. -/
def pause (s : State) : State := { s with queue := { s.queue with full := true } }

/-- Whether the queue refuses a batch it may refuse. -/
def refuses (s : State) (lines : List Line) (io : Io) : Bool :=
  decide (s.queue.maxBytes < s.queue.bytes + size lines)
    || match io with
      | .ok => false
      | .fail _ e => outOfSpace e

/-- Lines the server took, and lines it will never take. -/
def settled (s : State) (acked poison : List Line) : State :=
  { s with acked := s.acked ++ acked }.quarantine poison

end State

/-- A batch that is dealt with: each line with a text was taken or handed back. -/
def Dealt (lines acked poison : List Line) : Prop :=
  ∀ l ∈ lines, blank l = false → l ∈ acked ∨ l ∈ poison

theorem dealt_of_shipped {sched : List (Answer Line)} {lines poison : List Line}
    (h : (sendLines blank sched [lines]).outcome = .shipped poison) :
    Dealt lines (sendLines blank sched [lines]).acked poison :=
  fun _ hl hb => mem_of_shipped h (by simpa using hl) hb

theorem finish_cases {i : Nat} {sched : List (Answer Line)} (h : finish s i sched = some s') :
    ∃ lines acked t, s.inflight[i]? = some (.running lines) ∧ t.lines = lines
      ∧ (∀ lines' poison, t = .shipped lines' poison → Dealt lines' acked poison)
      ∧ s' = { s with acked := s.acked ++ acked, inflight := s.inflight.set i t } := by
  unfold finish at h
  split at h
  · rename_i lines hi
    dsimp only at h
    cases hout : (sendLines blank sched [lines]).outcome with
    | pending => simp [hout] at h
    | shipped poison =>
        simp only [hout, Option.some.injEq] at h
        refine ⟨lines, _, .shipped lines poison, hi, rfl, ?_, h.symm⟩
        rintro lines' poison' ht
        cases ht
        exact dealt_of_shipped hout
    | failed e =>
        simp only [hout, Option.some.injEq] at h
        exact ⟨lines, _, .failed lines e, hi, rfl, by simp, h.symm⟩
  · cases h

/-- A turn over the held batches. -/
inductive Landed (s : State) (body : List Line) (rest : List (List Line)) (final : Bool) :
    Io → State → Prop where
  | spooled : Landed s body rest final .ok ({ s with held := rest }.spooled body true)
  | shipped (at_ : SpoolStep) (e : IoError) (acked poison : List Line)
      (hspace : outOfSpace e = true) (hall : Dealt body acked poison) :
      Landed s body rest final (.fail at_ e)
        { s.pause.settled acked poison with held := rest, phase := .draining true final }
  | kept (at_ : SpoolStep) (e : IoError) (acked : List Line) (hspace : outOfSpace e = true) :
      Landed s body rest final (.fail at_ e)
        ({ s.pause with acked := s.acked ++ acked }.leaveDrain final)
  | stopped (at_ : SpoolStep) (e : IoError) (hspace : outOfSpace e = false) :
      Landed s body rest final (.fail at_ e) s.stop

theorem land_cases {live : List (Nat × List Line)} (hst : Stored size s.dir s.queue live) {io : Io}
    {sched : List (Answer Line)} (h : land s io sched = some s') :
    ∃ drained final body rest, s.phase = .draining drained final ∧ s.held = body :: rest
      ∧ Landed s body rest final io s' := by
  unfold land at h
  split at h
  · rename_i drained final body rest hphase hheld
    refine ⟨drained, final, body, rest, hphase, hheld, ?_⟩
    rcases hst.pushForced_cases body io with ⟨rfl, he⟩ | ⟨at_, e, rfl, hspace, he⟩
      | ⟨at_, e, rfl, hspace, he⟩
    · simp only [he, Option.some.injEq] at h
      subst h
      exact .spooled
    · simp only [he] at h
      cases hout : (sendLines blank sched [body]).outcome with
      | pending => simp [hout] at h
      | shipped poison =>
          simp only [hout, Option.some.injEq] at h
          subst h
          exact .shipped at_ e _ poison hspace (dealt_of_shipped hout)
      | failed e' =>
          simp only [hout, Option.some.injEq] at h
          subst h
          exact .kept at_ e _ hspace
    · simp only [he, Option.some.injEq] at h
      subst h
      exact .stopped at_ e hspace
  · cases h

/-- A turn over the queue. -/
theorem ship_cases {live : List (Nat × List Line)} (hst : Stored size s.dir s.queue live)
    {sched : List (Answer Line)} (h : ship s sched = some s') :
    ∃ drained final x rest, s.phase = .draining drained final ∧ s.held = [] ∧ live = x :: rest
      ∧ ((∃ acked poison, Dealt x.2 acked poison
          ∧ s' = { s.settled acked poison with
              queue := s.queue.retire (size x.2)
              dir := s.dir.remove (name x)
              phase := .draining true final })
        ∨ ∃ acked, s' = { s with acked := s.acked ++ acked }.leaveDrain final) := by
  unfold ship at h
  split at h
  · rename_i drained final path hphase hheld hfront
    rw [hst.front, Option.map_eq_some_iff] at hfront
    obtain ⟨x, hx, rfl⟩ := hfront
    obtain ⟨rest, rfl⟩ := List.head?_eq_some_iff.mp hx
    refine ⟨drained, final, x, rest, hphase, hheld, rfl, ?_⟩
    simp only [hst.read (List.mem_cons_self ..)] at h
    cases hout : (sendLines blank sched [x.2]).outcome with
    | pending => simp [hout] at h
    | shipped poison =>
        simp only [hout] at h
        have hpop : Queue.pop size ({ s with acked := s.acked ++
            (sendLines blank sched [x.2]).acked }.quarantine poison).queue
            ({ s with acked := s.acked ++ (sendLines blank sched [x.2]).acked }.quarantine
              poison).dir (name x) = some (s.queue.retire (size x.2), s.dir.remove (name x)) :=
          hst.pop_front.1
        simp only [hpop, Option.some.injEq] at h
        exact .inl ⟨_, poison, dealt_of_shipped hout, h.symm⟩
    | failed e =>
        simp only [hout, Option.some.injEq] at h
        exact .inr ⟨_, h.symm⟩
  · cases h

/-- `reap_one`, on a batch that is done. -/
inductive Reaped (s : State) : Task → Io → Io → State → Prop where
  | shipped (lines poison : List Line) (io forcedIo : Io) :
      Reaped s (.shipped lines poison) io forcedIo (s.quarantine poison)
  | spooled (lines : List Line) (e : ShipError) (forcedIo : Io)
      (hfits : s.queue.bytes + size lines ≤ s.queue.maxBytes) :
      Reaped s (.failed lines e) .ok forcedIo (s.spooled lines s.queue.full)
  | forced (lines : List Line) (e : ShipError) (io : Io) (hrefused : s.refuses lines io = true) :
      Reaped s (.failed lines e) io .ok (s.spooled lines true)
  | held (lines : List Line) (e : ShipError) (io : Io) (at_ : SpoolStep) (ioe : IoError)
      (hrefused : s.refuses lines io = true) (hspace : outOfSpace ioe = true) :
      Reaped s (.failed lines e) io (.fail at_ ioe) { s.pause with held := s.held ++ [lines] }
  | failed (lines : List Line) (e : ShipError) (at_ : SpoolStep) (ioe : IoError) (forcedIo : Io)
      (hfits : s.queue.bytes + size lines ≤ s.queue.maxBytes) (hspace : outOfSpace ioe = false) :
      Reaped s (.failed lines e) (.fail at_ ioe) forcedIo s.stop
  | stopped (lines : List Line) (e : ShipError) (io : Io) (at_ : SpoolStep) (ioe : IoError)
      (hrefused : s.refuses lines io = true) (hspace : outOfSpace ioe = false) :
      Reaped s (.failed lines e) io (.fail at_ ioe) s.pause.stop

theorem reaped_cases {live : List (Nat × List Line)} (hst : Stored size s.dir s.queue live)
    {task : Task} {io forcedIo : Io} (h : s.reap task io forcedIo = some s') :
    Reaped s task io forcedIo s' := by
  cases task with
  | running lines => cases h
  | shipped lines poison =>
      cases h
      exact .shipped lines poison io forcedIo
  | failed lines e =>
      have hforced : s.refuses lines io = true → Queue.push size s.queue s.dir lines io
          = (.ok false, { s.queue with full := true }, s.dir) →
          Reaped s (.failed lines e) io forcedIo s' := by
        intro hrefused he
        simp only [State.reap, he] at h
        rcases (hst.setFull true).pushForced_cases lines forcedIo with ⟨rfl, hf⟩
          | ⟨at_, ioe, rfl, hspace, hf⟩ | ⟨at_, ioe, rfl, hspace, hf⟩
        · simp only [hf, Option.some.injEq] at h
          subst h
          exact .forced lines e io hrefused
        · simp only [hf, Option.some.injEq] at h
          subst h
          exact .held lines e io at_ ioe hrefused hspace
        · simp only [hf, Option.some.injEq] at h
          subst h
          exact .stopped lines e io at_ ioe hrefused hspace
      rcases hst.push_cases lines io with ⟨hcap, he⟩ | ⟨hcap, rfl, he⟩ | ⟨at_, ioe, rfl, hspace, he⟩
        | ⟨at_, ioe, rfl, hspace, he⟩
      · exact hforced (by simp [State.refuses, hcap]) he
      · simp only [State.reap, he, Option.some.injEq] at h
        subst h
        exact .spooled lines e forcedIo hcap
      · exact hforced (by simp [State.refuses, hspace]) he
      · simp only [State.reap, he, Option.some.injEq] at h
        subst h
        refine .failed lines e at_ ioe forcedIo (Nat.not_lt.mp fun hcap => ?_) hspace
        rw [push, if_pos hcap] at he
        cases he

/-- A batch left the in-flight set. -/
def State.collected (s : State) (i : Nat) : State := { s with inflight := s.inflight.eraseIdx i }

theorem reap_cases {live : List (Nat × List Line)} (hst : Stored size s.dir s.queue live) {i : Nat}
    {io forcedIo : Io} (h : reap s i io forcedIo = some s') :
    ∃ task, s.inflight[i]? = some task ∧ Reaped (s.collected i) task io forcedIo s' := by
  unfold reap at h
  split at h
  · obtain ⟨task, hi, hreap⟩ := Option.bind_eq_some_iff.mp h
    have hst' : Stored size (s.collected i).dir (s.collected i).queue live := hst
    exact ⟨task, hi, reaped_cases hst' hreap⟩
  · cases h

/-! ## The read loop -/

/-- A line was handed out. -/
def State.handed (s : State) (tailer : Tailer) (framer : Framer) : State :=
  { s with tailer, framer, idle := false, read := s.read + 1 }

/-- The record an event completes, and the clock it is read at. -/
def State.completed (c : Config) (s : State) : Event → Option (Chunk × Int)
  | .next nowNs nowMs =>
      (Tailer.nextLine s.fs s.tailer).1.bind fun raw =>
        match (s.framer.push c.libs { ids := [s.read], text := c.libs.decodeLossy raw } nowMs).1 with
        | .ok out => out.map fun line => (line, nowNs)
        | .error _ => none
  | .expire nowNs nowMs order =>
      (s.framer.expire c.libs nowMs order).1.map fun line => (line, nowNs)
  | .unframe nowNs order => (s.framer.drain c.libs order).1.map fun line => (line, nowNs)
  | _ => none

/-- A turn of the read loop. -/
inductive Read (c : Config) (s : State) (nowNs : Int) (nowMs : Nat) : State → Prop where
  | idle (tailer : Tailer) : Read c s nowNs nowMs ({ s with tailer }.go .expiring)
  | buffered (tailer : Tailer) (framer : Framer)
      (hids : Conserves (s.framer.ids ++ [s.read]) framer.ids none) :
      Read c s nowNs nowMs (s.handed tailer framer)
  | refused (tailer : Tailer) (line : Chunk) (e : String) (hids : line.ids = [s.read]) :
      Read c s nowNs nowMs ((s.handed tailer s.framer).refuse line e)
  | completed (tailer : Tailer) (framer : Framer) (record : Chunk)
      (hids : Conserves (s.framer.ids ++ [s.read]) framer.ids (some record))
      (hdone : s.completed c (.next nowNs nowMs) = some (record, nowNs))
      (hopen : ((s.handed tailer framer).take c record nowNs).batchLines
          ≤ ((s.handed tailer framer).take c record nowNs).batch.length →
        ((s.handed tailer framer).take c record nowNs).framer.hasPending = true) :
      Read c s nowNs nowMs ((s.handed tailer framer).take c record nowNs)
  | full (tailer : Tailer) (framer : Framer) (record : Chunk)
      (hids : Conserves (s.framer.ids ++ [s.read]) framer.ids (some record))
      (hdone : s.completed c (.next nowNs nowMs) = some (record, nowNs))
      (hpending : ((s.handed tailer framer).take c record nowNs).framer.hasPending = false) :
      Read c s nowNs nowMs (((s.handed tailer framer).take c record nowNs).go (.flushing .read))

theorem next_cases {nowNs : Int} {nowMs : Nat} (h : next c s nowNs nowMs = some s') :
    s.phase = .reading ∧ Read c s nowNs nowMs s' := by
  unfold next at h
  split at h
  · cases h
  rename_i hphase
  refine ⟨not_not.mp hphase, ?_⟩
  split at h
  · cases h
    exact .idle s.tailer
  split at h
  · cases h
    exact .idle _
  rename_i raw tailer hline
  dsimp only at h
  split at h
  · rename_i framer hpush
    cases h
    exact .buffered tailer framer (Framer.push_ok hpush)
  · rename_i e framer hpush
    cases h
    rw [Framer.push_error hpush]
    exact .refused tailer _ e rfl
  · rename_i record framer hpush
    have hdone : s.completed c (.next nowNs nowMs) = some (record, nowNs) := by
      simp [State.completed, hline, hpush]
    split at h
    · rename_i hfull
      cases h
      exact .full tailer framer record (Framer.push_ok hpush) hdone hfull.2
    · rename_i hopen
      cases h
      refine .completed tailer framer record (Framer.push_ok hpush) hdone fun hfull => ?_
      exact (Bool.not_eq_false _).mp fun hpending => hopen ⟨hfull, hpending⟩

theorem expire_cases {nowNs : Int} {nowMs : Nat} {order : List Text}
    (h : expire c s nowNs nowMs order = some s') :
    ∃ framer out, Conserves s.framer.ids framer.ids out
      ∧ (out = none ∧ s' = { s with framer }.go .timing
        ∨ ∃ record, out = some record
          ∧ s.completed c (.expire nowNs nowMs order) = some (record, nowNs)
          ∧ s' = ({ s with framer }.take c record nowNs).go .timing) := by
  unfold expire at h
  split at h
  · cases h
  have hc : Conserves s.framer.ids (s.framer.expire c.libs nowMs order).2.ids
      (s.framer.expire c.libs nowMs order).1 := Framer.expire_conserves nowMs order
  split at h
  · rename_i framer he
    cases h
    rw [he] at hc
    exact ⟨framer, none, hc, .inl ⟨rfl, rfl⟩⟩
  · rename_i record framer he
    cases h
    rw [he] at hc
    exact ⟨framer, some record, hc, .inr ⟨record, rfl, by simp [State.completed, he], rfl⟩⟩

theorem unframe_cases {nowNs : Int} {order : List Text} (h : unframe c s nowNs order = some s') :
    s.phase = .unframing
      ∧ ((∃ framer, framer.hasPending = false ∧ Conserves s.framer.ids framer.ids none
          ∧ s' = { s with framer }.go (.flushing .final))
        ∨ ∃ framer record, s.framer.drain c.libs order = (some record, framer)
          ∧ Conserves s.framer.ids framer.ids (some record)
          ∧ s' = { s with framer }.takeLast c record nowNs) := by
  unfold unframe at h
  split at h
  · cases h
  rename_i hphase
  refine ⟨not_not.mp hphase, ?_⟩
  have hc : Conserves s.framer.ids (s.framer.drain c.libs order).2.ids
      (s.framer.drain c.libs order).1 := Framer.drain_conserves order
  split at h
  · rename_i framer he
    cases h
    have hnone := Framer.drain_none (congrArg Prod.fst he)
    have hsame : framer = s.framer :=
      congrArg Prod.snd (he.symm.trans (Framer.idle_of_not_pending hnone 0 order).2)
    rw [he] at hc
    exact .inl ⟨framer, hsame ▸ hnone, hc, rfl⟩
  · rename_i record framer he
    cases h
    rw [he] at hc
    exact .inr ⟨framer, record, he, hc, rfl⟩

/-! ## Flushes, checkpoints and rows -/

theorem time_cases {due : Bool} (h : time s due = some s') :
    s.framer.hasPending = false ∧ s' = s.go (.flushing .timed) ∨ s' = s.go (.publishing false) := by
  unfold time at h
  split at h
  · cases h
  split at h
  · rename_i hdue
    cases h
    exact .inl ⟨by simpa using (Bool.and_eq_true_iff.mp hdue).2, rfl⟩
  · cases h
    exact .inr rfl

/-- The batch is in flight, and the watermark has moved. -/
def State.submitted (s : State) : State :=
  { s with
    inflight := s.inflight ++ [Task.running s.batch]
    batch := []
    watermark := if s.batchMaxTs ≠ i64Min then s.watermark.advance s.batchMaxTs else s.watermark
    batchMaxTs := i64Min }

theorem submit_cases (h : submit s = some s') :
    ∃ after, s.phase = .flushing after
      ∧ (s.batch = [] ∧ s' = s.afterFlush after
        ∨ s.batch ≠ [] ∧ s' = s.submitted.afterFlush after) := by
  unfold submit at h
  split at h
  · rename_i after hphase
    refine ⟨after, hphase, ?_⟩
    split at h
    · rename_i hbatch
      cases h
      exact .inl ⟨hbatch, rfl⟩
    · rename_i hbatch
      split at h
      · cases h
        exact .inr ⟨hbatch, rfl⟩
      · cases h
  · cases h

theorem drained_cases {io : Io} (h : drained s io = some s') :
    ∃ drained final, s.phase = .draining drained final ∧ s.held = []
      ∧ s' = (if drained then s.saveCheckpoint io else s).leaveDrain final := by
  unfold FileSource.drained at h
  split at h
  · rename_i drained final hphase hheld _
    cases h
    exact ⟨drained, final, hphase, hheld, rfl⟩
  · cases h

theorem settle_cases {io : Io} (h : settle s io = some s') :
    ∃ final, s.phase = .settling final ∧ s.inflight = []
      ∧ s' = (s.saveCheckpoint io).go
          (if final then .draining false true else .publishing false) := by
  unfold settle at h
  split at h
  · rename_i final hphase hinflight
    cases h
    exact ⟨final, hphase, hinflight, rfl⟩
  · cases h

theorem writeWatermark_rows (s : State) (nowNs : Int) :
    (writeWatermark s nowNs).rows = s.rows
      ∨ s.watermark.publishedNs ≠ i64Min
        ∧ ∃ row : Row, row.watermarkNs = s.watermark.publishedNs
          ∧ (writeWatermark s nowNs).rows = s.rows ++ [row] := by
  unfold writeWatermark
  split
  · exact .inl rfl
  · rename_i h
    exact .inr ⟨h, _, rfl, rfl⟩

theorem saved_writeWatermark (s : State) (nowNs : Int) :
    (writeWatermark s nowNs).saved = s.saved := by
  unfold writeWatermark
  split <;> rfl

theorem publish_cases {due : Bool} {nowNs : Int} (h : publish s due nowNs = some s') :
    ∃ base, (base = s ∨ base = writeWatermark s nowNs) ∧ (s' = base.stop ∨ s' = base.go .passed) := by
  unfold publish at h
  split at h
  · cases h
    exact ⟨_, .inr rfl, .inl rfl⟩
  · cases h
    refine ⟨_, ?_, .inr rfl⟩
    cases due
    · exact .inl rfl
    · exact .inr rfl
  · cases h

theorem again_cases {shutdown : Bool} (h : again c s shutdown = some s') :
    s' = s.go .unframing ∨ s' = s.go (.draining false false) := by
  unfold again at h
  split at h
  · cases h
  split at h
  · cases h
    exact .inl rfl
  · cases h
    exact .inr rfl

/-! ## Events that move no line -/

/-- The events that hand out a line, or move one. -/
def Event.handles : Event → Bool
  | .finish .. | .land .. | .ship .. | .next .. | .expire .. | .submit | .reap .. | .unframe .. =>
      true
  | _ => false

/-- **The other events move no line.** -/
theorem step_quiet {e : Event} (h : step c s e = some s') (he : e.handles = false) :
    Quiet s s' := by
  unfold step at h
  split at h
  · cases h
  cases e with
  | files fs =>
      cases h
      exact (still_of s fs _ _ _ _ _ _).toQuiet
  | drained io =>
      obtain ⟨drained, final, -, -, rfl⟩ := drained_cases h
      refine Quiet.trans ?_ (still_leaveDrain _ final).toQuiet
      cases drained
      · exact .refl s
      · exact quiet_saveCheckpoint s io
  | time due =>
      rcases time_cases h with ⟨-, rfl⟩ | rfl
      · exact (still_go s _).toQuiet
      · exact (still_go s _).toQuiet
  | settle io =>
      obtain ⟨final, -, -, rfl⟩ := settle_cases h
      exact (quiet_saveCheckpoint s io).trans (still_go _ _).toQuiet
  | publish due nowNs =>
      obtain ⟨base, hbase, hs'⟩ := publish_cases h
      have hquiet : Quiet s base := by
        rcases hbase with rfl | rfl
        · exact .refl _
        · exact quiet_writeWatermark s nowNs
      rcases hs' with rfl | rfl
      · exact hquiet.trans (still_stop base).toQuiet
      · exact hquiet.trans (still_go base _).toQuiet
  | reload rules batchLines maxInflight =>
      dsimp only at h
      split at h
      · cases h
        exact (still_of s _ _ rules batchLines maxInflight _ _).toQuiet
      · cases h
  | again shutdown =>
      rcases again_cases h with rfl | rfl
      · exact (still_go s _).toQuiet
      · exact (still_go s _).toQuiet
  | die =>
      cases h
      exact (still_stop s).toQuiet
  | _ => cases he

end Tributary.FileSource
