import Tributary.Map

/-!
# Framers

A record may span several source lines. The joiner puts continuation lines
behind the line that starts a record; the docker and CRI reassemblers put the
chunks of a split line back together. A text carries the numbers of the source
lines it was made of, which no function looks at: no framer loses one or invents
one.
-/

namespace Tributary

/-- A text, and the source lines it was made of. -/
structure Chunk where
  ids : List Nat
  text : Text
deriving DecidableEq, Repr

/-! ## Joining continuation lines -/

structure Joiner where
  /-- the pattern that starts a record; without one every line is a record -/
  start : Option Text
  maxLines : Nat
  maxBytes : Nat
  timeoutMs : Nat
  buf : List Chunk
  bytes : Nat
  since : Option Nat
  truncated : Nat
deriving DecidableEq, Repr

namespace Joiner

def new (start : Option Text) (maxLines maxBytes timeoutMs : Nat) : Joiner :=
  { start, maxLines := max maxLines 1, maxBytes := max maxBytes 1, timeoutMs, buf := [],
    bytes := 0, since := none, truncated := 0 }

def hasPending (j : Joiner) : Bool := !j.buf.isEmpty

/-- `buf.join("\n")`. -/
def joined (buf : List Chunk) : Chunk :=
  { ids := buf.flatMap Chunk.ids, text := ['\n'].intercalate (buf.map Chunk.text) }

def cleared (j : Joiner) : Joiner := { j with buf := [], bytes := 0, since := none }

def push (libs : Libs) (j : Joiner) (line : Chunk) (now : Nat) : Option Chunk × Joiner :=
  match j.start with
  | none => (some line, j)
  | some re =>
      let startsNew := libs.isMatch re line.text && !j.buf.isEmpty
      let done := if startsNew then some (joined j.buf) else none
      let j := if startsNew then j.cleared else j
      let j := { j with
        bytes := j.bytes + line.text.utf8Len + 1
        buf := j.buf ++ [line]
        since := some (j.since.getD now) }
      if j.maxLines ≤ j.buf.length ∨ j.maxBytes ≤ j.bytes then
        let forced := joined j.buf
        let j := { j.cleared with truncated := j.truncated + 1 }
        match done with
        | some d =>
            (some d, { j with
              buf := [forced], bytes := forced.text.utf8Len + 1, since := some now })
        | none => (some forced, j)
      else (done, j)

/-- The record of a quiet file, which has no successor to close it. -/
def expire (j : Joiner) (now : Nat) : Option Chunk × Joiner :=
  match j.since with
  | none => (none, j)
  | some since =>
      if j.buf ≠ [] ∧ j.timeoutMs ≤ now - since then (some (joined j.buf), j.cleared)
      else (none, j)

def drain (j : Joiner) : Option Chunk × Joiner :=
  if j.buf = [] then (none, j) else (some (joined j.buf), j.cleared)

end Joiner

/-! ## Putting split lines together -/

/-- A half-assembled message of one stream. -/
structure Pending where
  ids : List Nat
  log : Text
  /-- the first chunk's time -/
  time : Text
  since : Nat
deriving DecidableEq, Repr

/-- `docker::Reassembler` and `cri::Reassembler`. -/
structure Reassembler where
  maxBytes : Nat
  timeoutMs : Nat
  streams : List (Text × Pending)
  truncated : Nat
deriving DecidableEq, Repr

namespace Reassembler

def new (maxBytes timeoutMs : Nat) : Reassembler :=
  { maxBytes := max maxBytes 1, timeoutMs, streams := [], truncated := 0 }

def hasPending (r : Reassembler) : Bool := !r.streams.isEmpty

/-- The source lines the reassembler holds. -/
def ids (r : Reassembler) : List Nat := r.streams.flatMap fun e => e.2.ids

def lookup (r : Reassembler) (stream : Text) : Option Pending :=
  (r.streams.find? fun e => decide (e.1 = stream)).map (·.2)

def remove (r : Reassembler) (stream : Text) : Reassembler :=
  { r with streams := r.streams.eraseP fun e => decide (e.1 = stream) }

/-- `{"log", "stream", "time"}` as a JSON line. -/
def envelope (libs : Libs) (stream : Text) (p : Pending) : Chunk :=
  { ids := p.ids
    text := libs.render (.object [("log".toList, .string p.log),
      ("stream".toList, .string stream), ("time".toList, .string p.time)]) }

/-- One chunk of a stream. It closes its message if it says so or at the byte
cap; `strip` takes the closing newline off the message. -/
def offer (libs : Libs) (r : Reassembler) (ids : List Nat) (stream time msg : Text)
    (closes strip : Bool) (now : Nat) : Option Chunk × Reassembler :=
  let p := (r.lookup stream).getD { ids := [], log := [], time, since := now }
  let p := { p with log := p.log ++ msg, ids := p.ids ++ ids }
  let r := r.remove stream
  let atCap := decide (r.maxBytes ≤ p.log.utf8Len)
  if closes || atCap then
    let truncated := if atCap && !closes then r.truncated + 1 else r.truncated
    let log := if strip && closes && p.log.getLast? = some '\n' then p.log.dropLast else p.log
    (some (envelope libs stream { p with log }), { r with truncated })
  else (none, { r with streams := r.streams ++ [(stream, p)] })

/-- The streams as the hash map happens to list them: some in a given order
first. -/
def iter (r : Reassembler) (order : List Text) : List (Text × Pending) :=
  (order.filterMap fun k => (r.lookup k).map fun p => (k, p)) ++ r.streams

/-- Emit the message of a stream. -/
def emit (libs : Libs) (r : Reassembler) (key : Text) : Option Chunk × Reassembler :=
  match r.lookup key with
  | some p => (some (envelope libs key p), r.remove key)
  | none => (none, r)

/-- A message whose partial has sat past the timeout. -/
def expire (libs : Libs) (r : Reassembler) (now : Nat) (order : List Text) :
    Option Chunk × Reassembler :=
  match (r.iter order).find? fun e => decide (r.timeoutMs ≤ now - e.2.since) with
  | some e => r.emit libs e.1
  | none => (none, r)

def drain (libs : Libs) (r : Reassembler) (order : List Text) : Option Chunk × Reassembler :=
  match (r.iter order).head? with
  | some e => r.emit libs e.1
  | none => (none, r)

end Reassembler

/-- A string field of a docker line. -/
def Docker.field (obj : List (Text × Json)) (k : String) : Except String Text :=
  match BTree.get obj k.toList with
  | some (.string s) => .ok s
  | _ => .error s!"docker json-file line has no string `{k}`"

/-- `docker::Reassembler::push`: a JSON object whose `log` ends its line with a
newline. -/
def Docker.push (libs : Libs) (r : Reassembler) (line : Chunk) (now : Nat) :
    Except String (Option Chunk) × Reassembler :=
  let frame : Except String (Text × Text × Text) := do
    match libs.parseValue line.text with
    | .error e => .error s!"not a docker json-file line: {e}"
    | .ok (.object obj) => do
        let log ← Docker.field obj "log"
        let stream ← Docker.field obj "stream"
        let time ← Docker.field obj "time"
        .ok (log, stream, time)
    | .ok _ => .error "docker json-file line is not an object"
  match frame with
  | .error e => (.error e, r)
  | .ok (log, stream, time) =>
      let (out, r) := r.offer libs line.ids stream time log (log.getLast? = some '\n') true now
      (.ok out, r)

/-- `str::splitn(n, ' ')`. -/
def Cri.splitn : Nat → Text → List Text
  | 0, _ => []
  | 1, t => [t]
  | n + 2, t =>
      match t.dropWhile fun c => c ≠ ' ' with
      | [] => [t]
      | _ :: rest => (t.takeWhile fun c => c ≠ ' ') :: splitn (n + 1) rest

/-- The fields `time stream tag message` of a CRI line; says whether the chunk
is partial. -/
def Cri.frame (line : Text) : Except String (Text × Text × Bool × Text) :=
  match Cri.splitn 4 line with
  | [] | [] :: _ => .error "empty CRI line"
  | [_] => .error s!"CRI line has no stream field: {repr (String.ofList line)}"
  | [_, _] => .error s!"CRI line has no F/P tag: {repr (String.ofList line)}"
  | time :: stream :: tag :: msg =>
      if stream ≠ "stdout".toList ∧ stream ≠ "stderr".toList then
        .error s!"CRI stream is {repr (String.ofList stream)}, not stdout/stderr — not a CRI line"
      else if tag = ['P'] then .ok (time, stream, true, msg.headD [])
      else if tag = ['F'] then .ok (time, stream, false, msg.headD [])
      else .error s!"CRI tag is {repr (String.ofList tag)}, not P or F — not a CRI line"

/-- `cri::Reassembler::push`: a text line whose tag says whether it is the last;
its message has no newline to take off. -/
def Cri.push (libs : Libs) (r : Reassembler) (line : Chunk) (now : Nat) :
    Except String (Option Chunk) × Reassembler :=
  match Cri.frame line.text with
  | .error e => (.error e, r)
  | .ok (time, stream, isPartial, msg) =>
      let (out, r) := r.offer libs line.ids stream time msg (!isPartial) false now
      (.ok out, r)

/-! ## The framer of a source -/

inductive Framer where
  | multiline (j : Joiner)
  | docker (r : Reassembler)
  | cri (r : Reassembler)
deriving DecidableEq, Repr

namespace Framer

variable (libs : Libs)

/-- The framer a parser needs; a plain line goes through a joiner without a
pattern. -/
def ofParser (parser : Map.Parser) (joiner : Joiner) : Framer :=
  match parser with
  | .dockerJson => .docker (.new 1048576 1000)
  | .cri => .cri (.new 1048576 1000)
  | _ => .multiline joiner

def push (f : Framer) (line : Chunk) (now : Nat) : Except String (Option Chunk) × Framer :=
  match f with
  | .multiline j => let (out, j) := j.push libs line now; (.ok out, .multiline j)
  | .docker r => let (out, r) := Docker.push libs r line now; (out, .docker r)
  | .cri r => let (out, r) := Cri.push libs r line now; (out, .cri r)

def expire (f : Framer) (now : Nat) (order : List Text) : Option Chunk × Framer :=
  match f with
  | .multiline j => let (out, j) := j.expire now; (out, .multiline j)
  | .docker r => let (out, r) := r.expire libs now order; (out, .docker r)
  | .cri r => let (out, r) := r.expire libs now order; (out, .cri r)

def drain (f : Framer) (order : List Text) : Option Chunk × Framer :=
  match f with
  | .multiline j => let (out, j) := j.drain; (out, .multiline j)
  | .docker r => let (out, r) := r.drain libs order; (out, .docker r)
  | .cri r => let (out, r) := r.drain libs order; (out, .cri r)

def hasPending : Framer → Bool
  | .multiline j => j.hasPending
  | .docker r | .cri r => r.hasPending

/-- The source lines a framer holds. -/
def ids : Framer → List Nat
  | .multiline j => j.buf.flatMap Chunk.ids
  | .docker r | .cri r => r.ids

end Framer

/-! ## No framer loses a line -/

/-- `f'` and what came out hold the lines that `f` and what went in held. -/
def Conserves (before after : List Nat) (out : Option Chunk) : Prop :=
  ∀ i, i ∈ before ↔ i ∈ after ∨ ∃ c ∈ out, i ∈ c.ids

theorem Joiner.push_conserves (libs : Libs) (j : Joiner) (line : Chunk) (now : Nat) :
    Conserves (j.buf.flatMap Chunk.ids ++ line.ids)
      ((j.push libs line now).2.buf.flatMap Chunk.ids) (j.push libs line now).1 := by
  intro i
  rw [Joiner.push]
  split
  · simp
  · rename_i re _
    dsimp only
    by_cases hnew : (libs.isMatch re line.text && !j.buf.isEmpty) = true
    · -- the line starts a record: the one before it is done
      rw [if_pos hnew, if_pos hnew]
      split
      · simp [Joiner.joined, Joiner.cleared, or_comm]
      · simp [Joiner.joined, Joiner.cleared, or_comm]
    · rw [if_neg hnew, if_neg hnew]
      split
      · simp [Joiner.joined, Joiner.cleared]
      · simp

theorem Joiner.expire_conserves (j : Joiner) (now : Nat) :
    Conserves (j.buf.flatMap Chunk.ids) ((j.expire now).2.buf.flatMap Chunk.ids)
      (j.expire now).1 := by
  intro i
  rw [Joiner.expire]
  split
  · simp
  · split <;> simp [Joiner.joined, Joiner.cleared]

theorem Joiner.drain_conserves (j : Joiner) :
    Conserves (j.buf.flatMap Chunk.ids) (j.drain.2.buf.flatMap Chunk.ids) j.drain.1 := by
  intro i
  rw [Joiner.drain]
  split <;> simp [Joiner.joined, Joiner.cleared]

namespace Reassembler

variable {libs : Libs} {r : Reassembler} {stream : Text} {p : Pending}

/-- Taking a stream out takes its lines out. -/
theorem mem_ids_of_lookup (h : r.lookup stream = some p) (i : Nat) :
    i ∈ r.ids ↔ i ∈ p.ids ∨ i ∈ (r.remove stream).ids := by
  obtain ⟨e, he, rfl⟩ := Option.map_eq_some_iff.mp h
  obtain ⟨hkey, before, after, hsplit, hbefore⟩ := List.find?_eq_some_iff_append.mp he
  have hremove : (r.remove stream).streams = before ++ after := by
    rw [remove, hsplit, List.eraseP_append_right _ (by simpa using hbefore)]
    simp [List.eraseP_cons_of_pos, hkey]
  simp only [ids, hremove, hsplit, List.flatMap_append, List.flatMap_cons, List.mem_append]
  tauto

theorem remove_of_lookup (h : r.lookup stream = none) : r.remove stream = r := by
  rw [remove, List.eraseP_of_forall_not]
  simpa [lookup] using h

theorem offer_conserves (lineIds : List Nat) (time msg : Text) (closes strip : Bool) (now : Nat) :
    Conserves (r.ids ++ lineIds)
      (r.offer libs lineIds stream time msg closes strip now).2.ids
      (r.offer libs lineIds stream time msg closes strip now).1 := by
  intro i
  have hsplit : i ∈ r.ids
      ↔ i ∈ ((r.lookup stream).getD { ids := [], log := [], time, since := now }).ids
        ∨ i ∈ (r.remove stream).ids := by
    cases h : r.lookup stream with
    | some p => exact mem_ids_of_lookup h i
    | none => simp [remove_of_lookup h]
  rw [List.mem_append, hsplit]
  generalize hp : (r.lookup stream).getD { ids := [], log := [], time, since := now } = p
  dsimp only [offer]
  rw [hp]
  split
  · show _ ↔ i ∈ (r.remove stream).ids ∨ _
    simp only [Option.mem_some_iff, exists_eq_left', envelope, List.mem_append]
    tauto
  · have hids : i ∈ (r.remove stream).ids ∨ i ∈ p.ids ++ lineIds
        ↔ i ∈ { r.remove stream with streams := (r.remove stream).streams ++
          [(stream, { p with log := p.log ++ msg, ids := p.ids ++ lineIds })] }.ids := by
      simp [ids]
    rw [← hids, List.mem_append]
    simp only [Option.not_mem_none, false_and, exists_false, or_false]
    tauto

theorem emit_conserves (key : Text) :
    Conserves r.ids (r.emit libs key).2.ids (r.emit libs key).1 := by
  intro i
  rw [emit]
  split
  · rename_i p h
    rw [mem_ids_of_lookup h i]
    simp [envelope, or_comm]
  · simp

theorem expire_conserves (now : Nat) (order : List Text) :
    Conserves r.ids (r.expire libs now order).2.ids (r.expire libs now order).1 := by
  rw [expire]
  split
  · exact emit_conserves _
  · exact fun i => by simp

theorem drain_conserves (order : List Text) :
    Conserves r.ids (r.drain libs order).2.ids (r.drain libs order).1 := by
  rw [drain]
  split
  · exact emit_conserves _
  · exact fun i => by simp

/-- A drain that gives nothing found nothing. -/
theorem drain_none {order : List Text} (h : (r.drain libs order).1 = none) :
    r.hasPending = false := by
  by_contra hp
  have hne : r.streams ≠ [] := by
    rintro he
    simp [hasPending, he] at hp
  have hlookup : ∀ e ∈ r.iter order, (r.lookup e.1).isSome := by
    intro e he
    rcases List.mem_append.mp he with he | he
    · obtain ⟨k, -, hk⟩ := List.mem_filterMap.mp he
      obtain ⟨p, hp, rfl⟩ := Option.map_eq_some_iff.mp hk
      simp [hp]
    · simp only [lookup, Option.isSome_map, List.find?_isSome]
      exact ⟨e, he, by simp⟩
  rw [drain] at h
  split at h
  · rename_i e he
    obtain ⟨p, hp⟩ := Option.isSome_iff_exists.mp (hlookup e (List.mem_of_head? he))
    simp [emit, hp] at h
  · rename_i he
    simp [iter, List.head?_eq_none_iff, hne] at he

/-- Without a message there is none to emit. -/
theorem idle_of_not_pending {order : List Text} (h : r.hasPending = false) (now : Nat) :
    r.expire libs now order = (none, r) ∧ r.drain libs order = (none, r) := by
  have hstreams : r.streams = [] := by simpa [hasPending] using h
  have hiter : r.iter order = [] := by simp [iter, lookup, hstreams]
  simp [expire, drain, hiter]

end Reassembler

theorem Docker.push_conserves (libs : Libs) (r : Reassembler) (line : Chunk) (now : Nat)
    {out : Option Chunk} {r' : Reassembler} (h : Docker.push libs r line now = (.ok out, r')) :
    Conserves (r.ids ++ line.ids) r'.ids out := by
  unfold Docker.push at h
  dsimp only at h
  split at h
  · cases h
  · simp only [Prod.mk.injEq, Except.ok.injEq] at h
    obtain ⟨rfl, rfl⟩ := h
    exact Reassembler.offer_conserves _ _ _ _ _ _

theorem Cri.push_conserves (libs : Libs) (r : Reassembler) (line : Chunk) (now : Nat)
    {out : Option Chunk} {r' : Reassembler} (h : Cri.push libs r line now = (.ok out, r')) :
    Conserves (r.ids ++ line.ids) r'.ids out := by
  unfold Cri.push at h
  split at h
  · cases h
  · simp only [Prod.mk.injEq, Except.ok.injEq] at h
    obtain ⟨rfl, rfl⟩ := h
    exact Reassembler.offer_conserves _ _ _ _ _ _

namespace Framer

variable {libs : Libs} {f f' : Framer}

/-- **A line pushed is held or comes out**, and with it what was held. -/
theorem push_ok {line : Chunk} {now : Nat} {out : Option Chunk}
    (h : f.push libs line now = (.ok out, f')) : Conserves (f.ids ++ line.ids) f'.ids out := by
  cases f with
  | multiline j =>
      cases h
      exact j.push_conserves libs line now
  | docker r =>
      simp only [push, Prod.mk.injEq] at h
      obtain ⟨hout, rfl⟩ := h
      exact Docker.push_conserves libs r line now (Prod.ext hout rfl)
  | cri r =>
      simp only [push, Prod.mk.injEq] at h
      obtain ⟨hout, rfl⟩ := h
      exact Cri.push_conserves libs r line now (Prod.ext hout rfl)

/-- A line refused leaves the framer as it was. -/
theorem push_error {line : Chunk} {now : Nat} {e : String}
    (h : f.push libs line now = (.error e, f')) : f' = f := by
  cases f with
  | multiline j => cases h
  | docker r =>
      simp only [push, Docker.push, Prod.mk.injEq] at h
      obtain ⟨hout, rfl⟩ := h
      split at hout
      · rfl
      · cases hout
  | cri r =>
      simp only [push, Cri.push, Prod.mk.injEq] at h
      obtain ⟨hout, rfl⟩ := h
      split at hout
      · rfl
      · cases hout

theorem expire_conserves (now : Nat) (order : List Text) :
    Conserves f.ids (f.expire libs now order).2.ids (f.expire libs now order).1 := by
  cases f with
  | multiline j => exact j.expire_conserves now
  | docker r => exact Reassembler.expire_conserves now order
  | cri r => exact Reassembler.expire_conserves now order

theorem drain_conserves (order : List Text) :
    Conserves f.ids (f.drain libs order).2.ids (f.drain libs order).1 := by
  cases f with
  | multiline j => exact j.drain_conserves
  | docker r => exact Reassembler.drain_conserves order
  | cri r => exact Reassembler.drain_conserves order

/-- A framer with nothing pending holds no line. -/
theorem ids_of_not_pending (h : f.hasPending = false) : f.ids = [] := by
  cases f with
  | multiline j =>
      have hbuf : j.buf = [] := by simpa [hasPending, Joiner.hasPending] using h
      simp [ids, hbuf]
  | docker r | cri r =>
      have hstreams : r.streams = [] := by simpa [hasPending, Reassembler.hasPending] using h
      simp [ids, Reassembler.ids, hstreams]

theorem drain_none {order : List Text} (h : (f.drain libs order).1 = none) :
    f.hasPending = false := by
  cases f with
  | multiline j =>
      simp only [drain, Joiner.drain] at h
      split at h
      · rename_i hbuf
        simp [hasPending, Joiner.hasPending, hbuf]
      · cases h
  | docker r | cri r => exact Reassembler.drain_none h

/-- A framer with nothing pending gives nothing and stays as it is. -/
theorem idle_of_not_pending (h : f.hasPending = false) (now : Nat) (order : List Text) :
    f.expire libs now order = (none, f) ∧ f.drain libs order = (none, f) := by
  cases f with
  | multiline j =>
      have hbuf : j.buf = [] := by simpa [hasPending, Joiner.hasPending] using h
      refine ⟨?_, by simp [drain, Joiner.drain, hbuf]⟩
      simp only [expire, Joiner.expire]
      cases j.since with
      | none => rfl
      | some since => simp [hbuf]
  | docker r | cri r =>
      obtain ⟨hexpire, hdrain⟩ := @Reassembler.idle_of_not_pending libs r order h now
      exact ⟨by simp [expire, hexpire], by simp [drain, hdrain]⟩

end Framer

end Tributary
