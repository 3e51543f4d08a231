import Tributary.Framer
import Tributary.Lib.Buckets

/-!
# Container logs, stream by stream

A reassembler keeps one half-assembled message for each stream. It is a set of buckets:
a line puts its chunk into the bucket of its stream, a bucket is emptied when its
message closes or reaches the cap, and timeouts and drains take what is in it.
-/

namespace Tributary

open Lib

/-! ## Frames -/

inductive Runtime where
  | docker
  | cri
deriving DecidableEq, Repr

/-- What a line says: a chunk of a stream. -/
structure Frame where
  stream : Text
  time : Text
  text : Text
  closes : Bool
deriving DecidableEq, Repr

/-- The strings `log`, `stream` and `time` of a docker line. -/
def Docker.frame (libs : Libs) (line : Text) : Except String (Text × Text × Text) := do
  match libs.parseValue line with
  | .error e => .error s!"not a docker json-file line: {e}"
  | .ok (.object obj) => do
      let log ← Docker.field obj "log"
      let stream ← Docker.field obj "stream"
      let time ← Docker.field obj "time"
      .ok (log, stream, time)
  | .ok _ => .error "docker json-file line is not an object"

/-- What `Docker.push` does with the strings of its line. -/
def Docker.pushStrings (libs : Libs) (r : Reassembler) (line : Chunk) (now : Nat) :
    Except String (Text × Text × Text) → Except String (Option Chunk) × Reassembler
  | .error e => (.error e, r)
  | .ok (log, stream, time) =>
      let (out, r) := r.offer libs line.ids stream time log (log.getLast? = some '\n') true now
      (.ok out, r)

namespace Runtime

variable (libs : Libs)

def frame : Runtime → Text → Except String Frame
  | .docker, line => (Docker.frame libs line).map fun (log, stream, time) =>
      { stream, time, text := log, closes := log.getLast? = some '\n' }
  | .cri, line => (Cri.frame line).map fun (time, stream, isPartial, msg) =>
      { stream, time, text := msg, closes := !isPartial }

def push : Runtime → Reassembler → Chunk → Nat → Except String (Option Chunk) × Reassembler
  | .docker => Docker.push libs
  | .cri => Cri.push libs

/-- The runtime whose closing chunk ends with a newline. -/
def strips : Runtime → Bool
  | .docker => true
  | .cri => false

/-- A line offers its chunk, or leaves the reassembler as it is. -/
theorem push_eq (rt : Runtime) (r : Reassembler) (line : Chunk) (now : Nat) :
    rt.push libs r line now = match rt.frame libs line.text with
      | .error e => (.error e, r)
      | .ok f =>
          (.ok (r.offer libs line.ids f.stream f.time f.text f.closes rt.strips now).1,
            (r.offer libs line.ids f.stream f.time f.text f.closes rt.strips now).2) := by
  cases rt with
  | docker =>
      have hpush : Docker.push libs r line now
          = Docker.pushStrings libs r line now (Docker.frame libs line.text) := rfl
      rw [push, hpush, frame]
      cases Docker.frame libs line.text <;> rfl
  | cri =>
      rw [push, Cri.push, frame]
      cases Cri.frame line.text <;> rfl

/-- The chunk that closes a docker message, and no other, ends with a newline. -/
theorem frame_docker_closes {line : Text} {f : Frame} (h : docker.frame libs line = .ok f) :
    f.closes = decide (f.text.getLast? = some '\n') := by
  rw [frame] at h
  cases hf : Docker.frame libs line with
  | error e =>
      rw [hf] at h
      cases h
  | ok p =>
      rw [hf] at h
      cases h
      rfl

end Runtime

/-! ## Messages -/

/-- The text of the chunks of a message. -/
def Frame.raw (fs : List Frame) : Text := fs.flatMap Frame.text

/-- The message was closed by its last chunk. -/
def Frame.closed (fs : List Frame) : Bool := fs.getLast?.any Frame.closes

/-- A message is complete, or at the cap. -/
def Frame.full (maxBytes : Nat) (fs : List Frame) : Bool :=
  closed fs || decide (maxBytes ≤ (raw fs).utf8Len)

/-- The newline a docker message is closed with. -/
def Runtime.closing (rt : Runtime) (fs : List Frame) : Text :=
  if rt.strips && Frame.closed fs then ['\n'] else []

/-- The `log` of a message: its chunks without the closing newline. -/
def Runtime.log (rt : Runtime) (fs : List Frame) : Text :=
  if rt.strips && Frame.closed fs && (Frame.raw fs).getLast? = some '\n' then (Frame.raw fs).dropLast
  else Frame.raw fs

/-- The envelope of a message, with the time of its first chunk. -/
def Runtime.envelope (libs : Libs) (rt : Runtime) (stream : Text) (fs : List Frame) : Text :=
  (Reassembler.envelope libs stream
    { ids := [], log := rt.log fs, time := (fs.head?.map Frame.time).getD [], since := 0 }).text

/-- What is kept of the chunks of an open message. -/
def Frame.summary : List Frame → Option (Text × Text)
  | [] => none
  | f :: fs => some (raw (f :: fs), f.time)

/-! ## A reassembler as a set of buckets -/

namespace Reassembler

variable {libs : Libs} {rt : Runtime} {r : Reassembler} {held : Text → List Frame} {k j : Text}

/-- The reassembler keeps one message for a stream, and it is what the bucket holds. -/
structure Holds (r : Reassembler) (held : Text → List Frame) : Prop where
  nodup : (r.streams.map (·.1)).Nodup
  lookup : ∀ k, (r.lookup k).map (fun p => (p.log, p.time)) = Frame.summary (held k)
  isOpen : ∀ k, Frame.closed (held k) = false

theorem mem_keys_iff : k ∈ r.streams.map (·.1) ↔ (r.lookup k).isSome := by
  rw [Reassembler.lookup, Option.isSome_map, List.find?_isSome]
  simp

theorem remove_sublist (r : Reassembler) (k : Text) :
    ((r.remove k).streams.map (·.1)).Sublist (r.streams.map (·.1)) :=
  (List.eraseP_sublist ..).map _

theorem find?_eraseP {es : List (Text × Pending)} (h : (es.map (·.1)).Nodup) (k j : Text) :
    (es.eraseP fun e => decide (e.1 = k)).find? (fun e => decide (e.1 = j))
      = if j = k then none else es.find? fun e => decide (e.1 = j) := by
  induction es with
  | nil => simp
  | cons e es ih =>
      obtain ⟨hnot, hnodup⟩ := List.nodup_cons.mp h
      by_cases he : e.1 = k
      · rw [List.eraseP_cons_of_pos (by simpa using he)]
        split
        · rename_i hjk
          rw [hjk, List.find?_eq_none]
          intro d hd hdk
          exact hnot (List.mem_map.mpr ⟨d, hd, (of_decide_eq_true hdk).trans he.symm⟩)
        · rename_i hjk
          rw [List.find?_cons_of_neg]
          simpa [he] using Ne.symm hjk
      · rw [List.eraseP_cons_of_neg (by simpa using he)]
        by_cases hj : e.1 = j
        · rw [List.find?_cons_of_pos (by simpa using hj), List.find?_cons_of_pos (by simpa using hj),
            if_neg fun hjk => he (hj.trans hjk)]
        · rw [List.find?_cons_of_neg (by simpa using hj), List.find?_cons_of_neg (by simpa using hj),
            ih hnodup]

theorem lookup_remove (h : (r.streams.map (·.1)).Nodup) (k j : Text) :
    (r.remove k).lookup j = if j = k then none else r.lookup j := by
  rw [Reassembler.lookup, Reassembler.lookup, remove, find?_eraseP h]
  split <;> rfl

theorem lookup_concat (k j : Text) (p : Pending) :
    ({ r with streams := r.streams ++ [(k, p)] } : Reassembler).lookup j
      = (r.lookup j).or (if k = j then some p else none) := by
  rw [Reassembler.lookup, Reassembler.lookup, List.find?_append, List.find?_singleton,
    Option.map_or]
  by_cases h : k = j <;> simp [h]

/-- A reassembler whose message for `k` is gone. -/
theorem Holds.removed (h : Holds r held) (k : Text) :
    Holds (r.remove k) (Function.update held k []) where
  nodup := h.nodup.sublist (remove_sublist r k)
  lookup := by
    intro j
    rw [lookup_remove h.nodup]
    by_cases hj : j = k
    · rw [if_pos hj, hj, Function.update_self]
      rfl
    · rw [if_neg hj, Function.update_of_ne hj, h.lookup]
  isOpen := by
    intro j
    by_cases hj : j = k
    · rw [hj, Function.update_self]
      rfl
    · rw [Function.update_of_ne hj]
      exact h.isOpen j

/-- A reassembler whose message for `k` is `fs`. -/
theorem Holds.replaced (h : Holds r held) {fs : List Frame} {p : Pending}
    (hp : some (p.log, p.time) = Frame.summary fs) (hopen : Frame.closed fs = false) (k : Text) :
    Holds { r.remove k with streams := (r.remove k).streams ++ [(k, p)] }
      (Function.update held k fs) where
  nodup := by
    rw [List.map_append, List.nodup_append]
    refine ⟨h.nodup.sublist (remove_sublist r k), List.nodup_singleton _, ?_⟩
    rintro a ha b hb rfl
    rw [List.mem_singleton.mp hb, mem_keys_iff, lookup_remove h.nodup] at ha
    simp at ha
  lookup := by
    intro j
    have hconcat := lookup_concat (r := r.remove k) k j p
    by_cases hj : j = k
    · rw [lookup_remove h.nodup, if_pos hj, if_pos hj.symm] at hconcat
      rw [hconcat, hj, Function.update_self]
      exact hp
    · rw [lookup_remove h.nodup, if_neg hj, if_neg (Ne.symm hj), Option.or_none] at hconcat
      rw [hconcat, Function.update_of_ne hj, h.lookup]
  isOpen := by
    intro j
    by_cases hj : j = k
    · rw [hj, Function.update_self]
      exact hopen
    · rw [Function.update_of_ne hj]
      exact h.isOpen j

/-- What a bucket with one more chunk keeps. -/
theorem Holds.with_chunk (h : Holds r held) (f : Frame) (since : Nat) :
    let p := (r.lookup f.stream).getD { ids := [], log := [], time := f.time, since }
    some (p.log ++ f.text, p.time) = Frame.summary (held f.stream ++ [f]) := by
  intro p
  have hlookup := h.lookup f.stream
  cases hheld : held f.stream with
  | nil =>
      rw [hheld] at hlookup
      have hnone := Option.map_eq_none_iff.mp hlookup
      simp [p, hnone, Frame.summary, Frame.raw]
  | cons g gs =>
      rw [hheld] at hlookup
      obtain ⟨q, hq, hqe⟩ := Option.map_eq_some_iff.mp hlookup
      obtain ⟨hlog, htime⟩ := Prod.mk.inj hqe
      simp [p, hq, hlog, htime, Frame.summary, Frame.raw]

theorem summary_of_ne_nil {fs : List Frame} (h : fs ≠ []) :
    Frame.summary fs = some (Frame.raw fs, (fs.head?.map Frame.time).getD []) := by
  cases fs with
  | nil => exact absurd rfl h
  | cons f fs => rfl

theorem Holds.truncated (h : Holds r held) (n : Nat) : Holds { r with truncated := n } held :=
  ⟨h.nodup, h.lookup, h.isOpen⟩

/-- What comes out of a bucket goes out as one envelope. -/
def sent (libs : Libs) (rt : Runtime) (stream : Text) (fs : List Frame) : Option Text :=
  if fs = [] then none else some (rt.envelope libs stream fs)

variable (libs rt) in
/-- **A chunk goes into the bucket of its stream.** -/
theorem Holds.offer (h : Holds r held) (f : Frame) (ids : List Nat) (now : Nat) :
    Holds (r.offer libs ids f.stream f.time f.text f.closes rt.strips now).2
        (Buckets.step (Frame.full r.maxBytes) held (.put f.stream f)).2
      ∧ (r.offer libs ids f.stream f.time f.text f.closes rt.strips now).1.map Chunk.text
        = sent libs rt f.stream (Buckets.step (Frame.full r.maxBytes) held (.put f.stream f)).1
      ∧ (r.offer libs ids f.stream f.time f.text f.closes rt.strips now).2.maxBytes = r.maxBytes := by
  have hne : held f.stream ++ [f] ≠ [] := by simp
  have hclosed : Frame.closed (held f.stream ++ [f]) = f.closes := by simp [Frame.closed]
  have hchunk := h.with_chunk f now
  dsimp only at hchunk
  rw [summary_of_ne_nil hne] at hchunk
  obtain ⟨hlog, htime⟩ := Prod.mk.inj (Option.some.inj hchunk)
  have hfull : (f.closes || decide (r.maxBytes ≤ (Frame.raw (held f.stream ++ [f])).utf8Len))
      = Frame.full r.maxBytes (held f.stream ++ [f]) := by rw [Frame.full, hclosed]
  have hmax : (r.remove f.stream).maxBytes = r.maxBytes := rfl
  simp only [Reassembler.offer, Buckets.step, hlog, hmax, hfull]
  split
  · refine ⟨(h.removed f.stream).truncated _, ?_, rfl⟩
    rw [sent, if_neg hne, Runtime.envelope, Runtime.log, hclosed]
    simp only [Option.map_some, envelope, htime]
  · rename_i hopen
    refine ⟨h.replaced ?_ ?_ f.stream, rfl, rfl⟩
    · rw [summary_of_ne_nil hne]
      exact congrArg some (Prod.ext rfl htime)
    · rw [hclosed]
      rw [Frame.full, hclosed, Bool.or_eq_true, not_or] at hopen
      simpa using hopen.1

variable (libs rt) in
/-- **A timeout or a drain takes the bucket it finds.** -/
theorem Holds.emit (h : Holds r held) (k : Text) :
    Holds (r.emit libs k).2 (Buckets.step (Frame.full r.maxBytes) held (.take k)).2
      ∧ (r.emit libs k).1.map Chunk.text
        = sent libs rt k (Buckets.step (Frame.full r.maxBytes) held (.take k)).1
      ∧ (r.emit libs k).2.maxBytes = r.maxBytes := by
  have hlookup := h.lookup k
  rw [Reassembler.emit, Buckets.step]
  cases hp : r.lookup k with
  | none =>
      rw [hp] at hlookup
      have hnil : held k = [] := by
        cases hheld : held k with
        | nil => rfl
        | cons f fs =>
            rw [hheld] at hlookup
            cases hlookup
      refine ⟨?_, by simp [sent, hnil], rfl⟩
      show Holds r (Function.update held k [])
      rw [← hnil, Function.update_eq_self]
      exact h
  | some p =>
      rw [hp] at hlookup
      have hne : held k ≠ [] := by
        intro hnil
        rw [hnil] at hlookup
        cases hlookup
      rw [summary_of_ne_nil hne] at hlookup
      obtain ⟨hlog, htime⟩ := Prod.mk.inj (Option.some.inj hlookup)
      refine ⟨h.removed k, ?_, rfl⟩
      rw [sent, if_neg hne, Runtime.envelope, Runtime.log, h.isOpen k]
      simp [envelope, hlog, htime]

/-! ## Calls -/

inductive Call where
  | push (line : Chunk) (now : Nat)
  /-- the map lists its streams in some order -/
  | expire (now : Nat) (order : List Text)
  | drain (order : List Text)
deriving DecidableEq, Repr

variable (libs rt)

def call (r : Reassembler) : Call → Except String (Option Chunk) × Reassembler
  | .push line now => rt.push libs r line now
  | .expire now order => (.ok (r.expire libs now order).1, (r.expire libs now order).2)
  | .drain order => (.ok (r.drain libs order).1, (r.drain libs order).2)

/-- The envelope a call gives. -/
def given (r : Reassembler) (c : Call) : Option Text :=
  match (r.call libs rt c).1 with
  | .ok out => out.map Chunk.text
  | .error _ => none

/-- What a call does to the buckets. -/
def op (r : Reassembler) : Call → Option (Buckets.Op Text Frame)
  | .push line _ =>
      match rt.frame libs line.text with
      | .ok f => some (.put f.stream f)
      | .error _ => none
  | .expire now order =>
      ((r.iter order).find? fun e => decide (r.timeoutMs ≤ now - e.2.since)).map fun e =>
        .take e.1
  | .drain order => (r.iter order).head?.map fun e => .take e.1

/-- What calls do to the buckets, with the envelope each gives. -/
def trace (r : Reassembler) : List Call → List (Buckets.Op Text Frame × Option Text)
  | [] => []
  | c :: cs =>
      ((r.op libs rt c).map fun op => (op, r.given libs rt c)).toList
        ++ trace (r.call libs rt c).2 cs

/-- The reassembler after calls. -/
def after (r : Reassembler) (cs : List Call) : Reassembler :=
  cs.foldl (fun r c => (r.call libs rt c).2) r

/-- The envelopes calls give, in order. -/
def emitted (r : Reassembler) : List Call → List Text
  | [] => []
  | c :: cs => (r.given libs rt c).toList ++ emitted (r.call libs rt c).2 cs

/-- The chunk a call pushes for a stream. -/
def frame (k : Text) : Call → Option Frame
  | .push line _ =>
      match rt.frame libs line.text with
      | .ok f => if f.stream = k then some f else none
      | .error _ => none
  | .expire _ _ => none
  | .drain _ => none

/-- The chunks pushed for a stream. -/
def frames (k : Text) (cs : List Call) : List Frame := cs.filterMap (frame libs rt k)

variable {libs rt}

variable (libs rt) in
/-- **One call** is one operation on the buckets, or none. -/
theorem Holds.call (h : Holds r held) (c : Call) :
    (r.call libs rt c).2.maxBytes = r.maxBytes
      ∧ match r.op libs rt c with
        | none => (r.call libs rt c).2 = r ∧ r.given libs rt c = none
        | some op => Holds (r.call libs rt c).2 (Buckets.step (Frame.full r.maxBytes) held op).2
            ∧ r.given libs rt c
              = sent libs rt op.key (Buckets.step (Frame.full r.maxBytes) held op).1 := by
  cases c with
  | push line now =>
      rw [given, Reassembler.call, op, Runtime.push_eq]
      cases hf : rt.frame libs line.text with
      | error e => exact ⟨rfl, rfl, rfl⟩
      | ok f =>
          obtain ⟨hholds, hgiven, hmax⟩ := h.offer libs rt f line.ids now
          exact ⟨hmax, hholds, hgiven⟩
  | expire now order =>
      rw [given, Reassembler.call, op, expire]
      cases (r.iter order).find? fun e => decide (r.timeoutMs ≤ now - e.2.since) with
      | none => exact ⟨rfl, rfl, rfl⟩
      | some e =>
          obtain ⟨hholds, hgiven, hmax⟩ := h.emit libs rt e.1
          exact ⟨hmax, hholds, hgiven⟩
  | drain order =>
      rw [given, Reassembler.call, op, drain]
      cases (r.iter order).head? with
      | none => exact ⟨rfl, rfl, rfl⟩
      | some e =>
          obtain ⟨hholds, hgiven, hmax⟩ := h.emit libs rt e.1
          exact ⟨hmax, hholds, hgiven⟩

variable (libs rt) in
/-- What calls do to the buckets. -/
def ops (r : Reassembler) (cs : List Call) : List (Buckets.Op Text Frame) :=
  (r.trace libs rt cs).map (·.1)

variable (libs rt) in
/-- The operations on the bucket of a stream: its chunks, and the timeouts and drains that
take its message. -/
def own (k : Text) (r : Reassembler) (cs : List Call) : List (Buckets.Op Text Frame) :=
  (r.ops libs rt cs).filter fun op => decide (op.key = k)

variable (libs rt) in
/-- The envelope given, or none, at each push of a chunk of a stream. -/
def answers (k : Text) (r : Reassembler) (cs : List Call) : List (Option Text) :=
  ((r.trace libs rt cs).filter fun e => decide (e.1.key = k) && !e.1.items.isEmpty).map (·.2)

variable (libs rt) in
/-- **Calls are operations on the buckets.** -/
theorem Holds.trace (h : Holds r held) (cs : List Call) :
    r.trace libs rt cs
        = (Buckets.outs (Frame.full r.maxBytes) held (r.ops libs rt cs)).map
          (fun o => (o.1, sent libs rt o.1.key o.2))
      ∧ Holds (r.after libs rt cs)
        (Buckets.after (Frame.full r.maxBytes) held (r.ops libs rt cs)) := by
  induction cs generalizing r held with
  | nil => exact ⟨rfl, h⟩
  | cons c cs ih =>
      obtain ⟨hmax, hcall⟩ := h.call libs rt c
      rw [ops, Reassembler.trace, after, List.foldl_cons, ← after]
      cases hop : r.op libs rt c with
      | none =>
          rw [hop] at hcall
          rw [hcall.1]
          exact ih h
      | some op =>
          rw [hop] at hcall
          obtain ⟨htrace, hafter⟩ := ih hcall.1
          rw [hmax] at htrace hafter
          refine ⟨?_, hafter⟩
          simp only [Option.map_some, Option.toList_some, List.singleton_append, List.map_cons,
            Buckets.outs]
          rw [hcall.2]
          exact congrArg (_ :: ·) htrace

theorem items_op (r : Reassembler) (c : Call) (k : Text) :
    ((r.op libs rt c).toList.filter fun op => decide (op.key = k)).flatMap Buckets.Op.items
      = (frame libs rt k c).toList := by
  cases c with
  | push line now =>
      rw [op, frame]
      cases rt.frame libs line.text with
      | error e => rfl
      | ok f => by_cases hk : f.stream = k <;> simp [hk, Buckets.Op.key, Buckets.Op.items]
  | expire now order =>
      rw [op, frame]
      cases (r.iter order).find? fun e => decide (r.timeoutMs ≤ now - e.2.since) with
      | none => rfl
      | some e => by_cases hk : e.1 = k <;> simp [hk, Buckets.Op.key, Buckets.Op.items]
  | drain order =>
      rw [op, frame]
      cases (r.iter order).head? with
      | none => rfl
      | some e => by_cases hk : e.1 = k <;> simp [hk, Buckets.Op.key, Buckets.Op.items]

/-- The chunks pushed for a stream are those put into its bucket. -/
theorem items_own (r : Reassembler) (cs : List Call) (k : Text) :
    (own libs rt k r cs).flatMap Buckets.Op.items = frames libs rt k cs := by
  induction cs generalizing r with
  | nil => rfl
  | cons c cs ih =>
      have hops : r.ops libs rt (c :: cs)
          = (r.op libs rt c).toList ++ (r.call libs rt c).2.ops libs rt cs := by
        rw [ops, Reassembler.trace, List.map_append]
        cases r.op libs rt c <;> rfl
      have hrest := ih (r.call libs rt c).2
      rw [own] at hrest ⊢
      rw [hops, List.filter_append, List.flatMap_append, hrest, items_op, frames, frames]
      cases hf : frame libs rt k c with
      | none => rw [List.filterMap_cons_none hf]; rfl
      | some f => rw [List.filterMap_cons_some hf]; rfl

/-- A call that does nothing to the buckets gives nothing. -/
theorem Holds.emitted (h : Holds r held) (cs : List Call) :
    r.emitted libs rt cs = (r.trace libs rt cs).filterMap (·.2) := by
  induction cs generalizing r held with
  | nil => rfl
  | cons c cs ih =>
      obtain ⟨-, hcall⟩ := h.call libs rt c
      rw [Reassembler.emitted, Reassembler.trace, List.filterMap_append]
      cases hop : r.op libs rt c with
      | none =>
          rw [hop] at hcall
          rw [hcall.1, hcall.2, ih h]
          rfl
      | some op =>
          rw [hop] at hcall
          rw [ih hcall.1]
          cases r.given libs rt c <;> rfl

theorem holds_new (maxBytes timeoutMs : Nat) :
    Holds (new maxBytes timeoutMs) fun _ => [] where
  nodup := List.nodup_nil
  lookup := fun _ => rfl
  isOpen := fun _ => rfl

theorem Holds.hasPending_iff (h : Holds r held) : r.hasPending = true ↔ ∃ k, held k ≠ [] := by
  have hkey : ∀ k, (r.lookup k).isSome = true ↔ held k ≠ [] := by
    intro k
    have hlookup := congrArg Option.isSome (h.lookup k)
    rw [Option.isSome_map] at hlookup
    rw [hlookup]
    cases held k <;> simp [Frame.summary]
  simp only [← hkey, ← mem_keys_iff]
  rw [hasPending]
  cases r.streams with
  | nil => simp
  | cons e es => exact ⟨fun _ => ⟨e.1, List.mem_cons_self ..⟩, fun _ => rfl⟩

/-- A chunk of a docker line closes its message exactly if it ends with a newline. -/
theorem closes_of_mem_frames {cs : List Call} {f : Frame} (hstrips : rt.strips = true)
    (h : f ∈ frames libs rt k cs) : f.closes = decide (f.text.getLast? = some '\n') := by
  obtain ⟨c, -, hc⟩ := List.mem_filterMap.mp h
  cases c with
  | push line now =>
      rw [frame] at hc
      split at hc
      · rename_i g hg
        split at hc
        · cases hc
          cases rt with
          | docker => exact Runtime.frame_docker_closes libs hg
          | cri => cases hstrips
        · cases hc
      · cases hc
  | expire now order => cases hc
  | drain order => cases hc

/-- A message is its `log` and the newline that closed it. -/
theorem log_append_closing {fs : List Frame}
    (h : rt.strips = true → ∀ f ∈ fs, f.closes = decide (f.text.getLast? = some '\n')) :
    rt.log fs ++ rt.closing fs = Frame.raw fs := by
  rw [Runtime.log, Runtime.closing]
  cases hclosed : rt.strips && Frame.closed fs with
  | false => simp
  | true =>
      obtain ⟨hstrips, hlast⟩ := Bool.and_eq_true_iff.mp hclosed
      rw [Frame.closed, Option.any_eq_true] at hlast
      obtain ⟨f, hf, hcloses⟩ := hlast
      obtain ⟨init, rfl⟩ := List.getLast?_eq_some_iff.mp hf
      rw [h hstrips f (by simp), decide_eq_true_eq] at hcloses
      obtain ⟨t, ht⟩ := List.getLast?_eq_some_iff.mp hcloses
      have hraw : Frame.raw (init ++ [f]) = Frame.raw init ++ t ++ ['\n'] := by
        simp [Frame.raw, ht]
      rw [hraw]
      simp

/-- Refusing a line leaves the reassembler as it is. -/
theorem push_error {line : Chunk} {now : Nat} {e : String} {r' : Reassembler}
    (h : rt.push libs r line now = (.error e, r')) : r' = r := by
  rw [Runtime.push_eq] at h
  split at h <;> cases h
  rfl

/-- The messages whose envelopes calls give. -/
theorem emitted_eq (os : List (Buckets.Op Text Frame × List Frame)) :
    (os.map fun o => (o.1, sent libs rt o.1.key o.2)).filterMap (·.2)
      = (Buckets.emptied os).map fun m => rt.envelope libs m.1 m.2 := by
  rw [List.filterMap_map, Buckets.emptied, List.map_filterMap]
  refine List.filterMap_congr fun o _ => ?_
  cases ho : o.2 <;> simp [sent, ho]

/-- What the pushes of a stream give is read off the operations on its bucket. -/
theorem Holds.answers_eq (h : Holds r held) (cs : List Call) (k : Text) :
    answers libs rt k r cs
      = ((Buckets.outs (Frame.full r.maxBytes) held (own libs rt k r cs)).filter
          fun o => !o.1.items.isEmpty).map fun o => sent libs rt o.1.key o.2 := by
  rw [own, ← Buckets.outs_own rfl, answers, (h.trace libs rt cs).1]
  simp only [List.map_map, List.filter_map, List.filter_filter, Function.comp_def, Bool.and_comm]

/-- **A reassembler conserves every stream.** After any calls the envelopes given are
those of messages; the messages of a stream, and the chunks of the one that is open, are
the chunks pushed for it; something is pending exactly if a message is open; a line that
is refused changes nothing; and what the pushes of a stream give depends on its own
chunks, and on the timeouts and drains that took its messages. -/
theorem streams_conserved (libs : Libs) (rt : Runtime) (maxBytes timeoutMs : Nat)
    (cs : List Call) :
    let r := new maxBytes timeoutMs
    (∃ (msgs : List (Text × List Frame)) (rest : Text → List Frame),
      r.emitted libs rt cs = msgs.map (fun m => rt.envelope libs m.1 m.2)
        ∧ (∀ m ∈ msgs, m.2 ≠ [] ∧ rt.log m.2 ++ rt.closing m.2 = Frame.raw m.2)
        ∧ (∀ k, (msgs.filter fun m => decide (m.1 = k)).flatMap (·.2) ++ rest k
              = frames libs rt k cs
            ∧ ((r.after libs rt cs).lookup k).map (fun p => (p.log, p.time))
              = Frame.summary (rest k))
        ∧ ((r.after libs rt cs).hasPending = true ↔ ∃ k, rest k ≠ []))
      ∧ (∀ line now e r', rt.push libs (r.after libs rt cs) line now = (.error e, r') →
          r' = r.after libs rt cs)
      ∧ ∀ cs' k, own libs rt k r cs = own libs rt k r cs' →
          answers libs rt k r cs = answers libs rt k r cs' := by
  intro r
  have hnew : Holds r fun _ => [] := holds_new maxBytes timeoutMs
  obtain ⟨htrace, hafter⟩ := hnew.trace libs rt cs
  have hkeys : ∀ k, ((Buckets.emptied (Buckets.outs (Frame.full r.maxBytes) (fun _ => [])
        (r.ops libs rt cs))).filter fun m => decide (m.1 = k)).flatMap (·.2)
      ++ Buckets.after (Frame.full r.maxBytes) (fun _ => []) (r.ops libs rt cs) k
        = frames libs rt k cs := by
    intro k
    rw [Buckets.emptied_key, Buckets.outs_conserve, List.nil_append]
    exact items_own r cs k
  refine ⟨⟨Buckets.emptied (Buckets.outs (Frame.full r.maxBytes) (fun _ => [])
      (r.ops libs rt cs)), _, ?_, fun m hm => ⟨?_, log_append_closing fun hstrips f hf => ?_⟩,
      fun k => ⟨hkeys k, hafter.lookup k⟩, hafter.hasPending_iff⟩,
    fun _ _ _ _ h => push_error h, fun cs' k hown => ?_⟩
  · rw [hnew.emitted, htrace, emitted_eq]
  · obtain ⟨o, -, ho⟩ := List.mem_filterMap.mp hm
    split at ho
    · cases ho
    · rename_i hne
      cases ho
      simpa using hne
  · -- the chunks of a message were pushed for its stream
    have hpushed : f ∈ frames libs rt m.1 cs := by
      rw [← hkeys m.1]
      refine List.mem_append_left _ (List.mem_flatMap.mpr ⟨m, ?_, hf⟩)
      exact List.mem_filter.mpr ⟨hm, decide_eq_true rfl⟩
    exact closes_of_mem_frames hstrips hpushed
  · rw [hnew.answers_eq, hnew.answers_eq, hown]

/-! ## A drain between two chunks -/

/-- Libraries that print an object as its strings. -/
def stringLibs : Libs :=
  { display := fun _ => [], parseF64 := fun _ => none, floatOf := fun _ => ⟨0⟩
    render := fun j => match j with
      | .object es => es.flatMap fun e => match e.2 with
        | .string t => t
        | _ => []
      | _ => []
    parseJson := fun _ => .error "", parseValue := fun _ => .error ""
    intError := fun _ => "", parseRfc3339 := fun _ => .error "", decodeLossy := id
    isMatch := fun _ _ => false, replaceAll := fun _ _ t => t }

/-- A message of two chunks, and a drain between them. -/
def alone : List Call :=
  [.push ⟨[0], "t stdout P x".toList⟩ 0, .drain ["stderr".toList],
    .push ⟨[1], "t stdout F y".toList⟩ 0]

/-- The same, with an open message of the other stream. -/
def beside : List Call :=
  [.push ⟨[0], "t stdout P x".toList⟩ 0, .push ⟨[1], "t stderr P z".toList⟩ 0,
    .drain ["stderr".toList], .push ⟨[2], "t stdout F y".toList⟩ 0]

/-- A drain takes one message, whichever the map lists first: with the same chunks pushed
and the same drain, a push of one stream gives something else beside another stream. -/
theorem a_drain_takes_either_stream :
    frames stringLibs .cri "stdout".toList alone = frames stringLibs .cri "stdout".toList beside
      ∧ answers stringLibs .cri "stdout".toList (new 100 1000) alone
        ≠ answers stringLibs .cri "stdout".toList (new 100 1000) beside := by
  decide +kernel

/-- Without the drain the other stream makes no difference. -/
theorem streams_conserved_undrained :
    answers stringLibs .cri "stdout".toList (new 100 1000)
        [.push ⟨[0], "t stdout P x".toList⟩ 0, .push ⟨[1], "t stdout F y".toList⟩ 0]
      = answers stringLibs .cri "stdout".toList (new 100 1000)
        [.push ⟨[0], "t stdout P x".toList⟩ 0, .push ⟨[1], "t stderr P z".toList⟩ 0,
          .push ⟨[2], "t stdout F y".toList⟩ 0] :=
  (streams_conserved stringLibs .cri 100 1000 _).2.2 _ _ (by decide +kernel)

end Reassembler

end Tributary
