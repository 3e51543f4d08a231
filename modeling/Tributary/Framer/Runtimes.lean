import Tributary.Framer.Streams

/-!
# Docker and CRI logs of the same events

The two runtimes write a chunk of a container's output differently: docker as a JSON
object whose `log` ends a line with its newline, CRI as text with a tag. The two
reassemblers, fed with the same chunks, stay in step.
-/

namespace Tributary.Runtimes

/-! ## Events -/

inductive Stream where
  | stdout
  | stderr
deriving DecidableEq, Repr

def Stream.text : Stream → Text
  | .stdout => "stdout".toList
  | .stderr => "stderr".toList

/-- A chunk a container writes. -/
structure Written where
  stream : Stream
  time : Text
  chunk : Text
  isFinal : Bool
deriving DecidableEq, Repr

/-- A time without spaces, and a chunk that is part of one line. -/
structure Written.Valid (e : Written) : Prop where
  time : e.time ≠ []
  spaces : ' ' ∉ e.time
  newlines : '\n' ∉ e.chunk

/-- The `log` of a docker line. -/
def Written.log (e : Written) : Text := e.chunk ++ if e.isFinal then ['\n'] else []

/-- A docker line of the event: a JSON object with its strings. -/
def Written.JsonFrame (libs : Libs) (e : Written) (line : Text) : Prop :=
  ∃ obj, libs.parseValue line = .ok (.object obj)
    ∧ BTree.get obj "log".toList = some (.string e.log)
    ∧ BTree.get obj "stream".toList = some (.string e.stream.text)
    ∧ BTree.get obj "time".toList = some (.string e.time)

def Written.tag (e : Written) : Text := if e.isFinal then ['F'] else ['P']

/-- The CRI line of the event. -/
def Written.criLine (e : Written) : Text :=
  e.time ++ ' ' :: (e.stream.text ++ ' ' :: (e.tag ++ ' ' :: e.chunk))

/-! ## What the lines say -/

theorem splitn_append {t : Text} (h : ' ' ∉ t) (n : Nat) (rest : Text) :
    Cri.splitn (n + 2) (t ++ ' ' :: rest) = t :: Cri.splitn (n + 1) rest := by
  have hall : ∀ c ∈ t, decide (c ≠ ' ') = true := fun c hc => by
    rw [decide_eq_true_eq]
    rintro rfl
    exact h hc
  rw [Cri.splitn, List.dropWhile_append_of_pos hall, List.takeWhile_append_of_pos hall,
    List.dropWhile_cons_of_neg (by simp), List.takeWhile_cons_of_neg (by simp), List.append_nil]

theorem criLine_frame {e : Written} (h : e.Valid) :
    Cri.frame e.criLine = .ok (e.time, e.stream.text, !e.isFinal, e.chunk) := by
  have hstream : ' ' ∉ e.stream.text := by cases e.stream <;> decide
  have htag : ' ' ∉ e.tag := by
    rw [Written.tag]
    split <;> decide
  have hsplit : Cri.splitn 4 e.criLine = [e.time, e.stream.text, e.tag, e.chunk] := by
    rw [Written.criLine, splitn_append h.spaces, splitn_append hstream, splitn_append htag,
      Cri.splitn]
  have hknown : ¬ (e.stream.text ≠ "stdout".toList ∧ e.stream.text ≠ "stderr".toList) := by
    rintro ⟨hout, herr⟩
    cases hs : e.stream with
    | stdout => exact hout (congrArg Stream.text hs)
    | stderr => exact herr (congrArg Stream.text hs)
  rw [Cri.frame, hsplit]
  cases htime : e.time with
  | nil => exact absurd htime h.time
  | cons c cs =>
      simp only [if_neg hknown, List.headD_cons]
      cases hfinal : e.isFinal <;> simp [Written.tag, hfinal]

theorem jsonFrame_frame {libs : Libs} {e : Written} {line : Text} (h : e.JsonFrame libs line) :
    Docker.frame libs line = .ok (e.log, e.stream.text, e.time) := by
  obtain ⟨obj, hparse, hlog, hstream, htime⟩ := h
  simp only [Docker.frame, hparse, Docker.field, hlog, hstream, htime]
  rfl

/-! ## The same chunk offered to both -/

variable {libs : Libs} {r r' : Reassembler}

/-- A reassembler but for the moments its messages began. -/
def timeless (r : Reassembler) : Reassembler :=
  { r with streams := r.streams.map fun e => (e.1, { e.2 with since := 0 }) }

theorem lookup_timeless (r : Reassembler) (k : Text) :
    (timeless r).lookup k = (r.lookup k).map fun p => { p with since := 0 } := by
  simp [Reassembler.lookup, timeless, List.find?_map, Function.comp_def]

theorem remove_timeless (r : Reassembler) (k : Text) :
    (timeless r).remove k = timeless (r.remove k) := by
  simp [Reassembler.remove, timeless, List.eraseP_map, Function.comp_def]

variable (libs) in
/-- A chunk does the same to a reassembler whatever the clock says. -/
theorem offer_timeless (r : Reassembler) (ids : List Nat) (stream time msg : Text)
    (closes strip : Bool) (now : Nat) :
    (r.offer libs ids stream time msg closes strip now).1
        = ((timeless r).offer libs ids stream time msg closes strip 0).1
      ∧ timeless (r.offer libs ids stream time msg closes strip now).2
        = ((timeless r).offer libs ids stream time msg closes strip 0).2 := by
  have hp : ((timeless r).lookup stream).getD { ids := [], log := [], time, since := 0 }
      = { (r.lookup stream).getD { ids := [], log := [], time, since := now } with since := 0 } := by
    rw [lookup_timeless]
    cases r.lookup stream <;> rfl
  simp only [Reassembler.offer, hp, remove_timeless]
  have hmax : (timeless (r.remove stream)).maxBytes = (r.remove stream).maxBytes := rfl
  rw [hmax]
  split
  · exact ⟨rfl, rfl⟩
  · refine ⟨rfl, ?_⟩
    simp [timeless]

/-- A docker chunk and the CRI chunk of the same event. -/
theorem offer_alike (r : Reassembler) (ids : List Nat) {e : Written} (h : '\n' ∉ e.chunk)
    (now : Nat) :
    r.offer libs ids e.stream.text e.time e.log (e.log.getLast? = some '\n') true now
      = r.offer libs ids e.stream.text e.time e.chunk e.isFinal false now := by
  cases hfinal : e.isFinal with
  | false =>
      have hlog : e.log = e.chunk := by simp [Written.log, hfinal]
      have hopen : decide (e.chunk.getLast? = some '\n') = false :=
        decide_eq_false fun hlast => h (List.mem_of_getLast? hlast)
      simp [Reassembler.offer, hlog, hopen]
  | true =>
      have hlog : e.log = e.chunk ++ ['\n'] := by simp [Written.log, hfinal]
      -- the newline is taken off again, and a message that closes is not counted as cut
      simp [Reassembler.offer, hlog, ← List.append_assoc]

/-! ## In step -/

/-- What a reassembler shows after a push. -/
structure Shown where
  answer : Except String (Option Chunk)
  hasPending : Bool
  truncated : Nat

/-- What a reassembler shows while lines are pushed, each at its moment. -/
def shown (push : Reassembler → Chunk → Nat → Except String (Option Chunk) × Reassembler) :
    Reassembler → List (Chunk × Nat) → List Shown
  | _, [] => []
  | r, (line, now) :: rest =>
      { answer := (push r line now).1, hasPending := (push r line now).2.hasPending,
        truncated := (push r line now).2.truncated } :: shown push (push r line now).2 rest

/-- An event, the docker line of it, and the moments the two reassemblers get it. -/
structure Logged where
  event : Written
  line : Text
  dockerNow : Nat
  criNow : Nat
deriving DecidableEq, Repr

/-- The docker lines, numbered. -/
def dockerLines (n : Nat) : List Logged → List (Chunk × Nat)
  | [] => []
  | e :: es => (⟨[n], e.line⟩, e.dockerNow) :: dockerLines (n + 1) es

/-- The CRI lines, numbered. -/
def criLines (n : Nat) : List Logged → List (Chunk × Nat)
  | [] => []
  | e :: es => (⟨[n], e.event.criLine⟩, e.criNow) :: criLines (n + 1) es

/-- **One event** has the same effect through either line. -/
theorem push_alike (h : timeless r = timeless r') {e : Written} (he : e.Valid) {line : Text}
    (hline : e.JsonFrame libs line) (ids : List Nat) (now now' : Nat) :
    (Docker.push libs r ⟨ids, line⟩ now).1 = (Cri.push libs r' ⟨ids, e.criLine⟩ now').1
      ∧ timeless (Docker.push libs r ⟨ids, line⟩ now).2
        = timeless (Cri.push libs r' ⟨ids, e.criLine⟩ now').2 := by
  have hdocker : Docker.push libs r ⟨ids, line⟩ now
      = (.ok (r.offer libs ids e.stream.text e.time e.chunk e.isFinal false now).1,
        (r.offer libs ids e.stream.text e.time e.chunk e.isFinal false now).2) := by
    have hpush := Runtime.push_eq libs .docker r ⟨ids, line⟩ now
    rw [Runtime.frame, jsonFrame_frame hline] at hpush
    rw [← offer_alike r ids he.newlines now]
    exact hpush
  have hcri : Cri.push libs r' ⟨ids, e.criLine⟩ now'
      = (.ok (r'.offer libs ids e.stream.text e.time e.chunk e.isFinal false now').1,
        (r'.offer libs ids e.stream.text e.time e.chunk e.isFinal false now').2) := by
    rw [Cri.push, criLine_frame he]
    simp only [Bool.not_not]
  obtain ⟨hout, hstate⟩ := offer_timeless libs r ids e.stream.text e.time e.chunk
    e.isFinal false now
  obtain ⟨hout', hstate'⟩ := offer_timeless libs r' ids e.stream.text e.time e.chunk
    e.isFinal false now'
  rw [hdocker, hcri]
  rw [h] at hout hstate
  exact ⟨congrArg Except.ok (hout.trans hout'.symm), hstate.trans hstate'.symm⟩

theorem shown_alike {es : List Logged} (h : timeless r = timeless r')
    (hes : ∀ e ∈ es, e.event.Valid ∧ e.event.JsonFrame libs e.line) (n : Nat) :
    shown (Docker.push libs) r (dockerLines n es) = shown (Cri.push libs) r' (criLines n es) := by
  induction es generalizing r r' n with
  | nil => rfl
  | cons e es ih =>
      obtain ⟨hvalid, hline⟩ := hes e (List.mem_cons_self ..)
      obtain ⟨hanswer, hafter⟩ := push_alike h hvalid hline [n] e.dockerNow e.criNow
      have htruncated := congrArg Reassembler.truncated hafter
      have hpending := congrArg Reassembler.hasPending hafter
      simp only [timeless, Reassembler.hasPending, List.isEmpty_map] at htruncated hpending
      simp only [shown, dockerLines, criLines, List.cons.injEq, Shown.mk.injEq]
      exact ⟨⟨hanswer, hpending, htruncated⟩,
        ih hafter (fun e he => hes e (List.mem_cons_of_mem _ he)) _⟩

/-- **The docker and CRI reassemblers are equivalent.** Fed with the same events, as JSON
frames and as text lines, they give the same envelope or none at every step, have the
same pending flag, and cut the same messages at the cap. -/
theorem runtimes_equivalent (libs : Libs) (maxBytes timeoutMs : Nat) (es : List Logged)
    (hes : ∀ e ∈ es, e.event.Valid ∧ e.event.JsonFrame libs e.line) :
    shown (Docker.push libs) (.new maxBytes timeoutMs) (dockerLines 0 es)
      = shown (Cri.push libs) (.new maxBytes timeoutMs) (criLines 0 es) :=
  shown_alike rfl hes 0

/-- A line in two chunks. -/
def split : List Logged :=
  [{ event := ⟨.stdout, ['t'], ['x'], false⟩
     line := "\x7b\"log\":\"x\",\"stream\":\"stdout\",\"time\":\"t\"\x7d".toList
     dockerNow := 0, criNow := 5 },
    { event := ⟨.stdout, ['u'], ['y'], true⟩
      line := "\x7b\"log\":\"y\\n\",\"stream\":\"stdout\",\"time\":\"u\"\x7d".toList
      dockerNow := 1, criNow := 7 }]

/-- The object of an event's docker line. -/
def Written.fields (e : Written) : List (Text × Json) :=
  [("log".toList, .string e.log), ("stream".toList, .string e.stream.text),
    ("time".toList, .string e.time)]

/-- The JSON library on the lines of `split`. -/
def splitLibs : Libs :=
  { Reassembler.stringLibs with
    parseValue := fun t =>
      match split.find? fun e => decide (e.line = t) with
      | some e => .ok (.object e.event.fields)
      | none => .error "expected value" }

theorem runtimes_equivalent_split :
    shown (Docker.push splitLibs) (.new 100 1000) (dockerLines 0 split)
      = shown (Cri.push splitLibs) (.new 100 1000) (criLines 0 split) := by
  refine runtimes_equivalent splitLibs 100 1000 split fun e he => ?_
  have hfind : split.find? (fun d => decide (d.line = e.line)) = some e := by
    revert e
    decide +kernel
  have hvalid : e.event.time ≠ [] ∧ ' ' ∉ e.event.time ∧ '\n' ∉ e.event.chunk := by
    revert e
    decide +kernel
  refine ⟨⟨hvalid.1, hvalid.2.1, hvalid.2.2⟩, e.event.fields, ?_, ?_, ?_, ?_⟩
  · simp only [splitLibs, hfind]
  · rfl
  · rfl
  · rfl

end Tributary.Runtimes
