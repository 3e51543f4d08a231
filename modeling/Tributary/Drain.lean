import Tributary.Queue.Store
import Tributary.Ship
import Tributary.Text

/-!
# The queue drains

Five loops empty a disk queue: the file tail's, the OTLP receiver's, the metrics
collector's, and one each for journald and the Windows event log. They differ in
how they cut a segment into lines and in what they do with the lines the server
rejected.
-/

namespace Tributary

open Queue Ship

/-- What a drain does with a segment that left rejected lines. -/
inductive PoisonRule where
  /-- record them in the dead-letter file and retire the segment -/
  | quarantine
  /-- retire the segment -/
  | discard
  /-- keep the segment and stop -/
  | keep
deriving DecidableEq, Repr

/-- A queue drain, over bodies `β` that are cut into lines `ℓ`. -/
structure Drainer (β ℓ : Type) where
  split : β → List ℓ
  size : β → Nat
  blank : ℓ → Bool
  poison : PoisonRule

/-- A drain of text segments. -/
def Drainer.ofText (split : Text → List Text) (poison : PoisonRule) : Drainer Text Text :=
  { split, size := Text.utf8Len, blank := List.isEmpty, poison }

/-- The file tail's `drain_queue`. -/
def drainQueue : Drainer Text Text := .ofText Text.splitInclusive .quarantine

/-- `otlp::drain`. -/
def Otlp.drain : Drainer Text Text := .ofText Text.splitInclusive .discard

/-- `metrics::drain`. -/
def Metrics.drain : Drainer Text Text := .ofText Text.splitInclusive .discard

/-- `journald::drain`. -/
def Journald.drain : Drainer Text Text := .ofText Text.lines .keep

/-- `winlog::drain`. -/
def Winlog.drain : Drainer Text Text := .ofText Text.lines .keep

/-- A queue with its directory and the dead-letter file. Lines are filed under
the segment they come from, although the file only holds their text; `acked`
and `popped` are what has happened so far. -/
structure Spool (β ℓ : Type) where
  queue : Queue
  dir : Dir β
  deadLetter : List (FileName × ℓ)
  acked : List (FileName × ℓ)
  popped : List FileName
deriving DecidableEq, Repr

namespace Drainer

variable {β ℓ : Type}

/-- A queue before its first pass. -/
def start (q : Queue) (dir : Dir β) : Spool β ℓ :=
  { queue := q, dir, deadLetter := [], acked := [], popped := [] }

/-- Retire the front segment and go on; a failing `pop` ends the pass. -/
def retire (d : Drainer β ℓ) (s : Spool β ℓ) (path : FileName) : Spool β ℓ × Bool :=
  match Queue.pop d.size s.queue s.dir path with
  | some (queue, dir) => ({ s with queue, dir, popped := s.popped ++ [path] }, true)
  | none => (s, false)

/-- One turn of the loop. The flag says whether the loop goes on. -/
def attempt (d : Drainer β ℓ) (s : Spool β ℓ) (sched : List (Answer ℓ)) :
    Spool β ℓ × Bool × List (Answer ℓ) :=
  match s.queue.front with
  | none => (s, false, sched)
  | some path =>
      match Queue.read s.dir path with
      | none => (s, false, sched)
      | some body =>
          let sent := sendLines d.blank sched [d.split body]
          let s := { s with acked := s.acked ++ sent.acked.map fun l => (path, l) }
          match sent.outcome with
          | .shipped poison =>
              match d.poison with
              | .quarantine =>
                  let s := { s with
                    deadLetter := s.deadLetter ++ poison.map fun l => (path, l) }
                  let (s, more) := d.retire s path
                  (s, more, sent.rest)
              | .discard =>
                  let (s, more) := d.retire s path
                  (s, more, sent.rest)
              | .keep =>
                  if poison.isEmpty then
                    let (s, more) := d.retire s path
                    (s, more, sent.rest)
                  else (s, false, sent.rest)
          | _ => (s, false, sent.rest)

/-- At most `n` turns. -/
def turns (d : Drainer β ℓ) : Nat → Spool β ℓ → List (Answer ℓ) → Spool β ℓ
  | 0, s, _ => s
  | n + 1, s, sched =>
      match d.attempt s sched with
      | (s, true, sched) => turns d n s sched
      | (s, false, _) => s

/-- One pass over the queue: a turn that goes on retires a segment, so there are
at most as many as segments. -/
def pass (d : Drainer β ℓ) (s : Spool β ℓ) (sched : List (Answer ℓ)) : Spool β ℓ :=
  d.turns s.queue.segments.length s sched

/-- One pass after another, each with the answers the server gives in it. -/
def passes (d : Drainer β ℓ) (s : Spool β ℓ) (scheds : List (List (Answer ℓ))) : Spool β ℓ :=
  scheds.foldl d.pass s

/-! ## One turn -/

/-- The lines of a segment; a blank one is no record. -/
def records (d : Drainer β ℓ) (body : β) : List ℓ := (d.split body).filter fun l => !d.blank l

variable {d : Drainer β ℓ} {s : Spool β ℓ} {live left : List (Nat × β)} {x : Nat × β}

/-- The state after the accepted requests of a call. -/
def noted (s : Spool β ℓ) (x : Nat × β) (acked : List ℓ) : Spool β ℓ :=
  { s with acked := s.acked ++ acked.map fun l => (name x, l) }

/-- The state after the front segment was retired. -/
def retired (d : Drainer β ℓ) (s : Spool β ℓ) (x : Nat × β) (poison : List ℓ) : Spool β ℓ :=
  { queue := s.queue.retire (d.size x.2)
    dir := s.dir.remove (name x)
    deadLetter :=
      if d.poison = .quarantine then s.deadLetter ++ poison.map fun l => (name x, l)
      else s.deadLetter
    acked := s.acked
    popped := s.popped ++ [name x] }

theorem attempt_nil (h : Stored d.size s.dir s.queue []) (sched : List (Answer ℓ)) :
    d.attempt s sched = (s, false, sched) := by
  simp only [attempt, h.front, List.head?_nil, Option.map_none]

/-- A turn retires the front segment, or notes what was accepted and stops. -/
theorem attempt_cons (h : Stored d.size s.dir s.queue (x :: left))
    (sched : List (Answer ℓ)) :
    (∃ poison, (sendLines d.blank sched [d.split x.2]).outcome = .shipped poison
        ∧ (d.poison = .keep → poison = [])
        ∧ d.attempt s sched
          = (d.retired (noted s x (sendLines d.blank sched [d.split x.2]).acked) x poison,
              true, (sendLines d.blank sched [d.split x.2]).rest))
      ∨ ((∀ poison, (sendLines d.blank sched [d.split x.2]).outcome = .shipped poison →
            d.poison = .keep ∧ poison ≠ [])
        ∧ d.attempt s sched
          = (noted s x (sendLines d.blank sched [d.split x.2]).acked,
              false, (sendLines d.blank sched [d.split x.2]).rest)) := by
  have hread := h.read (List.mem_cons_self ..)
  have hpop := h.pop_front.1
  have hpop' : ∀ t : Spool β ℓ, t.queue = s.queue → t.dir = s.dir →
      d.retire t (name x) = ({ t with
        queue := s.queue.retire (d.size x.2)
        dir := s.dir.remove (name x)
        popped := t.popped ++ [name x] }, true) := by
    intro t hq hd
    rw [retire, hq, hd, hpop]
  simp only [attempt, h.front, List.head?_cons, Option.map_some, hread]
  cases hout : (sendLines d.blank sched [d.split x.2]).outcome with
  | shipped poison =>
      cases hrule : d.poison with
      | quarantine =>
          refine .inl ⟨poison, rfl, by simp, ?_⟩
          simp only [hpop']
          simp [retired, noted, hrule]
      | discard =>
          refine .inl ⟨poison, rfl, by simp, ?_⟩
          simp only [hpop']
          simp [retired, noted, hrule]
      | keep =>
          cases poison with
          | nil =>
              refine .inl ⟨[], rfl, fun _ => rfl, ?_⟩
              simp only [List.isEmpty_nil, if_true, hpop']
              simp [retired, noted, hrule]
          | cons l poison =>
              refine .inr ⟨fun p hp => ?_, by simp [noted]⟩
              cases hp
              exact ⟨rfl, by simp⟩
  | failed e => exact .inr ⟨by simp, by simp [noted]⟩
  | pending => exact .inr ⟨by simp, by simp [noted]⟩

theorem mem_records {body : β} {l : ℓ} :
    l ∈ d.records body ↔ l ∈ d.split body ∧ d.blank l = false := by
  simp [records]

/-- What is noted for the front segment is filed under no other. -/
theorem mem_noted {acked : List ℓ} {y : Nat × β} {l : ℓ} :
    (name y, l) ∈ (noted s x acked).acked
      ↔ (name y, l) ∈ s.acked ∨ (y.1 = x.1 ∧ l ∈ acked) := by
  simp only [noted, List.mem_append, List.mem_map, Prod.mk.injEq]
  constructor
  · rintro (h | ⟨l', hl', hn, rfl⟩)
    · exact .inl h
    · exact .inr ⟨(segmentName_inj hn).symm, hl'⟩
  · rintro (h | ⟨hn, hl⟩)
    · exact .inl h
    · exact .inr ⟨l, hl, by rw [name, name, hn], rfl⟩

end Drainer

end Tributary
