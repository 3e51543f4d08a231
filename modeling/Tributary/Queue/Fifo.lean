import Tributary.Lib.Run
import Tributary.Queue.Store

/-!
# The queue is a durable first-in first-out buffer

A host opens a queue over a directory, calls it, and is killed at any moment:
between calls, or inside a spool, a pop or the sweep of an open. The abstract
buffer gains a body when a spool completes and loses its head when a segment is
removed; nothing else changes it, a restart least of all. Every history keeps
segments, directory and buffer in step.
-/

namespace Tributary.Queue

open Lib

/-! ## Histories -/

/-- One call of the host, or its end. -/
inductive Call (β : Type) where
  | «open» (maxBytes : Nat)
  /-- killed in the sweep, after these files were removed -/
  | openKilled (swept : List FileName)
  | kill
  | push (body : β) (io : Io)
  | pushForced (body : β) (io : Io)
  | spoolKilled (body : β) (at_ : KillPoint)
  | pop
  | popKilled (removed : Bool)
deriving DecidableEq, Repr

/-- The directory, the queue if the host runs one, and what the buffer should
hold. -/
structure Host (β : Type) where
  dir : Dir β
  queue : Option Queue
  /-- the bodies accepted and not yet popped, oldest first -/
  fifo : List β
  /-- a spool was killed and the directory not opened since -/
  torn : Bool
deriving DecidableEq, Repr

variable {β : Type} (size : β → Nat)

namespace Host

/-- An empty directory and no queue. -/
def empty : Host β := { dir := [], queue := none, fifo := [], torn := false }

/-- The buffer after an answer to a push. -/
def offered (fifo : List β) (body : β) : Except IoError Bool → List β
  | .ok true => fifo ++ [body]
  | _ => fifo

def step (s : Host β) : Call β → Option (Host β)
  | .open maxBytes =>
      match s.queue with
      | some _ => none
      | none =>
          let (dir, q) := Queue.open size s.dir maxBytes
          some { dir, queue := some q, fifo := s.fifo, torn := false }
  | .openKilled swept =>
      match s.queue with
      | some _ => none
      | none => some { s with dir := partlySwept s.dir swept }
  | .kill => s.queue.map fun _ => { s with queue := none }
  | .push body io =>
      s.queue.map fun q =>
        let (answer, q, dir) := Queue.push size q s.dir body io
        { s with dir, queue := some q, fifo := offered s.fifo body answer }
  | .pushForced body io =>
      s.queue.map fun q =>
        let (answer, q, dir) := Queue.pushForced size q s.dir body io
        { s with dir, queue := some q, fifo := offered s.fifo body answer }
  | .spoolKilled body at_ =>
      s.queue.map fun q =>
        { dir := tornDir q s.dir body at_
          queue := none
          fifo := if at_ = .renamed then s.fifo ++ [body] else s.fifo
          torn := true }
  | .pop =>
      s.queue.bind fun q => q.front.bind fun p =>
        (Queue.pop size q s.dir p).map fun (q, dir) =>
          { s with dir, queue := some q, fifo := s.fifo.tail }
  | .popKilled removed =>
      s.queue.bind fun q => q.front.map fun p =>
        if removed then { s with dir := s.dir.remove p, queue := none, fifo := s.fifo.tail }
        else { s with queue := none }

/-- The sequence number a call could use still has twelve digits. -/
def Sequenced (s : Host β) (_ : Call β) : Prop :=
  ∀ q ∈ s.queue, q.nextSeq < 10 ^ 12

instance : DecidableRel (Sequenced (β := β)) := fun s _ =>
  inferInstanceAs (Decidable (∀ q ∈ s.queue, q.nextSeq < 10 ^ 12))

/-! ## The refinement relation -/

/-- The host's directory and queue stand for the numbered bodies `live`, and
these are the buffer. -/
structure Represents (s : Host β) (live : List (Nat × β)) : Prop
    extends Backs size s.dir s.queue live where
  fifo : live.map (·.2) = s.fifo
  torn : ∀ e ∈ s.dir, e.1.ext = tmp → s.torn = true

variable {size} {s : Host β} {live : List (Nat × β)}

theorem Represents.empty : Represents size (Host.empty : Host β) [] where
  narrow := by simp [Narrow]
  disk := ⟨List.Perm.nil, List.Pairwise.nil⟩
  own := by simp [Host.empty]
  running := by simp [Host.empty]
  fifo := rfl
  torn := by simp [Host.empty]

/-- A host whose queue is running is described by `Stored`. -/
theorem Represents.of_stored {dir : Dir β} {q : Queue} {fifo : List β} {torn : Bool}
    (h : Stored size dir q live) (hn : Narrow live) (hf : live.map (·.2) = fifo) :
    Represents size { dir, queue := some q, fifo, torn } live where
  toBacks := .of_stored h hn
  fifo := hf
  torn := fun e he ht => absurd ((h.clean e he).symm.trans ht) lp_ne_tmp

/-- Killing the host changes neither the directory nor the buffer. -/
theorem Represents.killed (h : Represents size s live) :
    Represents size { s with queue := none } live where
  toBacks := h.toBacks.killed
  fifo := h.fifo
  torn := h.torn

theorem Represents.opened (h : Represents size s live) (maxBytes : Nat) :
    Represents size
      { dir := (Queue.open size s.dir maxBytes).1
        queue := some (Queue.open size s.dir maxBytes).2
        fifo := s.fifo
        torn := false } live :=
  .of_stored (h.disk.opened h.narrow h.own maxBytes) h.narrow h.fifo

theorem Represents.openKilled (h : Represents size s live) (swept : List FileName) :
    Represents size { s with dir := partlySwept s.dir swept, queue := none } live where
  toBacks := h.toBacks.partlySwept swept
  fifo := h.fifo
  torn := fun e he => h.torn e (List.mem_filter.mp he).1

/-- A killed spool leaves a temporary file, or the finished segment. -/
theorem Represents.spoolKilled (h : Represents size s live) {q : Queue}
    (hq : s.queue = some q) (hseq : q.nextSeq < 10 ^ 12) (body : β) (at_ : KillPoint) :
    ∃ live', Represents size
      { dir := tornDir q s.dir body at_
        queue := none
        fifo := if at_ = .renamed then s.fifo ++ [body] else s.fifo
        torn := true } live' := by
  refine ⟨_, (h.running q hq).torn h.narrow hseq body at_, ?_, fun _ _ _ => rfl⟩
  by_cases hat : at_ = .renamed
  · rw [if_pos hat, if_pos hat, List.map_append, h.fifo]
    rfl
  · rw [if_neg hat, if_neg hat, h.fifo]

theorem Represents.push (h : Represents size s live) {q : Queue}
    (hq : s.queue = some q) (hseq : q.nextSeq < 10 ^ 12) (body : β) (io : Io) :
    ∃ live', Represents size
      { s with
        dir := (Queue.push size q s.dir body io).2.2
        queue := some (Queue.push size q s.dir body io).2.1
        fifo := offered s.fifo body (Queue.push size q s.dir body io).1 } live' := by
  have hst := h.running q hq
  rcases hst.push_cases body io with ⟨-, he⟩ | ⟨-, -, he⟩ | ⟨at_, e, -, -, he⟩
    | ⟨at_, e, -, -, he⟩ <;>
    rw [he]
  · exact ⟨live, .of_stored (hst.setFull true) h.narrow h.fifo⟩
  · exact ⟨_, .of_stored (hst.spooled body) (h.narrow.snoc hseq body)
      (by rw [List.map_append, h.fifo]; rfl)⟩
  · exact ⟨live, .of_stored (hst.setFull true) h.narrow h.fifo⟩
  · exact ⟨live, .of_stored hst h.narrow h.fifo⟩

theorem Represents.pushForced (h : Represents size s live) {q : Queue}
    (hq : s.queue = some q) (hseq : q.nextSeq < 10 ^ 12) (body : β) (io : Io) :
    ∃ live', Represents size
      { s with
        dir := (Queue.pushForced size q s.dir body io).2.2
        queue := some (Queue.pushForced size q s.dir body io).2.1
        fifo := offered s.fifo body (Queue.pushForced size q s.dir body io).1 } live' := by
  have hst := h.running q hq
  rcases hst.pushForced_cases body io with ⟨-, he⟩ | ⟨at_, e, -, -, he⟩ | ⟨at_, e, -, -, he⟩ <;>
    rw [he]
  · exact ⟨_, .of_stored ((hst.spooled body).setFull true) (h.narrow.snoc hseq body)
      (by rw [List.map_append, h.fifo]; rfl)⟩
  · exact ⟨live, .of_stored (hst.setFull true) h.narrow h.fifo⟩
  · exact ⟨live, .of_stored hst h.narrow h.fifo⟩

/-- The front segment is the head of the buffer, and leaves with it. -/
theorem Represents.front (h : Represents size s live) {q : Queue} {p : FileName}
    (hq : s.queue = some q) (hp : q.front = some p) :
    ∃ x rest, live = x :: rest ∧ p = name x := by
  rw [(h.running q hq).front] at hp
  cases live with
  | nil => simp at hp
  | cons x rest => exact ⟨x, rest, rfl, (Option.some.inj hp).symm⟩

/-- **One call keeps host and buffer in step.** -/
theorem Represents.step {c : Call β} {t : Host β} (h : Represents size s live)
    (hok : Sequenced s c) (hs : step size s c = some t) :
    ∃ live', Represents size t live' := by
  cases c with
  | «open» maxBytes =>
      rw [Host.step] at hs
      split at hs
      · cases hs
      · cases hs
        exact ⟨live, h.opened maxBytes⟩
  | openKilled swept =>
      rw [Host.step] at hs
      split at hs
      · cases hs
      · rename_i hq
        cases hs
        exact ⟨live, by simpa [hq] using h.openKilled swept⟩
  | kill =>
      obtain ⟨q, -, rfl⟩ := Option.map_eq_some_iff.mp hs
      exact ⟨live, h.killed⟩
  | push body io =>
      obtain ⟨q, hq, rfl⟩ := Option.map_eq_some_iff.mp hs
      exact h.push hq (hok q hq) body io
  | pushForced body io =>
      obtain ⟨q, hq, rfl⟩ := Option.map_eq_some_iff.mp hs
      exact h.pushForced hq (hok q hq) body io
  | spoolKilled body at_ =>
      obtain ⟨q, hq, rfl⟩ := Option.map_eq_some_iff.mp hs
      exact h.spoolKilled hq (hok q hq) body at_
  | pop =>
      obtain ⟨q, hq, hs⟩ := Option.bind_eq_some_iff.mp hs
      obtain ⟨p, hp, hs⟩ := Option.bind_eq_some_iff.mp hs
      obtain ⟨x, rest, rfl, rfl⟩ := h.front hq hp
      obtain ⟨hpop, hst⟩ := (h.running q hq).pop_front
      rw [hpop] at hs
      cases hs
      exact ⟨rest, .of_stored hst (fun y hy => h.narrow y (List.mem_cons_of_mem _ hy))
        (by rw [← h.fifo]; rfl)⟩
  | popKilled removed =>
      obtain ⟨q, hq, hs⟩ := Option.bind_eq_some_iff.mp hs
      obtain ⟨p, hp, rfl⟩ := Option.map_eq_some_iff.mp hs
      cases removed with
      | false => exact ⟨live, h.killed⟩
      | true =>
          obtain ⟨x, rest, rfl, rfl⟩ := h.front hq hp
          have hst := (h.running q hq).pop_front.2
          have hafter : Represents size { s with
              dir := s.dir.remove (name x), queue := some _, fifo := s.fifo.tail } rest :=
            .of_stored hst (fun y hy => h.narrow y (List.mem_cons_of_mem _ hy))
              (by rw [← h.fifo]; rfl)
          exact ⟨rest, hafter.killed⟩

/-! ## The law -/

/-- What a caller of the queue may rely on in a given state of the host. -/
structure Durable (size : β → Nat) (s : Host β) : Prop where
  /-- the segments read in order are the accepted and not yet popped bodies -/
  contents : ∀ q, s.queue = some q → q.segments.map (read s.dir) = s.fifo.map some
  bytes : ∀ q, s.queue = some q → q.bytes = (s.fifo.map size).sum
  /-- a refusal changes nothing but the pause flag -/
  refused : ∀ q, s.queue = some q → ∀ body io,
    ∀ r ∈ [push size q s.dir body io, pushForced size q s.dir body io], r.1 = .ok false →
      r.2.1.segments = q.segments ∧ r.2.1.bytes = q.bytes ∧ r.2.1.nextSeq = q.nextSeq
        ∧ r.2.2.withExt lp = s.dir.withExt lp
  /-- temporary files come from a kill inside a spool only -/
  litter : (∃ e ∈ s.dir, e.1.ext = tmp) → s.queue = none ∧ s.torn = true
  /-- opening removes them and adopts every completed segment -/
  adopts : s.queue = none → ∀ maxBytes,
    (∀ e ∈ (Queue.open size s.dir maxBytes).1, e.1.ext ≠ tmp)
      ∧ (∀ p, p ∈ (Queue.open size s.dir maxBytes).2.segments
          ↔ p.ext = lp ∧ ∃ c, (p, c) ∈ s.dir)
      ∧ (Queue.open size s.dir maxBytes).2.segments.map
          (read (Queue.open size s.dir maxBytes).1) = s.fifo.map some
  /-- the next name is not that of a live segment -/
  fresh : ∀ q, s.queue = some q →
    segmentName q.nextSeq ∉ q.segments ∧ s.dir.get (segmentName q.nextSeq) = none

theorem Represents.refused (h : Represents size s live) {q : Queue} (hq : s.queue = some q)
    (body : β) (io : Io) :
    ∀ r ∈ [Queue.push size q s.dir body io, Queue.pushForced size q s.dir body io],
      r.1 = .ok false →
      r.2.1.segments = q.segments ∧ r.2.1.bytes = q.bytes ∧ r.2.1.nextSeq = q.nextSeq
        ∧ r.2.2.withExt lp = s.dir.withExt lp := by
  have hst := h.running q hq
  intro r hr hfalse
  simp only [List.mem_cons, List.not_mem_nil, or_false] at hr
  rcases hr with rfl | rfl
  · rcases hst.push_cases body io with ⟨-, he⟩ | ⟨-, -, he⟩ | ⟨at_, e, -, -, he⟩
      | ⟨at_, e, -, -, he⟩ <;>
      rw [he] at hfalse ⊢
    · exact ⟨rfl, rfl, rfl, rfl⟩
    · cases hfalse
    · exact ⟨rfl, rfl, rfl, rfl⟩
    · cases hfalse
  · rcases hst.pushForced_cases body io with ⟨-, he⟩ | ⟨at_, e, -, -, he⟩ | ⟨at_, e, -, -, he⟩ <;>
      rw [he] at hfalse ⊢
    · cases hfalse
    · exact ⟨rfl, rfl, rfl, rfl⟩
    · cases hfalse

theorem Represents.durable (h : Represents size s live) : Durable size s where
  contents := fun q hq => by rw [(h.running q hq).contents, h.fifo]
  bytes := fun q hq => by rw [(h.running q hq).bytes, ← h.fifo, List.map_map]; rfl
  refused := fun _ hq body io => h.refused hq body io
  litter := by
    rintro ⟨e, he, ht⟩
    refine ⟨?_, h.torn e he ht⟩
    cases hq : s.queue with
    | none => rfl
    | some q => exact absurd (((h.running q hq).clean e he).symm.trans ht) lp_ne_tmp
  adopts := by
    intro _ maxBytes
    have hst : Stored size _ _ _ := h.disk.opened h.narrow h.own maxBytes
    refine ⟨fun e he ht => lp_ne_tmp ((hst.clean e he).symm.trans ht), fun p => ?_, ?_⟩
    · rw [hst.segments]
      constructor
      · intro hp
        obtain ⟨x, hx, rfl⟩ := List.mem_map.mp hp
        have hm := h.disk.files.mem_iff.mpr (List.mem_map.mpr ⟨x, hx, rfl⟩)
        exact ⟨rfl, _, (List.mem_filter.mp hm).1⟩
      · rintro ⟨hext, c, hc⟩
        have hm : (p, c) ∈ s.dir.withExt lp := List.mem_filter.mpr ⟨hc, decide_eq_true hext⟩
        obtain ⟨x, hx, hxe⟩ := List.mem_map.mp (h.disk.files.mem_iff.mp hm)
        exact List.mem_map.mpr ⟨x, hx, congrArg Prod.fst hxe⟩
    · rw [hst.contents, h.fifo]
  fresh := by
    intro q hq
    have hst := h.running q hq
    refine ⟨?_, ?_⟩
    · rw [hst.segments]
      intro hm
      obtain ⟨x, hx, he⟩ := List.mem_map.mp hm
      have := hst.below x hx
      have := segmentName_inj he
      omega
    · rw [Dir.get, Option.map_eq_none_iff, List.find?_eq_none]
      intro e he
      simpa using hst.fresh e he

/-- **The queue is a durable first-in first-out buffer**, through every history
of opens, pushes, forced pushes, pops and kills. -/
theorem durable_fifo (size : β → Nat) (calls : List (Call β)) (s : Host β)
    (hseq : Meets (step size) Sequenced empty calls)
    (hr : run (step size) empty calls = some s) : Durable size s := by
  have hinv : ∃ live, Represents size s live :=
    run_invariant (I := fun s => ∃ live, Represents size s live)
      (fun _ _ _ ⟨_, h⟩ hok hs => h.step hok hs) ⟨[], Represents.empty⟩ hseq hr
  obtain ⟨live, h⟩ := hinv
  exact h.durable

/-- A refused batch, a full disk, and kills on either side of a rename. -/
def twoKills : List (Call Nat) :=
  [.open 10, .push 4 .ok, .push 7 .ok, .pushForced 9 (.fail .write enospc),
    .spoolKilled 3 .written, .open 10, .push 5 .ok, .pop, .spoolKilled 2 .renamed, .open 10]

theorem durable_fifo_through_two_kills :
    ∃ s, run (step id) empty twoKills = some s ∧ s.fifo = [5, 2] ∧ Durable id s :=
  ⟨_, rfl, rfl, durable_fifo id twoKills _ (by decide) rfl⟩

end Host

end Tributary.Queue
