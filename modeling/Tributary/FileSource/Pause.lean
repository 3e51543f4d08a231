import Tributary.FileSource.Ledger

/-!
# Reading that pauses can resume

The pause flag is cleared in `pop` only, so while it is set there has to be a
segment to pop. It is set by a refusal too, and a batch the full disk refuses
with nothing queued leaves a flag nothing will clear.
-/

namespace Tributary.FileSource

open Lib Queue Ship Stamp Tail Map Transform

variable {c : Config} {s s' : State} {l : Line}

namespace State

/-- A failed batch that the queue refuses is forced onto the disk, unless the
queue holds a segment. -/
def Spools (s : State) : Event → Prop
  | .reap i io forcedIo =>
      ∀ lines e, s.inflight[i]? = some (.failed lines e) → s.refuses lines io = true →
        s.queue.segments = [] → forcedIo = .ok
  | _ => True

/-- What is collected was shipped, or is on disk at once. -/
def Delivers (s : State) : Event → Prop
  | .reap i _ forcedIo =>
      ∀ lines e, s.inflight[i]? = some (.failed lines e) → forcedIo = .ok
  | _ => True

theorem Delivers.spools {e : Event} (h : s.Delivers e) : s.Spools e := by
  cases e with
  | reap i io forcedIo => exact fun lines e hi _ _ => h lines e hi
  | _ => exact True.intro

end State

/-! ## What leaves the queue alone -/

/-- The queue and what waits for it. -/
structure Shelf (s s' : State) : Prop where
  queue : s'.queue = s.queue
  held : s'.held = s.held

theorem Quiet.shelf (h : Quiet s s') : Shelf s s' := ⟨h.queue, h.held⟩

theorem Shelf.trans {s'' : State} (h : Shelf s s') (h' : Shelf s' s'') : Shelf s s'' :=
  ⟨h'.queue.trans h.queue, h'.held.trans h.held⟩

theorem Took.shelf {line : Chunk} {built : Except String Built} (h : Took s line built s') :
    Shelf s s' := by
  cases h with
  | enlisted base l record hb => exact ⟨hb.queue, hb.held⟩
  | unencodable base l reason hb => exact ⟨hb.queue, hb.held⟩
  | refused base reason hb => exact ⟨hb.queue, hb.held⟩
  | dropped base hb => exact ⟨hb.queue, hb.held⟩

theorem Lost.shelf {line : Chunk} {built : Except String Built}
    (h : Lost c s line built s') : Shelf s s' := by
  cases h with
  | unencodable base l record e hb => exact ⟨hb.queue, hb.held⟩
  | unbuilt base e hb => exact ⟨hb.queue, hb.held⟩

/-- Reading and framing reach neither. -/
theorem shelf_framer (s : State) (tailer : Tailer) (framer : Framer) (idle : Bool) (read : Nat) :
    Shelf s { s with tailer, framer, idle, read } := ⟨rfl, rfl⟩

/-- The events that reach the queue. -/
def Event.queues : Event → Bool
  | .land .. | .ship .. | .reap .. => true
  | _ => false

theorem step_shelf {e : Event} (h : step c s e = some s') (he : e.queues = false) :
    Shelf s s' := by
  by_cases hhandles : e.handles = false
  · exact (step_quiet h hhandles).shelf
  unfold step at h
  split at h
  · cases h
  cases e with
  | finish i sched =>
      obtain ⟨lines, acked, t, -, -, -, rfl⟩ := finish_cases h
      exact ⟨rfl, rfl⟩
  | land io sched => cases he
  | ship sched => cases he
  | next nowNs nowMs =>
      have hhanded : ∀ tailer framer, Shelf s (s.handed tailer framer) :=
        fun tailer framer => shelf_framer s tailer framer false (s.read + 1)
      cases (next_cases h).2 with
      | idle tailer =>
          exact (shelf_framer s tailer s.framer s.idle s.read).trans (still_go _ _).toQuiet.shelf
      | buffered tailer framer => exact ⟨rfl, rfl⟩
      | refused tailer line e => exact ⟨rfl, rfl⟩
      | completed tailer framer record =>
          exact (hhanded tailer framer).trans (took_take c _ record nowNs).shelf
      | full tailer framer record =>
          exact ((hhanded tailer framer).trans (took_take c _ record nowNs).shelf).trans
            (still_go _ _).toQuiet.shelf
  | expire nowNs nowMs order =>
      obtain ⟨framer, out, -, ⟨-, rfl⟩ | ⟨record, -, -, rfl⟩⟩ := expire_cases h
      · exact (shelf_framer s s.tailer framer s.idle s.read).trans (still_go _ _).toQuiet.shelf
      · exact ((shelf_framer s s.tailer framer s.idle s.read).trans
          (took_take c _ record nowNs).shelf).trans (still_go _ _).toQuiet.shelf
  | submit =>
      obtain ⟨after, -, ⟨-, rfl⟩ | ⟨-, rfl⟩⟩ := submit_cases h
      · exact (still_afterFlush s after).toQuiet.shelf
      · have hsubmitted : Shelf s s.submitted := ⟨rfl, rfl⟩
        refine hsubmitted.trans ?_
        exact (still_afterFlush _ after).toQuiet.shelf
  | reap i io forcedIo => cases he
  | unframe nowNs order =>
      obtain ⟨-, ⟨framer, -, -, rfl⟩ | ⟨framer, record, -, -, rfl⟩⟩ := unframe_cases h
      · exact (shelf_framer s s.tailer framer s.idle s.read).trans (still_go _ _).toQuiet.shelf
      · refine (shelf_framer s s.tailer framer s.idle s.read).trans ?_
        rcases took_takeLast c { s with framer } record nowNs with ht | hl
        · exact ht.shelf
        · exact hl.shelf
  | _ => exact absurd rfl hhandles

/-! ## The flag and the segments -/

/-- While the flag is set or a batch is held, there is a segment to pop. -/
structure PauseInv (s : State) : Prop where
  core : Core s
  full : s.queue.full = true → s.queue.segments ≠ []
  held : s.held ≠ [] → s.queue.segments ≠ []

theorem PauseInv.of_segments (hcore : Core s) (h : s.queue.segments ≠ []) : PauseInv s :=
  ⟨hcore, fun _ => h, fun _ => h⟩

theorem PauseInv.shelf (h : PauseInv s) (hcore : Core s') (hs : Shelf s s') : PauseInv s' :=
  ⟨hcore, by rw [hs.queue]; exact h.full, by rw [hs.queue, hs.held]; exact h.held⟩

theorem spooled_segments (lines : List Line) (full : Bool) :
    (s.spooled lines full).queue.segments ≠ [] := by
  simp [State.spooled, Queue.spooled]

/-- The last segment takes the flag with it: nothing is left to be over the
mark. -/
theorem retire_clears {live : List (Nat × List Line)} {x : Nat × List Line}
    (hst : Stored size s.dir s.queue (x :: live))
    (hfull : (s.queue.retire (size x.2)).full = true) :
    (s.queue.retire (size x.2)).segments ≠ [] := by
  have hpop := hst.pop_front.2
  intro hnone
  rw [hpop.segments, List.map_eq_nil_iff] at hnone
  subst hnone
  have hbytes : s.queue.bytes = size x.2 := by simpa using hst.bytes
  rw [retire_full, hbytes] at hfull
  omega

theorem PauseInv.land {io : Io} {sched : List (Answer Line)} (h : PauseInv s) (hcore : Core s')
    (hstep : FileSource.land s io sched = some s') : PauseInv s' := by
  obtain ⟨live, hst⟩ := h.core.stored
  obtain ⟨drained, final, body, rest, -, hheld, hlanded⟩ := land_cases hst hstep
  have hsegments : s.queue.segments ≠ [] := h.held (by rw [hheld]; exact List.cons_ne_nil _ _)
  refine .of_segments hcore ?_
  cases hlanded with
  | spooled => exact spooled_segments body true
  | shipped => exact hsegments
  | kept at_ e acked =>
      rw [(still_leaveDrain _ final).queue]
      exact hsegments
  | stopped => exact hsegments

theorem PauseInv.ship {sched : List (Answer Line)} (h : PauseInv s) (hcore : Core s')
    (hstep : FileSource.ship s sched = some s') : PauseInv s' := by
  obtain ⟨live, hst⟩ := h.core.stored
  obtain ⟨drained, final, x, rest, -, hheld, rfl, ⟨acked, poison, -, rfl⟩ | ⟨acked, rfl⟩⟩ :=
    ship_cases hst hstep
  · exact ⟨hcore, retire_clears hst, fun hne => absurd hheld hne⟩
  · exact h.shelf hcore ⟨(still_leaveDrain _ final).queue, (still_leaveDrain _ final).held⟩

theorem PauseInv.reap {i : Nat} {io forcedIo : Io} (h : PauseInv s) (hcore : Core s')
    (hok : s.Spools (.reap i io forcedIo)) (hstep : FileSource.reap s i io forcedIo = some s') :
    PauseInv s' := by
  obtain ⟨live, hst⟩ := h.core.stored
  obtain ⟨task, hi, hreaped⟩ := reap_cases hst hstep
  cases hreaped with
  | shipped => exact h.shelf hcore ⟨rfl, rfl⟩
  | spooled lines => exact .of_segments hcore (spooled_segments lines _)
  | forced lines => exact .of_segments hcore (spooled_segments lines _)
  | held lines e io at_ ioe hrefused =>
      refine .of_segments hcore fun hnone => ?_
      cases hok lines e hi hrefused hnone
  | failed => exact h.shelf hcore ⟨rfl, rfl⟩
  | stopped lines e io at_ ioe hrefused =>
      refine .of_segments hcore fun hnone => ?_
      cases hok lines e hi hrefused hnone

theorem PauseInv.step {e : Event} (h : PauseInv s) (hok : s.Spools e)
    (hstep : FileSource.step c s e = some s') : PauseInv s' := by
  have hcore := (step_durable h.core hstep).core h.core
  by_cases he : e.queues = false
  · exact h.shelf hcore (step_shelf hstep he)
  · unfold FileSource.step at hstep
    split at hstep
    · cases hstep
    cases e with
    | land io sched => exact h.land hcore hstep
    | ship sched => exact h.ship hcore hstep
    | reap i io forcedIo => exact h.reap hcore hok hstep
    | _ => exact absurd rfl he

theorem PauseInv.start {fs : Fs} {restored : Option Checkpoint} {adopted : Adopted}
    (h : FileSource.start c fs restored adopted = some s) : PauseInv s := by
  refine ⟨start_core h, ?_, ?_⟩
  · obtain ⟨tailer, -, rfl⟩ := Option.map_eq_some_iff.mp h
    intro hfull
    cases hfull
  · obtain ⟨tailer, -, rfl⟩ := Option.map_eq_some_iff.mp h
    exact fun hne => absurd rfl hne

/-! ## Emptying the queue -/

theorem land_ok {live : List (Nat × List Line)} (hst : Stored size s.dir s.queue live)
    {drained final : Bool} {body : List Line} {rest : List (List Line)}
    (hphase : s.phase = .draining drained final) (hheld : s.held = body :: rest) :
    land s .ok [] = some ({ s with held := rest }.spooled body true) := by
  rcases hst.pushForced_cases body .ok with ⟨-, he⟩ | ⟨at_, e, h, -⟩ | ⟨at_, e, h, -⟩
  · simp [land, hphase, hheld, he, State.spooled]
  · cases h
  · cases h

/-- A segment ships to a server that takes it. -/
theorem ship_up {live : List (Nat × List Line)} {x : Nat × List Line}
    (hst : Stored size s.dir s.queue (x :: live)) {drained final : Bool}
    (hphase : s.phase = .draining drained final) (hheld : s.held = []) :
    ∃ acked, ship s [up] = some { s.settled acked [] with
      queue := s.queue.retire (size x.2)
      dir := s.dir.remove (name x)
      phase := .draining true final } := by
  have hout : (sendLines blank [up] [x.2]).outcome = .shipped [] := sendLines_accepted rfl
  have hfront : Queue.front s.queue = some (name x) := by rw [hst.front]; rfl
  have hpop : Queue.pop size ({ s with acked := s.acked ++
      (sendLines blank [up] [x.2]).acked }.quarantine []).queue
      ({ s with acked := s.acked ++ (sendLines blank [up] [x.2]).acked }.quarantine []).dir
      (name x) = some (s.queue.retire (size x.2), s.dir.remove (name x)) := hst.pop_front.1
  refine ⟨(sendLines blank [up] [x.2]).acked, ?_⟩
  unfold ship
  split
  · rename_i drained' final' path hphase' _ hfront'
    cases hphase.symm.trans hphase'
    cases hfront.symm.trans hfront'
    simp only [hst.read (List.mem_cons_self ..), hout, hpop]
    rfl
  · rename_i hno
    exact (hno _ _ _ hphase hheld hfront).elim

/-- A held batch weighs more than a segment: landing it is progress too. -/
def State.backlog (s : State) : Nat := 2 * s.held.length + s.queue.segments.length

/-- With the disk and the server back, a drain gets on. -/
theorem drain_progress (h : PauseInv s) {drained final : Bool}
    (hphase : s.phase = .draining drained final) (hleft : 0 < s.backlog) :
    ∃ e s', step c s e = some s' ∧ s.Delivers e ∧ (∃ drained', s'.phase = .draining drained' final)
      ∧ s'.backlog < s.backlog := by
  have hrun : s.phase ≠ .stopped := by simp [hphase]
  obtain ⟨live, hst⟩ := h.core.stored
  cases hheld : s.held with
  | cons body rest =>
      refine ⟨.land .ok [], _, (if_neg hrun).trans (land_ok hst hphase hheld), True.intro,
        ⟨drained, hphase⟩, ?_⟩
      simp only [State.backlog, State.spooled, Queue.spooled, List.length_append, hheld,
        List.length_cons, List.length_nil]
      omega
  | nil =>
      cases live with
      | nil => simp [State.backlog, hheld, hst.segments] at hleft
      | cons x rest =>
          obtain ⟨acked, hship⟩ := ship_up hst hphase hheld
          refine ⟨.ship [up], _, (if_neg hrun).trans hship, True.intro, ⟨true, rfl⟩, ?_⟩
          have hsegments := hst.pop_front.2.segments
          show 2 * s.held.length + (s.queue.retire (size x.2)).segments.length < _
          rw [hsegments, State.backlog, hst.segments]
          simp

/-- **A drain can empty the queue** and what is held. -/
theorem drain_empties (h : PauseInv s) {drained final : Bool}
    (hphase : s.phase = .draining drained final) :
    ∃ es s', Meets (step c) State.Delivers s es ∧ run (step c) s es = some s'
      ∧ s'.queue.segments = [] ∧ s'.held = [] := by
  induction hn : s.backlog using Nat.strong_induction_on generalizing s drained with
  | _ n ih =>
      by_cases hleft : 0 < s.backlog
      · obtain ⟨e, t, hstep, hdel, ⟨drained', hphase'⟩, hless⟩ :=
          drain_progress (c := c) h hphase hleft
        obtain ⟨es, s', hok, hrun, hempty⟩ :=
          ih t.backlog (hn ▸ hless) (h.step hdel.spools hstep) hphase' rfl
        refine ⟨e :: es, s', ⟨hdel, fun u hu => ?_⟩, run_cons.mpr ⟨t, hstep, hrun⟩, hempty⟩
        rw [hstep] at hu
        cases hu
        exact hok
      · refine ⟨[], s, True.intro, rfl, ?_⟩
        have hzero : s.backlog = 0 := Nat.eq_zero_of_not_pos hleft
        simp only [State.backlog, Nat.add_eq_zero_iff, Nat.mul_eq_zero, List.length_eq_zero_iff]
          at hzero
        exact ⟨hzero.2, hzero.1.resolve_left (by decide)⟩

/-! ## Runs -/

/-- A pause that can end: something is left to ship, a drain can ship it, and
when everything is shipped the flag is clear. -/
structure Resumes (c : Config) (s : State) : Prop where
  left : s.queue.segments ≠ [] ∨ s.held ≠ [] ∨ s.inflight ≠ []
  ends : ∀ es s', Meets (step c) State.Delivers s es → run (step c) s es = some s' →
    s'.queue.segments = [] → s'.held = [] → s'.inflight = [] → s'.queue.full = false
  drains : ∀ drained final, s.phase = .draining drained final →
    ∃ es s', Meets (step c) State.Delivers s es ∧ run (step c) s es = some s'
      ∧ s'.queue.segments = [] ∧ s'.held = [] ∧ s'.queue.full = false

theorem PauseInv.clear (h : PauseInv s) (hempty : s.queue.segments = []) :
    s.queue.full = false := by
  cases hfull : s.queue.full with
  | false => rfl
  | true => exact absurd hempty (h.full hfull)

theorem pauseInv_run {es : List Event} (h : PauseInv s) (hok : Meets (step c) State.Spools s es)
    (hrun : run (step c) s es = some s') : PauseInv s' :=
  run_invariant (fun _ _ _ h hok hstep => h.step hok hstep) h hok hrun

theorem PauseInv.resumes (h : PauseInv s) (hfull : s.queue.full = true) : Resumes c s where
  left := .inl (h.full hfull)
  ends := fun _ _ hdel hrun hempty _ _ =>
    (pauseInv_run h (hdel.mono fun _ _ hd => hd.spools) hrun).clear hempty
  drains := by
    intro drained final hphase
    obtain ⟨es, s', hdel, hrun, hempty, hheld⟩ := drain_empties (c := c) h hphase
    have h' := pauseInv_run h (hdel.mono fun _ _ hd => hd.spools) hrun
    exact ⟨es, s', hdel, hrun, hempty, hheld, h'.clear hempty⟩

/-- **Paused reading can resume** in every run in which no failed batch is held
for want of disk space while the queue has no segment. -/
theorem pause_resumes {fs : Fs} {restored : Option Checkpoint} {adopted : Adopted} {s₀ : State}
    {es : List Event} (hstart : start c fs restored adopted = some s₀)
    (hok : Meets (step c) State.Spools s₀ es) (hrun : run (step c) s₀ es = some s)
    (hfull : s.queue.full = true) : Resumes c s :=
  (pauseInv_run (.start hstart) hok hrun).resumes hfull

/-! ## A full disk with nothing queued -/

/-- A line is read, and its batch fails. -/
def failedPass (io forcedIo : Io) : List Event :=
  [.drained .ok, .next 5 0, .next 5 0, .expire 5 0 [], .time true, .submit, .finish 0 [down],
    .reap 0 io forcedIo]

/-- A queue too small for the batch takes it past its cap, and reading pauses
until it has shipped. -/
theorem pause_resumes_forced :
    ∃ s₀ s, start (plainConfig 10 10) (oneFile "new\n".toList) none nothingQueued = some s₀
      ∧ run (step (plainConfig 10 10)) s₀ (failedPass .ok .ok) = some s ∧ s.queue.full = true
      ∧ Resumes (plainConfig 10 10) s := by
  have hrun : ∃ s₀ s, start (plainConfig 10 10) (oneFile "new\n".toList) none nothingQueued
      = some s₀ ∧ run (step (plainConfig 10 10)) s₀ (failedPass .ok .ok) = some s
      ∧ s.queue.full = true := ⟨_, _, rfl, rfl, rfl⟩
  obtain ⟨s₀, s, hstart, hrun, hfull⟩ := hrun
  have hok : Meets (step (plainConfig 10 10)) State.Spools s₀ (failedPass .ok .ok) :=
    .of_forall (by simp [failedPass, State.Spools])
  exact ⟨s₀, s, hstart, hrun, hfull, pause_resumes hstart hok hrun hfull⟩

/-- With the disk full the batch is held; the server comes back and it is shipped
from memory. The flag stays set for good: a pop clears it, and there is nothing
to pop. -/
theorem pause_stays :
    ∃ s₀ s, start (plainConfig 10 100) (oneFile "new\n".toList) none nothingQueued = some s₀
      ∧ run (step (plainConfig 10 100)) s₀ (failedPass noSpace noSpace
          ++ [.settle .ok, .publish false 5, .again false, .land noSpace [up]]) = some s
      ∧ s.queue.full = true ∧ s.queue.segments = [] ∧ s.held = [] ∧ s.inflight = [] :=
  ⟨_, _, rfl, rfl, rfl, rfl, rfl, rfl⟩

end Tributary.FileSource
