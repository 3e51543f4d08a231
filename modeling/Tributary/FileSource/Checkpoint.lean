import Tributary.FileSource.Ledger

/-!
# The checkpoint and what it covers

A checkpoint may be written when every line handed out is durable somewhere: a
crash then replays nothing it must not skip. The timed checkpoint and the one at
shutdown wait for that; the one behind `drain_queue` does not look at the batch,
the framer or what is in flight.
-/

namespace Tributary.FileSource

open Lib Queue Ship Stamp Tail Map Transform

variable {c : Config} {s s' : State} {l : Line}

/-- Done, with no line left to record. -/
def Task.accepted : Task → Bool
  | .shipped _ poison => poison.isEmpty
  | .running _ | .failed _ _ => false

namespace State

/-- Acknowledged, in a segment on disk, in the dead-letter file, or dropped on
purpose. -/
def Settled (s : State) (i : Nat) : Prop :=
  (∃ l ∈ s.acked, i ∈ l.ids)
    ∨ (∃ l, blank l = false ∧ InSegment s.dir l ∧ i ∈ l.ids)
    ∨ (∃ d ∈ s.deadLetter, i ∈ d.ids)
    ∨ i ∈ s.dropped

/-- The checkpoint on disk covers settled lines only. -/
def Covered (s : State) : Prop := ∀ saved ∈ s.saved, ∀ i < saved.covers, s.Settled i

/-- Nothing is assembled, batched or under way. -/
structure Quiescent (s : State) : Prop where
  framer : s.framer.ids = []
  batch : s.batch = []
  inflight : ∀ t ∈ s.inflight, t.accepted = true

/-- What the loop has made sure of in a phase. -/
def Fits (s : State) : Phase → Prop
  | .draining _ true => s.framer.ids = [] ∧ s.batch = [] ∧ s.inflight = []
  | .flushing _ => s.framer.ids = []
  | .settling _ => s.framer.ids = [] ∧ s.batch = []
  | _ => True

/-- The queue is not seen empty, after something of it shipped, while a line is
in the framer, in the batch or in flight; and shutdown passes over no line. -/
def Careful (c : Config) (s : State) : Event → Prop
  | .drained io =>
      io = .ok → (∃ final, s.phase = .draining true final) →
        s.framer.hasPending = false ∧ s.batch = [] ∧ ∀ t ∈ s.inflight, t.accepted = true
  | e => s.Unframes c e

end State

/-! ## Settled lines -/

theorem Durable.settled (h : Durable s s') {i : Nat} (hi : s.Settled i) : s'.Settled i := by
  rcases hi with ⟨l, hl, hi⟩ | ⟨l, hb, hl, hi⟩ | ⟨d, hd, hi⟩ | hi
  · exact .inl ⟨l, h.acked l hl, hi⟩
  · rcases h.disk l hb hl with hseg | hack | ⟨d, hd, hids⟩
    · exact .inr (.inl ⟨l, hb, hseg, hi⟩)
    · exact .inl ⟨l, hack, hi⟩
    · exact .inr (.inr (.inl ⟨d, hd, hids ▸ hi⟩))
  · exact .inr (.inr (.inl ⟨d, h.dead d hd, hi⟩))
  · exact .inr (.inr (.inr (h.dropped i hi)))

/-- What a quiescent source still has in memory is acknowledged already. -/
theorem State.Quiescent.acked (h : s.Quiescent) (hcore : Core s) (hheld : s.held = [])
    (hb : blank l = false) (hl : s.InMemory l) : l ∈ s.acked := by
  rcases hl with hl | ⟨t, ht, hl⟩ | ⟨b, hb, -⟩
  · rw [h.batch] at hl
    cases hl
  · have hacc := h.inflight t ht
    cases t with
    | running lines => cases hacc
    | failed lines e => cases hacc
    | shipped lines poison =>
        cases List.isEmpty_iff.mp hacc
        exact (hcore.tasks lines [] ht l hl hb).resolve_right List.not_mem_nil
  · rw [hheld] at hb
    cases hb

/-- **A quiescent source has settled every line it was handed.** -/
theorem State.Quiescent.settled (h : s.Quiescent) (hcore : Core s) (hledger : Ledger s)
    (hrun : s.phase ≠ .stopped) (hheld : s.held = []) {i : Nat} (hi : i < s.read) :
    s.Settled i := by
  rcases hledger.known i hi with hid | hid | hid | ⟨d, hd, hid⟩ | ⟨l, hl, hid⟩
  · cases hid
  · rw [h.framer] at hid
    cases hid
  · exact .inr (.inr (.inr hid))
  · exact .inr (.inr (.inl ⟨d, hd, hid⟩))
  · rcases hledger.placed hrun l hl with (hack | ⟨d, hd, hids⟩) | ⟨hb, hm | hseg⟩
    · exact .inl ⟨l, hack, hid⟩
    · exact .inr (.inr (.inl ⟨d, hd, hids ▸ hid⟩))
    · exact .inl ⟨l, h.acked hcore hheld hb hm, hid⟩
    · exact .inr (.inl ⟨l, hb, hseg, hid⟩)

/-! ## Phases -/

theorem Quiet.fits (h : Quiet s s') {phase : Phase} (hf : s.Fits phase) : s'.Fits phase := by
  unfold State.Fits
  rw [h.framer, h.batch, h.inflight]
  exact hf

theorem fits_go {phase : Phase} (h : s.Fits phase) : (s.go phase).Fits (s.go phase).phase := by
  rcases go_phase s phase with hp | hp
  · rw [hp]
    exact (still_go s phase).toQuiet.fits h
  · rw [hp]
    exact True.intro

theorem fits_leaveDrain (final : Bool) : (s.leaveDrain final).Fits (s.leaveDrain final).phase := by
  cases final with
  | true => exact fits_go True.intro
  | false => exact fits_go True.intro

/-- What a step that writes a checkpoint has made sure of. -/
structure Saves (s s' : State) : Prop where
  held : s.held = []
  quiescent : s.Quiescent
  covers : ∃ checkpoint, s'.saved = some { checkpoint, covers := s.read }

/-- The phase has what it needs, and the checkpoint was left alone or written
with care. -/
structure Staged (s s' : State) : Prop where
  fits : s'.Fits s'.phase
  saved : s'.saved = s.saved ∨ Saves s s'

theorem staged_next {nowNs : Int} {nowMs : Nat} (h : next c s nowNs nowMs = some s') :
    Staged s s' := by
  obtain ⟨hphase, hread⟩ := next_cases h
  cases hread with
  | idle tailer => exact ⟨fits_go True.intro, .inl (still_go _ _).saved⟩
  | buffered tailer framer => exact ⟨by simp [State.handed, hphase, State.Fits], .inl rfl⟩
  | refused tailer line e =>
      exact ⟨by simp [State.handed, State.refuse, hphase, State.Fits], .inl rfl⟩
  | completed tailer framer record =>
      have ht := took_take c (s.handed tailer framer) record nowNs
      refine ⟨?_, .inl ht.saved⟩
      rw [ht.phase, show (s.handed tailer framer).phase = .reading from hphase]
      exact True.intro
  | full tailer framer record hids hdone hpending =>
      have ht := took_take c (s.handed tailer framer) record nowNs
      exact ⟨fits_go (Framer.ids_of_not_pending hpending),
        .inl ((still_go _ _).saved.trans ht.saved)⟩

theorem staged_unframe {nowNs : Int} {order : List Text}
    (h : unframe c s nowNs order = some s') : Staged s s' := by
  obtain ⟨hphase, ⟨framer, hnone, -, rfl⟩ | ⟨framer, record, -, -, rfl⟩⟩ := unframe_cases h
  · exact ⟨fits_go (Framer.ids_of_not_pending hnone), .inl (still_go _ _).saved⟩
  · rcases took_takeLast c { s with framer } record nowNs with ht | hl
    · refine ⟨?_, .inl ht.saved⟩
      rw [ht.phase, show ({ s with framer } : State).phase = .unframing from hphase]
      exact True.intro
    · refine ⟨?_, .inl hl.saved⟩
      rw [hl.phase, show ({ s with framer } : State).phase = .unframing from hphase]
      exact True.intro

theorem staged_submit (hfits : s.Fits s.phase) (h : submit s = some s') : Staged s s' := by
  obtain ⟨after, hphase, hs'⟩ := submit_cases h
  have hnone : s.framer.ids = [] := by
    rw [hphase] at hfits
    exact hfits
  -- with the batch gone, a flush may lead to a checkpoint
  have hafter : ∀ {t : State}, t.framer = s.framer → t.batch = [] → t.saved = s.saved →
      Staged s (t.afterFlush after) := by
    intro t hframer hbatch hsaved
    refine ⟨?_, .inl ((still_afterFlush t after).saved.trans hsaved)⟩
    have hclear : t.framer.ids = [] ∧ t.batch = [] := ⟨by rw [hframer, hnone], hbatch⟩
    cases after with
    | read => exact fits_go True.intro
    | timed => exact fits_go hclear
    | final => exact fits_go hclear
  rcases hs' with ⟨hbatch, rfl⟩ | ⟨-, rfl⟩
  · exact hafter rfl hbatch rfl
  · exact hafter (t := s.submitted) rfl rfl rfl

theorem staged_drained {io : Io} (hok : s.Careful c (.drained io))
    (h : drained s io = some s') : Staged s s' := by
  obtain ⟨drained, final, hphase, hheld, rfl⟩ := drained_cases h
  refine ⟨fits_leaveDrain final, ?_⟩
  have hleave := fun t : State => (still_leaveDrain t final).saved
  cases drained with
  | false => exact .inl (hleave s)
  | true =>
      rcases saved_saveCheckpoint (s := s) io with hsame | ⟨-, rfl, hsaved⟩
      · exact .inl ((hleave _).trans hsame)
      · obtain ⟨hpending, hbatch, hinflight⟩ := hok rfl ⟨final, hphase⟩
        exact .inr ⟨hheld, ⟨Framer.ids_of_not_pending hpending, hbatch, hinflight⟩, _,
          (hleave _).trans hsaved⟩

theorem staged_settle {io : Io} (hfits : s.Fits s.phase) (h : settle s io = some s') :
    Staged s s' := by
  obtain ⟨final, hphase, hinflight, rfl⟩ := settle_cases h
  rw [hphase] at hfits
  obtain ⟨hframer, hbatch⟩ : s.framer.ids = [] ∧ s.batch = [] := hfits
  refine ⟨?_, ?_⟩
  · cases final with
    | false => exact fits_go True.intro
    | true =>
        have hdrain : s.Fits (.draining false true) := ⟨hframer, hbatch, hinflight⟩
        exact fits_go ((quiet_saveCheckpoint s io).fits hdrain)
  · have hgo := (still_go (s.saveCheckpoint io)
      (if final then .draining false true else .publishing false)).saved
    rcases saved_saveCheckpoint (s := s) io with hsame | ⟨hheld, -, hsaved⟩
    · exact .inl (hgo.trans hsame)
    · exact .inr ⟨hheld, ⟨hframer, hbatch, by simp [hinflight]⟩, _, hgo.trans hsaved⟩

theorem staged_finish {i : Nat} {sched : List (Answer Line)} (hfits : s.Fits s.phase)
    (h : finish s i sched = some s') : Staged s s' := by
  obtain ⟨lines, acked, t, hi, -, -, rfl⟩ := finish_cases h
  refine ⟨?_, .inl rfl⟩
  show State.Fits _ s.phase
  unfold State.Fits at hfits ⊢
  split at hfits
  · rw [hfits.2.2] at hi
    cases hi
  · exact hfits
  · exact hfits
  · exact True.intro

theorem staged_reap {i : Nat} {io forcedIo : Io} (hcore : Core s) (hfits : s.Fits s.phase)
    (h : reap s i io forcedIo = some s') : Staged s s' := by
  obtain ⟨live, hst⟩ := hcore.stored
  obtain ⟨task, hi, hreaped⟩ := reap_cases hst h
  -- a final drain has nothing in flight to collect
  have hcollected : (s.collected i).Fits s.phase := by
    unfold State.Fits at hfits ⊢
    split at hfits
    · rw [hfits.2.2] at hi
      cases hi
    · exact hfits
    · exact hfits
    · exact True.intro
  cases hreaped with
  | shipped => exact ⟨hcollected, .inl rfl⟩
  | spooled => exact ⟨hcollected, .inl rfl⟩
  | forced => exact ⟨hcollected, .inl rfl⟩
  | held => exact ⟨hcollected, .inl rfl⟩
  | failed => exact ⟨True.intro, .inl rfl⟩
  | stopped => exact ⟨True.intro, .inl rfl⟩

theorem staged_land {io : Io} {sched : List (Answer Line)} (hcore : Core s)
    (hfits : s.Fits s.phase) (h : land s io sched = some s') : Staged s s' := by
  obtain ⟨live, hst⟩ := hcore.stored
  obtain ⟨drained, final, body, rest, hphase, -, hlanded⟩ := land_cases hst h
  cases hlanded with
  | spooled => exact ⟨hfits, .inl rfl⟩
  | shipped =>
      rw [hphase] at hfits
      refine ⟨?_, .inl rfl⟩
      cases final with
      | false => exact True.intro
      | true => exact hfits
  | kept at_ e acked => exact ⟨fits_leaveDrain final, .inl (still_leaveDrain _ final).saved⟩
  | stopped => exact ⟨True.intro, .inl rfl⟩

theorem staged_ship {sched : List (Answer Line)} (hcore : Core s) (hfits : s.Fits s.phase)
    (h : ship s sched = some s') : Staged s s' := by
  obtain ⟨live, hst⟩ := hcore.stored
  obtain ⟨drained, final, x, rest, hphase, -, -, ⟨acked, poison, -, rfl⟩ | ⟨acked, rfl⟩⟩ :=
    ship_cases hst h
  · rw [hphase] at hfits
    refine ⟨?_, .inl rfl⟩
    cases final with
    | false => exact True.intro
    | true => exact hfits
  · exact ⟨fits_leaveDrain final, .inl (still_leaveDrain _ final).saved⟩

theorem step_staged {e : Event} (hcore : Core s) (hfits : s.Fits s.phase) (hok : s.Careful c e)
    (h : step c s e = some s') : Staged s s' := by
  unfold step at h
  split at h
  · cases h
  cases e with
  | files fs =>
      cases h
      exact ⟨hfits, .inl rfl⟩
  | finish i sched => exact staged_finish hfits h
  | land io sched => exact staged_land hcore hfits h
  | ship sched => exact staged_ship hcore hfits h
  | drained io => exact staged_drained hok h
  | next nowNs nowMs => exact staged_next h
  | expire nowNs nowMs order =>
      obtain ⟨framer, out, -, ⟨-, rfl⟩ | ⟨record, -, -, rfl⟩⟩ := expire_cases h
      · exact ⟨fits_go True.intro, .inl (still_go _ _).saved⟩
      · exact ⟨fits_go True.intro,
          .inl ((still_go _ _).saved.trans (took_take c _ record nowNs).saved)⟩
  | time due =>
      rcases time_cases h with ⟨hpending, rfl⟩ | rfl
      · exact ⟨fits_go (Framer.ids_of_not_pending hpending), .inl (still_go _ _).saved⟩
      · exact ⟨fits_go True.intro, .inl (still_go _ _).saved⟩
  | submit => exact staged_submit hfits h
  | reap i io forcedIo => exact staged_reap hcore hfits h
  | settle io => exact staged_settle hfits h
  | publish due nowNs =>
      obtain ⟨base, hbase, hs'⟩ := publish_cases h
      have hsaved : base.saved = s.saved := by
        rcases hbase with rfl | rfl
        · rfl
        · exact saved_writeWatermark s nowNs
      rcases hs' with rfl | rfl
      · exact ⟨True.intro, .inl hsaved⟩
      · exact ⟨fits_go True.intro, .inl ((still_go _ _).saved.trans hsaved)⟩
  | reload rules batchLines maxInflight =>
      dsimp only at h
      split at h
      · cases h
        exact ⟨hfits, .inl rfl⟩
      · cases h
  | again shutdown =>
      rcases again_cases h with rfl | rfl
      · exact ⟨fits_go True.intro, .inl (still_go _ _).saved⟩
      · exact ⟨fits_go True.intro, .inl (still_go _ _).saved⟩
  | unframe nowNs order => exact staged_unframe h
  | die =>
      cases h
      exact ⟨True.intro, .inl rfl⟩

/-! ## Runs -/

/-- What every state of a careful run satisfies. -/
structure CheckpointInv (s : State) : Prop where
  core : Core s
  ledger : Ledger s
  fits : s.Fits s.phase
  covered : s.Covered

theorem CheckpointInv.step {e : Event} (h : CheckpointInv s) (hok : s.Careful c e)
    (hstep : FileSource.step c s e = some s') : CheckpointInv s' := by
  have hrun := running_of_step hstep
  have hdurable := step_durable h.core hstep
  have hstaged := step_staged h.core h.fits hok hstep
  have hunframes : s.Unframes c e := by
    cases e with
    | drained io => exact ⟨True.intro, True.intro⟩
    | _ => exact hok
  refine ⟨hdurable.core h.core, step_ledger h.core h.ledger hunframes hstep, hstaged.fits, ?_⟩
  intro saved hsaved i hi
  rcases hstaged.saved with hsame | ⟨hheld, hquiescent, checkpoint, hwrote⟩
  · rw [hsame] at hsaved
    exact hdurable.settled (h.covered saved hsaved i hi)
  · rw [hwrote] at hsaved
    cases Option.mem_def.mp hsaved
    exact hdurable.settled (hquiescent.settled h.core h.ledger hrun hheld hi)

theorem CheckpointInv.start {fs : Fs} {restored : Option Checkpoint} {adopted : Adopted}
    (h : FileSource.start c fs restored adopted = some s) : CheckpointInv s := by
  refine ⟨start_core h, start_ledger h, ?_, ?_⟩
  · obtain ⟨tailer, -, rfl⟩ := Option.map_eq_some_iff.mp h
    exact True.intro
  · obtain ⟨tailer, -, rfl⟩ := Option.map_eq_some_iff.mp h
    rintro saved hsaved i hi
    obtain ⟨checkpoint, -, rfl⟩ := Option.map_eq_some_iff.mp hsaved
    exact absurd hi (Nat.not_lt_zero i)

/-- **A checkpoint never covers a line that is not durable**, in every run in
which the queue is not seen empty, after something of it shipped, while a line is
on its way, and shutdown passes over none. -/
theorem checkpoint_covered {fs : Fs} {restored : Option Checkpoint} {adopted : Adopted}
    {s₀ : State} {es : List Event} (hstart : start c fs restored adopted = some s₀)
    (hok : Meets (step c) (State.Careful c) s₀ es) (hrun : run (step c) s₀ es = some s) :
    s.Covered :=
  (run_invariant (I := CheckpointInv) (fun _ _ _ h hok hstep => h.step hok hstep)
    (.start hstart) hok hrun).covered

/-! ## A server that comes back -/

/-- A batch an earlier run left queued. -/
def oneQueued : Adopted :=
  { bodies := [(0, ["logs,stream=app message=\"old\" 1\n".toList])]
    increasing := by decide
    narrow := by decide }

/-- The server is down while a line is read, and back for the next pass. -/
def backAgain : List Event :=
  [.ship [down], .next 5 0] ++ idlePass 5 ++ [.ship [up], .drained .ok]

/-- The queue is drained while a line is in the batch, and the checkpoint behind
it covers that line. -/
theorem checkpoint_covers_batch :
    ∃ s₀ s, start (plainConfig 10 100) (oneFile "new\n".toList) none oneQueued = some s₀
      ∧ run (step (plainConfig 10 100)) s₀ backAgain = some s ∧ ¬ s.Covered := by
  refine ⟨_, _, rfl, rfl, fun h => ?_⟩
  rcases h _ rfl 0 (by decide) with ⟨l, hl, hi⟩ | ⟨l, -, ⟨p, body, hm, -⟩, -⟩ | ⟨d, hd, -⟩ | hi
  · cases List.mem_singleton.mp hl
    cases hi
  · cases hm
  · cases hd
  · cases hi

/-- A line is read, the server is down, the batch is spooled, and the checkpoint
is written. -/
def timedPass : List Event :=
  [.next 5 0, .next 5 0, .expire 5 0 [], .time true, .submit, .finish 0 [down], .reap 0 .ok .ok,
    .settle .ok]

theorem checkpoint_covered_timed :
    ∃ s₀ s, start (plainConfig 10 100) (oneFile "new\n".toList) none nothingQueued = some s₀
      ∧ run (step (plainConfig 10 100)) s₀ (.drained .ok :: timedPass) = some s
      ∧ s.Covered ∧ s.saved.map (·.covers) = some 1 := by
  have hrun : ∃ s₀ s, start (plainConfig 10 100) (oneFile "new\n".toList) none nothingQueued
      = some s₀ ∧ s₀.phase = .draining false false
      ∧ run (step (plainConfig 10 100)) s₀ (.drained .ok :: timedPass) = some s
      ∧ s.saved.map (·.covers) = some 1 := ⟨_, _, rfl, rfl, rfl, rfl⟩
  obtain ⟨s₀, s, hstart, hphase, hrun, hsaved⟩ := hrun
  have hok : Meets (step (plainConfig 10 100)) (State.Careful (plainConfig 10 100)) s₀
      (.drained .ok :: timedPass) := by
    refine ⟨?_, fun t _ => .of_forall ?_⟩
    swap
    · simp [timedPass, State.Careful, State.Unframes, State.Builds, State.Encodes]
    rintro - ⟨final, hf⟩
    rw [hphase] at hf
    cases hf
  exact ⟨s₀, s, hstart, hrun, checkpoint_covered hstart hok hrun, hsaved⟩

end Tributary.FileSource
