import Tributary.FileSource.Accounting
import Tributary.FileSource.Checkpoint

/-!
# What a source leaves when it returns

Shutdown empties the framer, ships the batch and waits for what is in flight before it
drains the queue for the last time. What it may leave behind is a batch the disk refused,
a line it passed over, and what it did not read.
-/

namespace Tributary.FileSource

open Lib Queue Ship Stamp Tail Map Transform

variable {c : Config} {s s' : State}

namespace State

/-- Nothing is on its way in the last phase. -/
def Spent (s : State) : Phase → Prop
  | .publishing true => s.framer.ids = [] ∧ s.batch = [] ∧ s.inflight = []
  | _ => True

end State

/-- Shutdown passes over a record. -/
def State.passesOver (c : Config) (s : State) : Event → Bool
  | .unframe nowNs order =>
      match (s.framer.drain c.libs order).1 with
      | none => false
      | some line =>
          match s.built c line nowNs with
          | .error _ => true
          | .ok (.ready record _) =>
              match record.encode c.libs.display with
              | .ok _ => false
              | .error _ => true
          | .ok _ => false
  | _ => false

theorem unframes_of_passesOver {e : Event} (h : s.passesOver c e = false) : s.Unframes c e := by
  cases e with
  | unframe nowNs order =>
      simp only [State.passesOver] at h
      constructor
      · intro line hline
        rw [Option.mem_def] at hline
        simp only [hline] at h
        cases hb : s.built c line nowNs with
        | ok built => exact ⟨built, rfl⟩
        | error e => simp [hb] at h
      · intro line hline record ts hb
        rw [Option.mem_def] at hline
        simp only [hline, hb] at h
        cases henc : record.encode c.libs.display with
        | ok text => exact ⟨text, rfl⟩
        | error e => simp [henc] at h
  | _ => exact ⟨True.intro, True.intro⟩

/-! ## The last phase -/

theorem spent_go {phase : Phase} (h : s.Spent phase) : (s.go phase).Spent (s.go phase).phase := by
  rcases go_phase s phase with hp | hp
  · rw [hp]
    have hq := (still_go s phase).toQuiet
    unfold State.Spent
    rw [hq.framer, hq.batch, hq.inflight]
    exact h
  · rw [hp]
    exact True.intro

/-- The last drain leads to the last phase. -/
theorem spent_leaveDrain {t : State} {drained final : Bool}
    (hphase : s.phase = .draining drained final) (hfits : s.Fits s.phase)
    (hframer : t.framer = s.framer) (hbatch : t.batch = s.batch)
    (hinflight : t.inflight = s.inflight) :
    (t.leaveDrain final).Spent (t.leaveDrain final).phase := by
  cases final with
  | true =>
      rw [hphase] at hfits
      refine spent_go ?_
      show t.framer.ids = [] ∧ t.batch = [] ∧ t.inflight = []
      rw [hframer, hbatch, hinflight]
      exact hfits
  | false => exact spent_go True.intro

theorem spent_of_phase {phase : Phase} (h : s.phase = phase) (hne : phase ≠ .publishing true) :
    s.Spent s.phase := by
  rw [h]
  unfold State.Spent
  split
  · exact absurd rfl hne
  · exact True.intro

theorem spent_next {nowNs : Int} {nowMs : Nat} (h : next c s nowNs nowMs = some s') :
    s'.Spent s'.phase := by
  obtain ⟨hphase, hread⟩ := next_cases h
  cases hread with
  | idle tailer => exact spent_go True.intro
  | buffered tailer framer => exact spent_of_phase hphase (by simp)
  | refused tailer line e => exact spent_of_phase hphase (by simp)
  | completed tailer framer record =>
      have ht := took_take c (s.handed tailer framer) record nowNs
      exact spent_of_phase (ht.phase.trans hphase) (by simp)
  | full tailer framer record => exact spent_go True.intro

theorem spent_unframe {nowNs : Int} {order : List Text}
    (h : unframe c s nowNs order = some s') : s'.Spent s'.phase := by
  obtain ⟨hphase, ⟨framer, -, -, rfl⟩ | ⟨framer, record, -, -, rfl⟩⟩ := unframe_cases h
  · exact spent_go True.intro
  · rcases took_takeLast c { s with framer } record nowNs with ht | hl
    · exact spent_of_phase (ht.phase.trans hphase) (by simp)
    · exact spent_of_phase (hl.phase.trans hphase) (by simp)

theorem step_spent {e : Event} (hcore : Core s) (hfits : s.Fits s.phase) (hspent : s.Spent s.phase)
    (h : step c s e = some s') : s'.Spent s'.phase := by
  obtain ⟨live, hst⟩ := hcore.stored
  unfold step at h
  split at h
  · cases h
  cases e with
  | files fs =>
      cases h
      exact hspent
  | finish i sched =>
      obtain ⟨lines, acked, t, hi, -, -, rfl⟩ := finish_cases h
      show State.Spent _ s.phase
      unfold State.Spent at hspent ⊢
      split at hspent
      · rw [hspent.2.2] at hi
        cases hi
      · exact True.intro
  | land io sched =>
      obtain ⟨drained, final, body, rest, hphase, -, hlanded⟩ := land_cases hst h
      cases hlanded with
      | spooled => exact spent_of_phase hphase (by simp)
      | shipped => exact True.intro
      | kept at_ e acked => exact spent_leaveDrain hphase hfits rfl rfl rfl
      | stopped => exact True.intro
  | ship sched =>
      obtain ⟨drained, final, x, rest, hphase, -, -, ⟨acked, poison, -, rfl⟩ | ⟨acked, rfl⟩⟩ :=
        ship_cases hst h
      · exact True.intro
      · exact spent_leaveDrain hphase hfits rfl rfl rfl
  | drained io =>
      obtain ⟨drained, final, hphase, -, rfl⟩ := drained_cases h
      have hq := quiet_saveCheckpoint s io
      cases drained
      · exact spent_leaveDrain hphase hfits rfl rfl rfl
      · exact spent_leaveDrain hphase hfits hq.framer hq.batch hq.inflight
  | next nowNs nowMs => exact spent_next h
  | expire nowNs nowMs order =>
      obtain ⟨framer, out, -, ⟨-, rfl⟩ | ⟨record, -, -, rfl⟩⟩ := expire_cases h
      · exact spent_go True.intro
      · exact spent_go True.intro
  | time due =>
      rcases time_cases h with ⟨-, rfl⟩ | rfl
      · exact spent_go True.intro
      · exact spent_go True.intro
  | submit =>
      obtain ⟨after, -, ⟨-, rfl⟩ | ⟨-, rfl⟩⟩ := submit_cases h
      · cases after <;> exact spent_go True.intro
      · cases after <;> exact spent_go True.intro
  | reap i io forcedIo =>
      have hphase : s.phase ≠ .publishing true := by
        intro hphase
        simp [reap, collects, hphase] at h
      obtain ⟨task, -, hreaped⟩ := reap_cases hst h
      cases hreaped with
      | shipped => exact spent_of_phase rfl hphase
      | spooled => exact spent_of_phase rfl hphase
      | forced => exact spent_of_phase rfl hphase
      | held => exact spent_of_phase rfl hphase
      | failed => exact True.intro
      | stopped => exact True.intro
  | settle io =>
      obtain ⟨final, -, -, rfl⟩ := settle_cases h
      cases final <;> exact spent_go True.intro
  | publish due nowNs =>
      obtain ⟨base, -, rfl | rfl⟩ := publish_cases h
      · exact True.intro
      · exact spent_go True.intro
  | reload rules batchLines maxInflight =>
      dsimp only at h
      split at h
      · rename_i hphase
        cases h
        exact spent_of_phase hphase (by simp)
      · cases h
  | again shutdown =>
      rcases again_cases h with rfl | rfl
      · exact spent_go True.intro
      · exact spent_go True.intro
  | unframe nowNs order => exact spent_unframe h
  | die =>
      cases h
      exact True.intro

/-- The phase has what it needs. -/
theorem step_fits {e : Event} (hcore : Core s) (hfits : s.Fits s.phase)
    (h : step c s e = some s') : s'.Fits s'.phase := by
  cases e with
  | drained io =>
      unfold step at h
      split at h
      · cases h
      obtain ⟨drained, final, -, -, rfl⟩ := drained_cases h
      exact fits_leaveDrain final
  | unframe nowNs order =>
      unfold step at h
      split at h
      · cases h
      exact (staged_unframe h).fits
  | _ =>
      refine (step_staged hcore hfits ?_ h).fits
      exact ⟨True.intro, True.intro⟩

/-! ## The end of a run -/

/-- What every state of a run satisfies in which shutdown passes over nothing. -/
structure ExitInv (s : State) : Prop where
  core : Core s
  ledger : Ledger s
  fits : s.Fits s.phase
  spent : s.Spent s.phase

theorem ExitInv.step {e : Event} (h : ExitInv s) (hok : s.Unframes c e)
    (hstep : FileSource.step c s e = some s') : ExitInv s' where
  core := (step_durable h.core hstep).core h.core
  ledger := step_ledger h.core h.ledger hok hstep
  fits := step_fits h.core h.fits hstep
  spent := step_spent h.core h.fits h.spent hstep

theorem ExitInv.start {fs : Fs} {restored : Option Checkpoint} {adopted : Adopted}
    (h : FileSource.start c fs restored adopted = some s) : ExitInv s := by
  refine ⟨start_core h, start_ledger h, ?_, ?_⟩
  · obtain ⟨tailer, -, rfl⟩ := Option.map_eq_some_iff.mp h
    exact True.intro
  · obtain ⟨tailer, -, rfl⟩ := Option.map_eq_some_iff.mp h
    exact True.intro

/-- **A source that returns has settled every line it was handed**, unless it holds a
batch. -/
theorem ExitInv.exit {e : Event} (h : ExitInv s) (hheld : s.held = [])
    (hexits : s.exits e = true) (hstep : FileSource.step c s e = some s') {i : Nat}
    (hi : i < s.read) : s'.Settled i := by
  have hphase : s.phase = .publishing true := by
    cases e with
    | publish due nowNs => exact of_decide_eq_true hexits
    | _ => cases hexits
  have hspent := h.spent
  rw [hphase] at hspent
  obtain ⟨hframer, hbatch, hinflight⟩ := hspent
  have hquiescent : s.Quiescent := ⟨hframer, hbatch, by simp [hinflight]⟩
  exact (step_durable h.core hstep).settled
    (hquiescent.settled h.core h.ledger (running_of_step hstep) hheld hi)

/-- Returning reads nothing, and settles nothing. -/
theorem exit_same {e : Event} (hexits : s.exits e = true) (h : step c s e = some s') :
    s'.read = s.read ∧ s'.held = s.held := by
  cases e with
  | publish due nowNs =>
      have hphase : s.phase = .publishing true := of_decide_eq_true hexits
      have hstep : publish s due nowNs = some s' := by
        simpa [step, hphase] using h
      simp only [publish, hphase, Option.some.injEq] at hstep
      subst hstep
      unfold writeWatermark
      split <;> exact ⟨rfl, rfl⟩
  | _ => cases hexits

end Tributary.FileSource
