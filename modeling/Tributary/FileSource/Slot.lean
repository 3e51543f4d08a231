import Tributary.Config.Hup
import Tributary.Config.Reload
import Tributary.FileSource.Ledger

/-!
# A slot for the batch

`flush` waits while every slot is taken, and each turn of its loop collects a batch that
is done. Without any slot it goes on collecting from an empty set, which returns at once.
-/

namespace Tributary.FileSource

open Lib Queue Ship

/-! ## The loop -/

/-- How a shipping task ends. -/
inductive Ending where
  | shipped (poison : List Line)
  | failed (e : ShipError)
  | panicked

/-- An answer of `join_next`: which of the tasks is done and how it ended, unless it was
done before, and what the disk says where its batch is spooled. -/
structure Join where
  i : Nat
  ending : Ending
  io : Io
  forcedIo : Io

/-- The task when it is collected; a panic is an error of the loop. -/
def Join.task (j : Join) : Task → Option Task
  | .running lines =>
      match j.ending with
      | .shipped poison => some (.shipped lines poison)
      | .failed e => some (.failed lines e)
      | .panicked => none
  | done => some done

/-- `reap_one`: nothing is waited for if nothing is in flight. -/
def reapOne (s : State) (j : Join) : State :=
  match s.inflight[j.i % s.inflight.length]? with
  | none => s
  | some t =>
      let s := { s with inflight := s.inflight.eraseIdx (j.i % s.inflight.length) }
      match j.task t with
      | none => s.stop
      | some t => (s.reap t j.io j.forcedIo).getD s

/-- The loop of `flush`, and the spawn behind it; it is left early with an error. -/
def flushFrom (joins : Nat → Join) : (fuel : Nat) → (turn : Nat) → State → Option State
  | 0, _, _ => none
  | fuel + 1, turn, s =>
      if s.phase = .stopped then some s
      else if s.batch ≠ [] ∧ s.maxInflight ≤ s.inflight.length then
        flushFrom joins fuel (turn + 1) (reapOne s (joins turn))
      else submit s

/-- `flush`. -/
def flush (joins : Nat → Join) (after : After) (fuel : Nat) (s : State) : Option State :=
  flushFrom joins fuel 0 { s with phase := .flushing after }

/-- The call has returned: with an error, or with the batch in one of the slots. -/
def Slotted (s s' : State) : Prop :=
  s'.phase = .stopped ∨ s.batch = [] ∨
    s'.inflight.getLast? = some (.running s.batch) ∧ s'.inflight.length ≤ s'.maxInflight

/-! ## One turn -/

variable {s s' : State} {joins : Nat → Join} {j : Join} {after : After} {turn : Nat}

/-- Collecting a batch changes neither the slots nor the batch that waits. -/
structure Collected (s s' : State) : Prop where
  inflight : s'.inflight = s.inflight
  maxInflight : s'.maxInflight = s.maxInflight
  batch : s'.batch = s.batch
  phase : s'.phase = s.phase ∨ s'.phase = .stopped

theorem collected_reap {t : Task} {io forcedIo : Io} (h : s.reap t io forcedIo = some s') :
    Collected s s' := by
  unfold State.reap at h
  cases t with
  | running lines => cases h
  | shipped lines poison =>
      cases h
      exact ⟨rfl, rfl, rfl, .inl rfl⟩
  | failed lines e =>
      dsimp only at h
      split at h
      · cases h
        exact ⟨rfl, rfl, rfl, .inr rfl⟩
      · cases h
        exact ⟨rfl, rfl, rfl, .inl rfl⟩
      · split at h
        · cases h
          exact ⟨rfl, rfl, rfl, .inr rfl⟩
        · cases h
          exact ⟨rfl, rfl, rfl, .inl rfl⟩
        · cases h
          exact ⟨rfl, rfl, rfl, .inl rfl⟩

/-- **One turn** frees a slot, if one is taken. -/
theorem reapOne_spec (s : State) (j : Join) :
    (reapOne s j).inflight.length = s.inflight.length - 1
      ∧ (reapOne s j).maxInflight = s.maxInflight ∧ (reapOne s j).batch = s.batch
      ∧ ((reapOne s j).phase = s.phase ∨ (reapOne s j).phase = .stopped) := by
  unfold reapOne
  cases ht : s.inflight[j.i % s.inflight.length]? with
  | none =>
      have hnil : s.inflight.length = 0 := by
        by_contra hpos
        have hlt := Nat.mod_lt j.i (Nat.pos_of_ne_zero hpos)
        exact absurd hlt (Nat.not_lt.mpr (List.getElem?_eq_none_iff.mp ht))
      exact ⟨by rw [hnil], rfl, rfl, .inl rfl⟩
  | some t =>
      obtain ⟨hlt, -⟩ := List.getElem?_eq_some_iff.mp ht
      have hlen := List.length_eraseIdx_of_lt hlt
      cases hj : j.task t with
      | none =>
          simp only [hj]
          exact ⟨hlen, rfl, rfl, .inr rfl⟩
      | some done =>
          simp only [hj]
          cases hreap : State.reap
              { s with inflight := s.inflight.eraseIdx (j.i % s.inflight.length) } done j.io
              j.forcedIo with
          | none =>
              exact ⟨hlen, rfl, rfl, .inl rfl⟩
          | some s' =>
              have hc := collected_reap hreap
              exact ⟨(congrArg List.length hc.inflight).trans hlen, hc.maxInflight, hc.batch,
                hc.phase⟩

/-- A disk that answers is no error, whatever there is to spool. -/
theorem reap_ok (s : State) (t : Task) :
    ∀ s' ∈ s.reap t .ok .ok, s'.phase = s.phase := by
  have hpush (lines : List Line) :
      ∃ b, (Queue.push size s.queue s.dir lines .ok).1 = .ok b := by
    unfold Queue.push
    split
    · exact ⟨false, rfl⟩
    · exact ⟨true, rfl⟩
  intro s' hs'
  cases t with
  | running lines => cases hs'
  | shipped lines poison =>
      cases hs'
      rfl
  | failed lines e =>
      obtain ⟨b, hb⟩ := hpush lines
      have hs : s.reap (.failed lines e) .ok .ok = some s' := hs'
      unfold State.reap at hs
      dsimp only at hs
      split at hs
      · rename_i heq
        rw [heq] at hb
        cases hb
      · cases hs
        rfl
      · have hforced (q : Queue) (d : Dir (List Line)) :
            (Queue.pushForced size q d lines .ok).1 = .ok true := rfl
        split at hs
        · rename_i heq
          have htrue := congrArg Prod.fst heq
          rw [hforced] at htrue
          cases htrue
        · cases hs
          rfl
        · cases hs
          rfl

/-- Every task is shipped whole, and the disk does its part. -/
def allShipped : Nat → Join := fun _ =>
  { i := 0, ending := .shipped [], io := .ok, forcedIo := .ok }

/-- Then no turn ends with an error. -/
theorem reapOne_allShipped (s : State) : (reapOne s (allShipped turn)).phase = s.phase := by
  unfold reapOne
  cases ht : s.inflight[(allShipped turn).i % s.inflight.length]? with
  | none => rfl
  | some t =>
      obtain ⟨done, hdone⟩ : ∃ done, (allShipped turn).task t = some done := by
        cases t with
        | running lines => exact ⟨_, rfl⟩
        | shipped lines poison => exact ⟨_, rfl⟩
        | failed lines e => exact ⟨_, rfl⟩
      simp only [hdone]
      cases hreap : State.reap
          { s with inflight := s.inflight.eraseIdx ((allShipped turn).i % s.inflight.length) }
          done (allShipped turn).io (allShipped turn).forcedIo with
      | none => rfl
      | some s' =>
          show s'.phase = s.phase
          rw [reap_ok _ done s' hreap]

/-! ## The wait -/

theorem submit_slotted (hphase : s.phase = .flushing after)
    (hslot : ¬ (s.batch ≠ [] ∧ s.maxInflight ≤ s.inflight.length)) :
    ∃ s', submit s = some s' ∧ Slotted s s' := by
  unfold submit
  rw [hphase]
  by_cases hb : s.batch = []
  · exact ⟨_, if_pos hb, .inr (.inl hb)⟩
  · have hfree : s.inflight.length < s.maxInflight := Nat.lt_of_not_le fun h => hslot ⟨hb, h⟩
    simp only [if_neg hb, if_pos hfree]
    refine ⟨_, rfl, .inr (.inr ?_)⟩
    cases after <;> simp only [State.afterFlush, State.go, reduceCtorEq, if_false,
      List.getLast?_concat, List.length_append, List.length_singleton, true_and] <;> omega

/-- **With a slot the wait ends**: what is in flight gets fewer at every turn. -/
theorem flushFrom_slotted (hslots : 0 < s.maxInflight)
    (hphase : s.phase = .flushing after ∨ s.phase = .stopped) :
    ∃ s', flushFrom joins (s.inflight.length + 2) turn s = some s' ∧ Slotted s s' := by
  induction hn : s.inflight.length generalizing s turn with
  | zero =>
      rw [flushFrom]
      by_cases hstop : s.phase = .stopped
      · exact ⟨s, if_pos hstop, .inl hstop⟩
      · have hslot : ¬ (s.batch ≠ [] ∧ s.maxInflight ≤ s.inflight.length) := by omega
        rw [if_neg hstop, if_neg hslot]
        exact submit_slotted (hphase.resolve_right hstop) hslot
  | succ n ih =>
      rw [flushFrom]
      by_cases hstop : s.phase = .stopped
      · exact ⟨s, if_pos hstop, .inl hstop⟩
      · rw [if_neg hstop]
        by_cases hslot : s.batch ≠ [] ∧ s.maxInflight ≤ s.inflight.length
        · rw [if_pos hslot]
          obtain ⟨hlen, hmax, hbatch, hphase'⟩ := reapOne_spec s (joins turn)
          obtain ⟨s', hrun, hs'⟩ : ∃ s', flushFrom joins (n + 2) (turn + 1) (reapOne s (joins turn))
              = some s' ∧ Slotted (reapOne s (joins turn)) s' :=
            ih (hmax ▸ hslots) (hphase'.elim (fun h => h ▸ hphase) .inr) (by omega)
          refine ⟨s', hrun, ?_⟩
          unfold Slotted at hs' ⊢
          rwa [hbatch] at hs'
        · rw [if_neg hslot]
          exact submit_slotted (hphase.resolve_right hstop) hslot

/-- Without a slot the loop never comes to the spawn. -/
theorem flushFrom_none (hnone : s.maxInflight = 0) (hbatch : s.batch ≠ [])
    (hphase : s.phase ≠ .stopped) (fuel : Nat) : flushFrom allShipped fuel turn s = none := by
  induction fuel generalizing s turn with
  | zero => rfl
  | succ fuel ih =>
      rw [flushFrom, if_neg hphase, if_pos ⟨hbatch, by rw [hnone]; exact Nat.zero_le _⟩]
      obtain ⟨-, hmax, hb, -⟩ := reapOne_spec s (allShipped turn)
      exact ih (hmax.trans hnone) (hb ▸ hbatch) (reapOne_allShipped s ▸ hphase)

/-- **`flush` gets a slot**, whatever is in flight and however it ends, exactly if there is
one to get, or no batch that needs one. -/
theorem flush_slotted_iff (s : State) :
    (∀ joins after, ∃ fuel s', flush joins after fuel s = some s' ∧ Slotted s s')
      ↔ s.batch = [] ∨ 0 < s.maxInflight := by
  constructor
  · intro h
    by_contra hnot
    rw [not_or] at hnot
    obtain ⟨fuel, s', hflush, -⟩ := h allShipped .read
    have hnone : flushFrom allShipped fuel 0 { s with phase := .flushing .read } = none := by
      apply flushFrom_none
      · exact Nat.eq_zero_of_not_pos hnot.2
      · exact hnot.1
      · exact Phase.noConfusion
    rw [flush, hnone] at hflush
    cases hflush
  · rintro (hb | hpos) joins after
    · refine ⟨1, { s with phase := .flushing after }.afterFlush after, ?_, .inr (.inl hb)⟩
      rw [flush, flushFrom, if_neg Phase.noConfusion, if_neg fun h => h.1 hb]
      exact if_pos hb
    · obtain ⟨s', hflush, hs'⟩ : ∃ s', flushFrom joins (s.inflight.length + 2) 0
          { s with phase := .flushing after } = some s'
            ∧ Slotted { s with phase := .flushing after } s' :=
        flushFrom_slotted hpos (.inl rfl)
      exact ⟨_, s', hflush, hs'⟩

/-! ## Which numbers of slots there are -/

/-- A number of slots a source comes to run with: of the file it was started on, or of one
it took over at a reload. -/
inductive Admissible (p : Tributary.Config.Platform) : Nat → Prop
  | start {f cfg : Tributary.Config.File} (h : Tributary.Config.load p f = .ok cfg) :
      Admissible p cfg.output.maxInflight
  | reload {f new current : Tributary.Config.File} {source : Tributary.Config.SourceTable}
      {r r' : Tributary.Config.Reload.Reloadable} {report : Tributary.Config.Reload.ReloadReport}
      (hload : Tributary.Config.load p f = .ok new)
      (h : Tributary.Config.Reload.applyReload p source current new r = some (report, r')) :
      Admissible p r'.maxInflight

/-- A file without slots. -/
def slotless : Tributary.Config.File :=
  { Tributary.Config.fileOf [Tributary.Config.tailOf "a" none] with
    output := { (Tributary.Config.fileOf []).output with maxInflight := 0 } }

theorem load_slotless :
    Tributary.Config.load Tributary.Config.bareHost.toPlatform slotless = .ok slotless := by
  decide +kernel

/-- A source without slots that ships each line alone. -/
def slotlessConfig : Config := { plainConfig 1 0 with maxInflight := 0 }

/-- The source has read the line of its file and is to ship it. -/
theorem slotless_reads :
    ∃ s₀ s, start slotlessConfig (oneFile "up\n".toList) none nothingQueued = some s₀
      ∧ run (step slotlessConfig) s₀ [.drained .ok, .next 5 0] = some s
      ∧ s.phase = .flushing .read ∧ s.maxInflight = 0 ∧ s.batch.map (·.ids) = [[0]] :=
  ⟨_, _, rfl, rfl, by decide +kernel, by decide +kernel, by decide +kernel⟩

/-- A file may say that there are none, and then `flush` waits for ever. -/
theorem no_slot_admissible :
    ¬ ∀ (p : Tributary.Config.Platform) (s : State), Admissible p s.maxInflight →
      ∀ joins after, ∃ fuel s', flush joins after fuel s = some s' ∧ Slotted s s' := by
  intro h
  obtain ⟨-, s, -, -, -, hmax, hids⟩ := slotless_reads
  have hadmissible : Admissible Tributary.Config.bareHost.toPlatform s.maxInflight :=
    hmax ▸ .start load_slotless
  obtain ⟨fuel, s', hflush, -⟩ := h _ s hadmissible allShipped .read
  have hnone : flushFrom allShipped fuel 0 { s with phase := .flushing .read } = none := by
    apply flushFrom_none
    · exact hmax
    · rintro hnil
      rw [show s.batch = [] from hnil] at hids
      cases hids
    · exact Phase.noConfusion
  rw [flush, hnone] at hflush
  cases hflush

end Tributary.FileSource
