import Mathlib.Algebra.Order.BigOperators.Group.List
import Mathlib.Tactic.Ring
import Tributary.FileSource.Ledger

/-!
# How much a lost node takes with it

What is in the batch and in flight is in this process's memory only. A full batch
is flushed behind the record that fills it, unless the framer holds the start of
another record; then the batch grows on for as long as lines keep coming.
-/

namespace Tributary.FileSource

open Lib Queue Ship Stamp Tail Map Transform

variable {c : Config} {s s' : State} {l : Line}

namespace State

/-- The records in memory: the batch and the batches in flight. -/
def exposed (s : State) : Nat := s.batch.length + (s.inflight.map fun t => t.lines.length).sum

/-- A record that is built finds room in the batch. -/
def roomy (c : Config) (s : State) (e : Event) : Bool :=
  match s.completed c e with
  | some (line, nowNs) =>
      match s.built c line nowNs with
      | .ok (.ready _ _) => decide (s.batch.length < s.batchLines)
      | _ => true
  | none => true

/-- No record joins a batch that has `batch_lines` records already. -/
def Roomy (c : Config) (s : State) (e : Event) : Prop := s.roomy c e = true

instance : DecidableRel (Roomy c) := fun s e => inferInstanceAs (Decidable (s.roomy c e = true))

theorem Roomy.lt {e : Event} (h : s.Roomy c e) {line : Chunk} {nowNs : Int} {record : Lp.Record}
    {ts : Int} (hdone : s.completed c e = some (line, nowNs))
    (hbuilt : s.built c line nowNs = .ok (.ready record ts)) : s.batch.length < s.batchLines := by
  rw [Roomy, roomy, hdone] at h
  simpa [hbuilt] using h

/-! ## The knobs -/

/-- What a reload may retune. -/
def knobs (s : State) : Nat × Nat := (s.batchLines, s.maxInflight)

theorem go_knobs (s : State) (phase : Phase) : (s.go phase).knobs = s.knobs := by
  rw [go]
  split <;> rfl

theorem leaveDrain_knobs (s : State) (final : Bool) : (s.leaveDrain final).knobs = s.knobs := by
  cases final with
  | true => exact go_knobs s _
  | false => exact go_knobs { s with idle := true } _

theorem afterFlush_knobs (s : State) (after : After) : (s.afterFlush after).knobs = s.knobs := by
  cases after <;> exact go_knobs s _

theorem saveCheckpoint_knobs (s : State) (io : Io) : (s.saveCheckpoint io).knobs = s.knobs := by
  unfold saveCheckpoint
  split
  · rfl
  · split
    · rfl
    · split <;> rfl

theorem take_knobs (c : Config) (s : State) (line : Chunk) (nowNs : Int) :
    (s.take c line nowNs).knobs = s.knobs := by
  unfold take
  dsimp only
  split
  · split <;> rfl
  · rfl
  · rename_i stage _
    cases stage <;> rfl
  · rfl

theorem takeLast_knobs (c : Config) (s : State) (line : Chunk) (nowNs : Int) :
    (s.takeLast c line nowNs).knobs = s.knobs := by
  unfold takeLast
  dsimp only
  split
  · split <;> rfl
  · rename_i stage _
    cases stage <;> rfl
  · rfl
  · rfl

end State

theorem writeWatermark_knobs (s : State) (nowNs : Int) :
    (writeWatermark s nowNs).knobs = s.knobs := by
  rw [writeWatermark]
  split <;> rfl

/-- The event leaves the knobs as they are configured. -/
def Event.Fixed (c : Config) : Event → Prop
  | .reload _ batchLines maxInflight => batchLines = c.batchLines ∧ maxInflight = c.maxInflight
  | _ => True

theorem step_knobs {e : Event} (hcore : Core s) (hfixed : e.Fixed c)
    (hknobs : s.knobs = (c.batchLines, c.maxInflight)) (h : step c s e = some s') :
    s'.knobs = (c.batchLines, c.maxInflight) := by
  suffices hsame : s'.knobs = s.knobs ∨ s'.knobs = (c.batchLines, c.maxInflight) by
    exact hsame.elim (·.trans hknobs) id
  obtain ⟨live, hst⟩ := hcore.stored
  unfold step at h
  split at h
  · cases h
  cases e with
  | files fs =>
      cases h
      exact .inl rfl
  | finish i sched =>
      obtain ⟨lines, acked, t, -, -, -, rfl⟩ := finish_cases h
      exact .inl rfl
  | land io sched =>
      obtain ⟨drained, final, body, rest, -, -, hlanded⟩ := land_cases hst h
      cases hlanded with
      | kept => exact .inl (State.leaveDrain_knobs _ final)
      | _ => exact .inl rfl
  | ship sched =>
      obtain ⟨drained, final, x, rest, -, -, -, ⟨acked, poison, -, rfl⟩ | ⟨acked, rfl⟩⟩ :=
        ship_cases hst h
      · exact .inl rfl
      · exact .inl (State.leaveDrain_knobs _ final)
  | drained io =>
      obtain ⟨drained, final, -, -, rfl⟩ := drained_cases h
      refine .inl ((State.leaveDrain_knobs _ final).trans ?_)
      cases drained
      · rfl
      · exact State.saveCheckpoint_knobs s io
  | next nowNs nowMs =>
      cases (next_cases h).2 with
      | idle tailer => exact .inl (State.go_knobs _ _)
      | buffered tailer framer => exact .inl rfl
      | refused tailer line e => exact .inl rfl
      | completed tailer framer record => exact .inl (State.take_knobs c _ record nowNs)
      | full tailer framer record =>
          exact .inl ((State.go_knobs _ _).trans (State.take_knobs c _ record nowNs))
  | expire nowNs nowMs order =>
      obtain ⟨framer, out, -, ⟨-, rfl⟩ | ⟨record, -, -, rfl⟩⟩ := expire_cases h
      · exact .inl (State.go_knobs _ _)
      · exact .inl ((State.go_knobs _ _).trans (State.take_knobs c _ record nowNs))
  | time due =>
      rcases time_cases h with ⟨-, rfl⟩ | rfl
      · exact .inl (State.go_knobs _ _)
      · exact .inl (State.go_knobs _ _)
  | submit =>
      obtain ⟨after, -, ⟨-, rfl⟩ | ⟨-, rfl⟩⟩ := submit_cases h
      · exact .inl (State.afterFlush_knobs s after)
      · exact .inl (State.afterFlush_knobs s.submitted after)
  | reap i io forcedIo =>
      obtain ⟨task, -, hreaped⟩ := reap_cases hst h
      cases hreaped <;> exact .inl rfl
  | settle io =>
      obtain ⟨final, -, -, rfl⟩ := settle_cases h
      exact .inl ((State.go_knobs _ _).trans (State.saveCheckpoint_knobs s io))
  | publish due nowNs =>
      obtain ⟨base, hbase, hs'⟩ := publish_cases h
      have hbase : base.knobs = s.knobs := by
        rcases hbase with rfl | rfl
        · rfl
        · exact writeWatermark_knobs s nowNs
      rcases hs' with rfl | rfl
      · exact .inl hbase
      · exact .inl ((State.go_knobs _ _).trans hbase)
  | reload rules batchLines maxInflight =>
      dsimp only at h
      split at h
      · cases h
        exact .inr (Prod.ext hfixed.1 hfixed.2)
      · cases h
  | again shutdown =>
      rcases again_cases h with rfl | rfl
      · exact .inl (State.go_knobs _ _)
      · exact .inl (State.go_knobs _ _)
  | unframe nowNs order =>
      obtain ⟨-, ⟨framer, -, -, rfl⟩ | ⟨framer, record, -, -, rfl⟩⟩ := unframe_cases h
      · exact .inl (State.go_knobs _ _)
      · exact .inl (State.takeLast_knobs c _ record nowNs)
  | die =>
      cases h
      exact .inl rfl

/-! ## What a step does to the batch and to the batches in flight -/

/-- The moves of records in memory. -/
inductive Loads (c : Config) (s : State) (e : Event) (s' : State) : Prop where
  | same (hbatch : s'.batch = s.batch) (hinflight : s'.inflight = s.inflight)
  | joined (l : Line) (line : Chunk) (nowNs : Int) (record : Lp.Record)
      (hdone : s.completed c e = some (line, nowNs))
      (hbuilt : s.built c line nowNs = .ok (.ready record l.ts))
      (hbatch : s'.batch = s.batch ++ [l]) (hinflight : s'.inflight = s.inflight)
  | finished (i : Nat) (lines : List Line) (t : Task) (hi : s.inflight[i]? = some (.running lines))
      (ht : t.lines = lines) (hbatch : s'.batch = s.batch)
      (hinflight : s'.inflight = s.inflight.set i t)
  | collected (i : Nat) (task : Task) (hi : s.inflight[i]? = some task)
      (hbatch : s'.batch = s.batch) (hinflight : s'.inflight = s.inflight.eraseIdx i)
  | submitted (hsome : s.batch ≠ []) (hroom : s.inflight.length < s.maxInflight)
      (hbatch : s'.batch = []) (hinflight : s'.inflight = s.inflight ++ [.running s.batch])

theorem Quiet.loads {e : Event} (h : Quiet s s') : Loads c s e s' := .same h.batch h.inflight

/-- A step on from where a record was taken. -/
theorem Loads.go {e : Event} {t : State} (h : Loads c s e t) (phase : Phase) :
    Loads c s e (t.go phase) := by
  have hq := (still_go t phase).toQuiet
  cases h with
  | same hbatch hinflight => exact .same (hq.batch.trans hbatch) (hq.inflight.trans hinflight)
  | joined l line nowNs record hdone hbuilt hbatch hinflight =>
      exact .joined l line nowNs record hdone hbuilt (hq.batch.trans hbatch)
        (hq.inflight.trans hinflight)
  | finished i lines t hi ht hbatch hinflight =>
      exact .finished i lines t hi ht (hq.batch.trans hbatch) (hq.inflight.trans hinflight)
  | collected i task hi hbatch hinflight =>
      exact .collected i task hi (hq.batch.trans hbatch) (hq.inflight.trans hinflight)
  | submitted hsome hroom hbatch hinflight =>
      exact .submitted hsome hroom (hq.batch.trans hbatch) (hq.inflight.trans hinflight)

/-- A record joins the batch if it is built, and nothing moves otherwise. -/
theorem Took.loads {e : Event} {base t : State} {line : Chunk} {nowNs : Int}
    (ht : Took base line (s.built c line nowNs) t) (hbatch : base.batch = s.batch)
    (hinflight : base.inflight = s.inflight) (hdone : s.completed c e = some (line, nowNs)) :
    Loads c s e t := by
  cases ht with
  | enlisted base' l record hb hbuilt =>
      exact .joined l line nowNs record hdone hbuilt
        (congrArg (· ++ [l]) (hb.batch.trans hbatch)) (hb.inflight.trans hinflight)
  | unencodable base' l reason hb =>
      exact .same (hb.batch.trans hbatch) (hb.inflight.trans hinflight)
  | refused base' reason hb => exact .same (hb.batch.trans hbatch) (hb.inflight.trans hinflight)
  | dropped base' hb => exact .same (hb.batch.trans hbatch) (hb.inflight.trans hinflight)

theorem loads_next {nowNs : Int} {nowMs : Nat} (h : next c s nowNs nowMs = some s') :
    Loads c s (.next nowNs nowMs) s' := by
  cases (next_cases h).2 with
  | idle tailer =>
      have hsame : Loads c s (.next nowNs nowMs) { s with tailer } := .same rfl rfl
      exact hsame.go _
  | buffered tailer framer => exact .same rfl rfl
  | refused tailer line e => exact .same rfl rfl
  | completed tailer framer record hids hdone =>
      have ht : Took (s.handed tailer framer) record (s.built c record nowNs) _ :=
        took_take c (s.handed tailer framer) record nowNs
      exact ht.loads rfl rfl hdone
  | full tailer framer record hids hdone =>
      have ht : Took (s.handed tailer framer) record (s.built c record nowNs) _ :=
        took_take c (s.handed tailer framer) record nowNs
      exact Loads.go (ht.loads rfl rfl hdone) _

theorem loads_expire {nowNs : Int} {nowMs : Nat} {order : List Text}
    (h : expire c s nowNs nowMs order = some s') : Loads c s (.expire nowNs nowMs order) s' := by
  obtain ⟨framer, out, -, ⟨-, rfl⟩ | ⟨record, -, hdone, rfl⟩⟩ := expire_cases h
  · have hsame : Loads c s (.expire nowNs nowMs order) { s with framer } := .same rfl rfl
    exact hsame.go _
  · have ht : Took { s with framer } record (s.built c record nowNs) _ :=
      took_take c { s with framer } record nowNs
    exact Loads.go (ht.loads rfl rfl hdone) _

theorem loads_unframe {nowNs : Int} {order : List Text} (h : unframe c s nowNs order = some s') :
    Loads c s (.unframe nowNs order) s' := by
  obtain ⟨-, ⟨framer, -, -, rfl⟩ | ⟨framer, record, hdrain, -, rfl⟩⟩ := unframe_cases h
  · have hsame : Loads c s (.unframe nowNs order) { s with framer } := .same rfl rfl
    exact hsame.go _
  · have hdone : s.completed c (.unframe nowNs order) = some (record, nowNs) := by
      simp [State.completed, hdrain]
    rcases took_takeLast c { s with framer } record nowNs with ht | hl
    · have ht : Took { s with framer } record (s.built c record nowNs) _ := ht
      exact ht.loads rfl rfl hdone
    · generalize State.takeLast c { s with framer } record nowNs = t at hl ⊢
      cases hl with
      | unencodable base l record e hb => exact .same hb.batch hb.inflight
      | unbuilt base e hb => exact .same hb.batch hb.inflight

theorem loads_submit (h : submit s = some s') : Loads c s .submit s' := by
  unfold submit at h
  split at h
  · rename_i after hphase
    split at h
    · cases h
      exact Quiet.loads (still_afterFlush s after).toQuiet
    · rename_i hsome
      split at h
      · rename_i hroom
        cases h
        have hq := (still_afterFlush s.submitted after).toQuiet
        exact .submitted hsome hroom hq.batch hq.inflight
      · cases h
  · cases h

/-- **What a step does to the records in memory.** -/
theorem step_loads {e : Event} (hcore : Core s) (h : step c s e = some s') : Loads c s e s' := by
  by_cases hhandles : e.handles = false
  · exact (step_quiet h hhandles).loads
  obtain ⟨live, hst⟩ := hcore.stored
  unfold step at h
  split at h
  · cases h
  cases e with
  | finish i sched =>
      obtain ⟨lines, acked, t, hi, ht, -, rfl⟩ := finish_cases h
      exact .finished i lines t hi ht rfl rfl
  | land io sched =>
      obtain ⟨drained, final, body, rest, -, -, hlanded⟩ := land_cases hst h
      cases hlanded with
      | kept at_ e acked =>
          have hq := (still_leaveDrain { s.pause with acked := s.acked ++ acked } final).toQuiet
          exact .same hq.batch hq.inflight
      | _ => exact .same rfl rfl
  | ship sched =>
      obtain ⟨drained, final, x, rest, -, -, -, ⟨acked, poison, -, rfl⟩ | ⟨acked, rfl⟩⟩ :=
        ship_cases hst h
      · exact .same rfl rfl
      · have hq := (still_leaveDrain { s with acked := s.acked ++ acked } final).toQuiet
        exact .same hq.batch hq.inflight
  | next nowNs nowMs => exact loads_next h
  | expire nowNs nowMs order => exact loads_expire h
  | submit => exact loads_submit h
  | reap i io forcedIo =>
      obtain ⟨task, hi, hreaped⟩ := reap_cases hst h
      cases hreaped <;> exact .collected i _ hi rfl rfl
  | unframe nowNs order => exact loads_unframe h
  | _ => exact absurd rfl hhandles

/-! ## The bound -/

/-- The batch and every batch in flight have their limit, and there are no more in
flight than may be. -/
structure Within (c : Config) (s : State) : Prop where
  core : Core s
  knobs : s.knobs = (c.batchLines, c.maxInflight)
  batch : s.batch.length ≤ c.batchLines
  tasks : ∀ t ∈ s.inflight, t.lines.length ≤ c.batchLines
  inflight : s.inflight.length ≤ c.maxInflight

/-- **The bound**: one batch more than may be in flight. -/
theorem Within.exposed (h : Within c s) : s.exposed ≤ c.batchLines * (1 + c.maxInflight) := by
  have hsum : (s.inflight.map fun t => t.lines.length).sum ≤ s.inflight.length * c.batchLines := by
    have hle := List.sum_le_card_nsmul (s.inflight.map fun t => t.lines.length) c.batchLines
    rw [List.length_map, Nat.nsmul_eq_mul] at hle
    refine hle fun n hn => ?_
    obtain ⟨t, ht, rfl⟩ := List.mem_map.mp hn
    exact h.tasks t ht
  calc s.exposed ≤ c.batchLines + s.inflight.length * c.batchLines :=
        Nat.add_le_add h.batch hsum
    _ ≤ c.batchLines + c.maxInflight * c.batchLines :=
        Nat.add_le_add_left (Nat.mul_le_mul_right _ h.inflight) _
    _ = c.batchLines * (1 + c.maxInflight) := by ring

theorem Within.step {e : Event} (h : Within c s) (hfixed : e.Fixed c) (hok : s.Roomy c e)
    (hstep : FileSource.step c s e = some s') : Within c s' := by
  have hcore := (step_durable h.core hstep).core h.core
  have hknobs := step_knobs h.core hfixed h.knobs hstep
  have hsize : s.batchLines = c.batchLines := congrArg Prod.fst h.knobs
  have hslots : s.maxInflight = c.maxInflight := congrArg Prod.snd h.knobs
  cases step_loads h.core hstep with
  | same hbatch hinflight =>
      exact ⟨hcore, hknobs, hbatch ▸ h.batch, hinflight ▸ h.tasks, hinflight ▸ h.inflight⟩
  | joined l line nowNs record hdone hbuilt hbatch hinflight =>
      have hroom := hok.lt hdone hbuilt
      refine ⟨hcore, hknobs, ?_, hinflight ▸ h.tasks, hinflight ▸ h.inflight⟩
      rw [hbatch, List.length_append, List.length_singleton, ← hsize]
      exact hroom
  | finished i lines t hi ht hbatch hinflight =>
      refine ⟨hcore, hknobs, hbatch ▸ h.batch, ?_, ?_⟩
      · intro t' ht'
        rw [hinflight] at ht'
        rcases List.mem_or_eq_of_mem_set ht' with hmem | rfl
        · exact h.tasks t' hmem
        · rw [ht]
          exact h.tasks _ (List.mem_of_getElem? hi)
      · rw [hinflight, List.length_set]
        exact h.inflight
  | collected i task hi hbatch hinflight =>
      refine ⟨hcore, hknobs, hbatch ▸ h.batch, ?_, ?_⟩
      · intro t ht
        rw [hinflight] at ht
        exact h.tasks t (List.mem_of_mem_eraseIdx ht)
      · rw [hinflight]
        exact Nat.le_trans (List.length_eraseIdx_le ..) h.inflight
  | submitted hsome hroom hbatch hinflight =>
      refine ⟨hcore, hknobs, hbatch ▸ Nat.zero_le _, ?_, ?_⟩
      · intro t ht
        rw [hinflight] at ht
        rcases List.mem_append.mp ht with ht | ht
        · exact h.tasks t ht
        · rw [List.mem_singleton.mp ht]
          exact h.batch
      · rw [hinflight, List.length_append, List.length_singleton, ← hslots]
        exact hroom

theorem Within.start {fs : Fs} {restored : Option Checkpoint} {adopted : Adopted}
    (h : FileSource.start c fs restored adopted = some s) : Within c s := by
  have hcore := start_core h
  obtain ⟨tailer, -, rfl⟩ := Option.map_eq_some_iff.mp h
  exact ⟨hcore, rfl, Nat.zero_le _, by simp, Nat.zero_le _⟩

/-- **Exposure is bounded** in every run in which no record joins a batch that is
full. -/
theorem exposure_bounded {fs : Fs} {restored : Option Checkpoint} {adopted : Adopted} {s₀ : State}
    {es : List Event} (hstart : start c fs restored adopted = some s₀)
    (hfixed : ∀ e ∈ es, e.Fixed c) (hok : Meets (step c) (State.Roomy c) s₀ es)
    (hrun : run (step c) s₀ es = some s) : s.exposed ≤ c.batchLines * (1 + c.maxInflight) := by
  have hknobs : Meets (step c) (fun _ e => e.Fixed c) s₀ es := .of_forall fun e he _ => hfixed e he
  have hboth := hknobs.and hok
  have hwithin : Within c s := run_invariant
    (fun _ _ _ h hok hstep => Within.step h hok.1 hok.2 hstep) (Within.start hstart) hboth hrun
  exact hwithin.exposed

/-! ## A framer that holds nothing back -/

/-- A flush goes on until the batch is gone. -/
theorem flushing_stays {e : Event} {after : After} (hcore : Core s)
    (hphase : s.phase = .flushing after) (h : step c s e = some s') :
    s'.phase = .flushing after ∨ s'.phase = .stopped ∨ s'.batch = [] := by
  obtain ⟨live, hst⟩ := hcore.stored
  unfold step at h
  split at h
  · cases h
  cases e with
  | files fs =>
      cases h
      exact .inl hphase
  | finish i sched =>
      obtain ⟨lines, acked, t, -, -, -, rfl⟩ := finish_cases h
      exact .inl hphase
  | submit =>
      obtain ⟨after, -, ⟨hbatch, rfl⟩ | ⟨-, rfl⟩⟩ := submit_cases h
      · exact .inr (.inr ((still_afterFlush s after).batch.trans hbatch))
      · exact .inr (.inr (still_afterFlush s.submitted after).batch)
  | reap i io forcedIo =>
      obtain ⟨task, -, hreaped⟩ := reap_cases hst h
      cases hreaped with
      | failed => exact .inr (.inl rfl)
      | stopped => exact .inr (.inl rfl)
      | _ => exact .inl hphase
  | die =>
      cases h
      exact .inr (.inl rfl)
  | _ => simp [land, ship, drained, next, expire, time, settle, publish, again, unframe, hphase] at h

/-- A joiner without a pattern gives back the line it is given, and nothing else. -/
structure Transparent (f : Framer) : Prop where
  push : ∀ libs line now, f.push libs line now = (.ok (some line), f)
  expire : ∀ libs now order, f.expire libs now order = (none, f)
  drain : ∀ libs order, f.drain libs order = (none, f)
  pending : f.hasPending = false

theorem transparent_joiner {j : Joiner} (hstart : j.start = none) (hbuf : j.buf = []) :
    Transparent (.multiline j) := by
  have hpending : (Framer.multiline j).hasPending = false := by
    simp [Framer.hasPending, Joiner.hasPending, hbuf]
  exact ⟨fun libs line now => by simp [Framer.push, Joiner.push, hstart],
    fun _ now order => (Framer.idle_of_not_pending hpending now order).1,
    fun _ order => (Framer.idle_of_not_pending hpending 0 order).2, hpending⟩

/-- Every line is a record of its own, and a batch that is full is being flushed. -/
structure Unbuffered (c : Config) (s : State) : Prop where
  core : Core s
  knobs : s.knobs = (c.batchLines, c.maxInflight)
  framer : Transparent s.framer
  batch : s.phase = .stopped ∨ (∃ after, s.phase = .flushing after) ∨ s.batch.length < c.batchLines

/-- Only a line that is read completes a record. -/
theorem Unbuffered.completed {e : Event} {line : Chunk} {nowNs : Int} (h : Unbuffered c s)
    (hdone : s.completed c e = some (line, nowNs)) : ∃ nowMs, e = .next nowNs nowMs := by
  cases e with
  | next nowNs' nowMs =>
      obtain ⟨raw, -, hdone⟩ := Option.bind_eq_some_iff.mp hdone
      split at hdone
      · obtain ⟨line', -, heq⟩ := Option.map_eq_some_iff.mp hdone
        cases heq
        exact ⟨nowMs, rfl⟩
      · cases hdone
  | expire nowNs' nowMs order => simp [State.completed, h.framer.expire] at hdone
  | unframe nowNs' order => simp [State.completed, h.framer.drain] at hdone
  | _ => cases hdone

theorem Unbuffered.short {phase : Phase} (h : Unbuffered c s) (hphase : s.phase = phase)
    (hrun : phase ≠ .stopped) (hflush : ∀ after, phase ≠ .flushing after) :
    s.batch.length < c.batchLines := by
  rcases h.batch with hp | ⟨after, hp⟩ | hb
  · exact absurd (hphase.symm.trans hp) hrun
  · exact absurd (hphase.symm.trans hp) (hflush after)
  · exact hb

theorem Unbuffered.roomy {e : Event} (h : Unbuffered c s) (hstep : step c s e = some s') :
    s.Roomy c e := by
  cases hdone : s.completed c e with
  | none => simp [State.Roomy, State.roomy, hdone]
  | some p =>
      obtain ⟨nowMs, rfl⟩ := h.completed hdone
      unfold step at hstep
      split at hstep
      · cases hstep
      have hlt := h.short (next_cases hstep).1 (by simp) (by simp)
      have hsize : s.batchLines = c.batchLines := congrArg Prod.fst h.knobs
      rw [State.Roomy, State.roomy, hdone]
      simp only [hsize, hlt, decide_true]
      split <;> rfl

/-- A line that fills the batch is followed by a flush. -/
theorem Unbuffered.next {nowNs : Int} {nowMs : Nat} (h : Unbuffered c s)
    (hstep : FileSource.next c s nowNs nowMs = some s')
    (hknobs : s'.knobs = (c.batchLines, c.maxInflight)) :
    s'.framer = s.framer
      ∧ ((∃ after, s'.phase = .flushing after) ∨ s'.batch.length < c.batchLines) := by
  have hreading := (next_cases hstep).1
  have hlt := h.short hreading (by simp) (by simp)
  have hsize : s'.batchLines = c.batchLines := congrArg Prod.fst hknobs
  unfold FileSource.next at hstep
  split at hstep
  · cases hstep
  split at hstep
  · cases hstep
    refine ⟨(still_go s _).framer, .inr ?_⟩
    rw [(still_go s _).batch]
    exact hlt
  split at hstep
  · rename_i tailer _
    cases hstep
    refine ⟨(still_go { s with tailer } _).framer, .inr ?_⟩
    rw [(still_go { s with tailer } _).batch]
    exact hlt
  rename_i raw tailer _
  simp only [h.framer.push] at hstep
  generalize hat : State.take c _ _ nowNs = t at hstep
  have hframer : t.framer = s.framer := by
    rw [← hat]
    exact (took_take c _ _ nowNs).framer
  have hphase : t.phase = .reading := by
    rw [← hat, (took_take c _ _ nowNs).phase]
    exact hreading
  split at hstep
  · cases hstep
    refine ⟨(still_go t _).framer.trans hframer, .inl ⟨.read, ?_⟩⟩
    rw [State.go, if_neg (by simp [hphase])]
  · rename_i hopen
    cases hstep
    refine ⟨hframer, .inr ?_⟩
    rw [hframer, h.framer.pending, hsize] at hopen
    simpa using hopen

theorem Unbuffered.expire {nowNs : Int} {nowMs : Nat} {order : List Text} (h : Unbuffered c s)
    (hstep : FileSource.expire c s nowNs nowMs order = some s') :
    s'.framer = s.framer ∧ s'.batch.length < c.batchLines := by
  unfold FileSource.expire at hstep
  split at hstep
  · cases hstep
  rename_i hphase
  simp only [h.framer.expire, Option.some.injEq] at hstep
  subst hstep
  refine ⟨(still_go s _).framer, ?_⟩
  rw [(still_go _ _).batch]
  exact h.short (not_not.mp hphase) (by simp) (by simp)

theorem Unbuffered.unframe {nowNs : Int} {order : List Text} (h : Unbuffered c s)
    (hstep : FileSource.unframe c s nowNs order = some s') :
    s'.framer = s.framer ∧ s'.batch.length < c.batchLines := by
  unfold FileSource.unframe at hstep
  split at hstep
  · cases hstep
  rename_i hphase
  simp only [h.framer.drain, Option.some.injEq] at hstep
  subst hstep
  refine ⟨(still_go s _).framer, ?_⟩
  rw [(still_go _ _).batch]
  exact h.short (not_not.mp hphase) (by simp) (by simp)

/-- A step keeps a full batch to the flush that is under way. -/
theorem Unbuffered.step {e : Event} (hpos : 0 < c.batchLines) (h : Unbuffered c s)
    (hfixed : e.Fixed c) (hstep : FileSource.step c s e = some s') : Unbuffered c s' := by
  have hcore := (step_durable h.core hstep).core h.core
  have hknobs := step_knobs h.core hfixed h.knobs hstep
  by_cases hfeeds : e.feeds = false
  · refine ⟨hcore, hknobs, (step_same h.core hstep hfeeds).framer ▸ h.framer, ?_⟩
    have hbatch : s'.batch = s.batch ∨ s'.batch = [] := by
      cases step_loads h.core hstep with
      | same hbatch => exact .inl hbatch
      | joined l line nowNs record hdone =>
          obtain ⟨nowMs, rfl⟩ := h.completed hdone
          cases hfeeds
      | finished i lines t hi ht hbatch => exact .inl hbatch
      | collected i task hi hbatch => exact .inl hbatch
      | submitted hsome hroom hbatch => exact .inr hbatch
    rcases hbatch with hbatch | hbatch
    · rcases h.batch with hp | ⟨after, hp⟩ | hlt
      · exact absurd hp (running_of_step hstep)
      · rcases flushing_stays h.core hp hstep with hp' | hp' | hnil
        · exact .inr (.inl ⟨after, hp'⟩)
        · exact .inl hp'
        · exact .inr (.inr (hnil ▸ hpos))
      · exact .inr (.inr (hbatch ▸ hlt))
    · exact .inr (.inr (hbatch ▸ hpos))
  · unfold FileSource.step at hstep
    split at hstep
    · cases hstep
    cases e with
    | next nowNs nowMs =>
        obtain ⟨hframer, hbatch⟩ := h.next hstep hknobs
        exact ⟨hcore, hknobs, hframer ▸ h.framer, .inr hbatch⟩
    | expire nowNs nowMs order =>
        obtain ⟨hframer, hbatch⟩ := h.expire hstep
        exact ⟨hcore, hknobs, hframer ▸ h.framer, .inr (.inr hbatch)⟩
    | unframe nowNs order =>
        obtain ⟨hframer, hbatch⟩ := h.unframe hstep
        exact ⟨hcore, hknobs, hframer ▸ h.framer, .inr (.inr hbatch)⟩
    | _ => exact absurd rfl hfeeds

/-- **Without a multiline pattern exposure is bounded in every run.** -/
theorem exposure_bounded_plain_lines {fs : Fs} {restored : Option Checkpoint} {adopted : Adopted}
    {s₀ : State} {es : List Event}
    (hparser : Framer.ofParser c.source.parser c.joiner = .multiline c.joiner)
    (hpattern : c.joiner.start = none) (hbuf : c.joiner.buf = []) (hpos : 0 < c.batchLines)
    (hstart : start c fs restored adopted = some s₀) (hfixed : ∀ e ∈ es, e.Fixed c)
    (hrun : run (step c) s₀ es = some s) : s.exposed ≤ c.batchLines * (1 + c.maxInflight) := by
  have hframer : Transparent (.ofParser c.source.parser c.joiner) :=
    hparser ▸ transparent_joiner hpattern hbuf
  have hstart' : Unbuffered c s₀ ∧ Within c s₀ := by
    refine ⟨?_, Within.start hstart⟩
    have hcore := start_core hstart
    obtain ⟨tailer, -, rfl⟩ := Option.map_eq_some_iff.mp hstart
    exact ⟨hcore, rfl, hframer, .inr (.inr hpos)⟩
  have hknobs : Meets (step c) (fun _ e => e.Fixed c) s₀ es := .of_forall fun e he _ => hfixed e he
  have hkeep : ∀ s e t, Unbuffered c s ∧ Within c s → e.Fixed c → step c s e = some t →
      Unbuffered c t ∧ Within c t := fun _ _ _ h hok hstep =>
    ⟨h.1.step hpos hok hstep, h.2.step hok (h.1.roomy hstep) hstep⟩
  exact (run_invariant hkeep hstart' hknobs hrun).2.exposed

/-! ## Lines that each start a record -/

/-- Every line matches the pattern of the joiner. -/
def eagerConfig : Config :=
  { plainConfig 1 1000 with
    libs := { asciiLibs with isMatch := fun _ _ => true }
    joiner := Joiner.new (some ['.']) 500 65536 1000 }

/-- A pass that reads lines and does nothing else. -/
def readPass (n : Nat) : List Event := .drained .ok :: List.replicate n (.next 5 0)

theorem exposure_bounded_plain :
    ∃ s₀ s, start (plainConfig 1 1000) (oneFile "a\nb\n".toList) none nothingQueued = some s₀
      ∧ run (step (plainConfig 1 1000)) s₀ (readPass 1 ++ [.submit, .next 5 0]) = some s
      ∧ s.exposed = 2 ∧ s.exposed ≤ (plainConfig 1 1000).batchLines * (1 + 1) := by
  have hrun : ∃ s₀ s, start (plainConfig 1 1000) (oneFile "a\nb\n".toList) none nothingQueued
      = some s₀ ∧ run (step (plainConfig 1 1000)) s₀ (readPass 1 ++ [.submit, .next 5 0]) = some s
      ∧ s.exposed = 2
      ∧ Meets (step (plainConfig 1 1000)) (State.Roomy (plainConfig 1 1000)) s₀
          (readPass 1 ++ [.submit, .next 5 0]) := by
    refine ⟨_, _, rfl, rfl, rfl, ?_⟩
    decide +kernel
  obtain ⟨s₀, s, hstart, hrun, hexposed, hok⟩ := hrun
  exact ⟨s₀, s, hstart, hrun, hexposed,
    exposure_bounded hstart (by simp [readPass, Event.Fixed]) hok hrun⟩

/-- The next record is always under way, so the batch of one line is never flushed. -/
theorem exposure_unbounded :
    ∃ s₀ s, start eagerConfig (oneFile "a\na\na\na\n".toList) none nothingQueued = some s₀
      ∧ run (step eagerConfig) s₀ (readPass 4) = some s
      ∧ ¬ s.exposed ≤ eagerConfig.batchLines * (1 + eagerConfig.maxInflight) :=
  ⟨_, _, rfl, rfl, by decide +kernel⟩

end Tributary.FileSource
