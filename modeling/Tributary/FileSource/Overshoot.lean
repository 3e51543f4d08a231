import Tributary.FileSource.Exposure
import Tributary.FileSource.Pause

/-!
# How far the queue goes over its cap

A batch that was read is forced onto the queue or held when it cannot be shipped.
Reading pauses with the first of them, and at that moment the framer holds
nothing: what can still follow is in flight or waits to be submitted.
-/

namespace Tributary.FileSource

open Lib Queue Ship Stamp Tail Map Transform

variable {c : Config} {s s' : State} {l : Line}

/-! ## Watching a run -/

/-- A state, and the batches forced past the cap or held since reading paused. -/
structure Watched where
  state : State
  forced : List (List Line)

/-- The batch a step forces onto the queue past the cap, or holds. A batch that is
held counts once. -/
def State.forces (s : State) : Event → List (List Line)
  | .reap i io _ =>
      match s.inflight[i]? with
      | some (.failed lines _) => if s.refuses lines io then [lines] else []
      | _ => []
  | _ => []

/-- A step of the source; the list starts anew when reading resumes. -/
def watch (c : Config) (w : Watched) (e : Event) : Option Watched :=
  (step c w.state e).map fun s =>
    { state := s, forced := if s.queue.full then w.forced ++ w.state.forces e else [] }

/-- The size of batches. -/
def sizes (bs : List (List Line)) : Nat := (bs.map size).sum

theorem sizes_append (bs bs' : List (List Line)) : sizes (bs ++ bs') = sizes bs + sizes bs' := by
  simp [sizes]

theorem sizes_le {bs bs' : List (List Line)} (h : bs.Sublist bs') : sizes bs ≤ sizes bs' :=
  (h.map size).sum_le_sum fun _ _ => Nat.zero_le _

/-! ## Where a flush or a collection can run -/

/-- Behind a flush nothing is half-assembled, and where all is collected the batch
is gone. -/
def State.Poised (s : State) : Phase → Prop
  | .flushing _ => s.framer.hasPending = false
  | .settling _ => s.framer.hasPending = false ∧ s.batch = []
  | _ => True

theorem Quiet.poised (h : Quiet s s') {phase : Phase} (hp : s.Poised phase) : s'.Poised phase := by
  unfold State.Poised
  rw [h.framer, h.batch]
  exact hp

theorem poised_go {phase : Phase} (h : s.Poised phase) :
    (s.go phase).Poised (s.go phase).phase := by
  rcases go_phase s phase with hp | hp
  · rw [hp]
    exact (still_go s phase).toQuiet.poised h
  · rw [hp]
    exact True.intro

theorem poised_leaveDrain (final : Bool) :
    (s.leaveDrain final).Poised (s.leaveDrain final).phase := by
  cases final with
  | true => exact poised_go True.intro
  | false => exact poised_go True.intro

theorem poised_afterFlush {after : After} (hframer : s.framer.hasPending = false)
    (hbatch : s.batch = []) : (s.afterFlush after).Poised (s.afterFlush after).phase := by
  cases after with
  | read => exact poised_go True.intro
  | timed => exact poised_go ⟨hframer, hbatch⟩
  | final => exact poised_go ⟨hframer, hbatch⟩

theorem poised_next {nowNs : Int} {nowMs : Nat} (h : next c s nowNs nowMs = some s') :
    s'.Poised s'.phase := by
  obtain ⟨hphase, hread⟩ := next_cases h
  cases hread with
  | idle tailer => exact poised_go True.intro
  | buffered tailer framer => simp [State.handed, hphase, State.Poised]
  | refused tailer line e => simp [State.handed, State.refuse, hphase, State.Poised]
  | completed tailer framer record =>
      rw [(took_take c (s.handed tailer framer) record nowNs).phase,
        show (s.handed tailer framer).phase = .reading from hphase]
      exact True.intro
  | full tailer framer record hids hdone hpending => exact poised_go hpending

theorem poised_unframe {nowNs : Int} {order : List Text} (h : unframe c s nowNs order = some s') :
    s'.Poised s'.phase := by
  obtain ⟨hphase, ⟨framer, hnone, -, rfl⟩ | ⟨framer, record, -, -, rfl⟩⟩ := unframe_cases h
  · exact poised_go hnone
  · have hsame : (State.takeLast c { s with framer } record nowNs).phase = .unframing := by
      rcases took_takeLast c { s with framer } record nowNs with ht | hl
      · exact ht.phase.trans hphase
      · exact hl.phase.trans hphase
    rw [hsame]
    exact True.intro

/-- **Every step** leads to a phase only with what the phase relies on. -/
theorem step_poised {e : Event} (hcore : Core s) (hp : s.Poised s.phase)
    (h : step c s e = some s') : s'.Poised s'.phase := by
  obtain ⟨live, hst⟩ := hcore.stored
  unfold step at h
  split at h
  · cases h
  cases e with
  | files fs =>
      cases h
      exact hp
  | finish i sched =>
      obtain ⟨lines, acked, t, -, -, -, rfl⟩ := finish_cases h
      exact hp
  | land io sched =>
      obtain ⟨drained, final, body, rest, hphase, -, hlanded⟩ := land_cases hst h
      cases hlanded with
      | spooled => exact hp
      | shipped => exact True.intro
      | kept => exact poised_leaveDrain final
      | stopped => exact True.intro
  | ship sched =>
      obtain ⟨drained, final, x, rest, -, -, -, ⟨acked, poison, -, rfl⟩ | ⟨acked, rfl⟩⟩ :=
        ship_cases hst h
      · exact True.intro
      · exact poised_leaveDrain final
  | drained io =>
      obtain ⟨drained, final, -, -, rfl⟩ := drained_cases h
      exact poised_leaveDrain final
  | next nowNs nowMs => exact poised_next h
  | expire nowNs nowMs order =>
      obtain ⟨framer, out, -, ⟨-, rfl⟩ | ⟨record, -, -, rfl⟩⟩ := expire_cases h
      · exact poised_go True.intro
      · exact poised_go True.intro
  | time due =>
      rcases time_cases h with ⟨hpending, rfl⟩ | rfl
      · exact poised_go hpending
      · exact poised_go True.intro
  | submit =>
      obtain ⟨after, hphase, hs'⟩ := submit_cases h
      rw [hphase] at hp
      rcases hs' with ⟨hbatch, rfl⟩ | ⟨-, rfl⟩
      · exact poised_afterFlush hp hbatch
      · exact poised_afterFlush (s := s.submitted) hp rfl
  | reap i io forcedIo =>
      obtain ⟨task, -, hreaped⟩ := reap_cases hst h
      cases hreaped with
      | failed => exact True.intro
      | stopped => exact True.intro
      | _ => exact hp
  | settle io =>
      obtain ⟨final, -, -, rfl⟩ := settle_cases h
      cases final with
      | true => exact poised_go True.intro
      | false => exact poised_go True.intro
  | publish due nowNs =>
      obtain ⟨base, -, rfl | rfl⟩ := publish_cases h
      · exact True.intro
      · exact poised_go True.intro
  | reload rules batchLines maxInflight =>
      dsimp only at h
      split at h
      · cases h
        exact hp
      · cases h
  | again shutdown =>
      rcases again_cases h with rfl | rfl
      · exact poised_go True.intro
      · exact poised_go True.intro
  | unframe nowNs order => exact poised_unframe h
  | die =>
      cases h
      exact True.intro

/-- A batch is collected where nothing is half-assembled; another one may wait to be
submitted in a flush only. -/
theorem poised_collects (hp : s.Poised s.phase) (h : collects s = true) :
    s.framer.hasPending = false ∧ (s.batch = [] ∨ ∃ after, s.phase = .flushing after) := by
  unfold collects at h
  split at h
  · rename_i after hphase
    rw [hphase] at hp
    exact ⟨hp, .inr ⟨after, hphase⟩⟩
  · rename_i final hphase
    rw [hphase] at hp
    exact ⟨hp.1, .inl hp.2⟩
  · cases h

/-! ## The tally -/

namespace State

/-- The batch that waits to be submitted. -/
def waiting (s : State) : Nat := if s.batch = [] then 0 else 1

/-- While reading is paused the framer is empty, and every batch there is has been
counted, is in flight, or is the one being flushed. -/
structure Paused (c : Config) (s : State) (forced : List (List Line)) : Prop where
  framer : s.framer.hasPending = false
  batch : s.batch = [] ∨ s.phase = .stopped ∨ ∃ after, s.phase = .flushing after
  count : forced.length + s.inflight.length + s.waiting ≤ c.maxInflight + 1

/-- While lines are read nothing is over the cap and nothing is held. -/
structure Reads (s : State) (forced : List (List Line)) : Prop where
  forced : forced = []
  held : s.held = []
  bytes : s.queue.bytes ≤ s.queue.maxBytes

/-- What the counted batches account for. -/
structure Tally (c : Config) (s : State) (forced : List (List Line)) : Prop where
  cap : s.queue.maxBytes = c.queueMaxBytes
  paused : s.queue.full = true → s.Paused c forced
  reads : s.queue.full = false → s.Reads forced
  held : s.held.Sublist forced
  bytes : s.queue.bytes + sizes s.held ≤ s.queue.maxBytes + sizes forced

end State

variable {forced : List (List Line)}

theorem waiting_of_batch (h : s'.batch = s.batch) : s'.waiting = s.waiting := by
  rw [State.waiting, State.waiting, h]

theorem waiting_of_nil (h : s.batch = []) : s.waiting = 0 := if_pos h

theorem waiting_le (s : State) : s.waiting ≤ 1 := by
  rw [State.waiting]
  split <;> decide

/-- While a batch is held reading is paused. -/
theorem State.Tally.full_of_held (h : s.Tally c forced) (hheld : s.held ≠ []) :
    s.queue.full = true := by
  by_contra hopen
  exact hheld (h.reads (by simpa using hopen)).held

/-! ### Steps that do not reach the queue -/

theorem feeds_of_completed {e : Event} {p : Chunk × Int} (h : s.completed c e = some p) :
    e.feeds = true := by
  cases e with
  | next => rfl
  | expire => rfl
  | unframe => rfl
  | _ => cases h

/-- With reading paused and the framer empty, no record is completed. -/
theorem paused_feeds {e : Event} (hfull : s.queue.full = true)
    (hpending : s.framer.hasPending = false) (hfeeds : e.feeds = true)
    (h : step c s e = some s') :
    s'.framer = s.framer ∧ s'.batch = s.batch ∧ s'.inflight = s.inflight
      ∧ ∀ after, s.phase ≠ .flushing after := by
  unfold step at h
  split at h
  · cases h
  cases e with
  | next nowNs nowMs =>
      have hphase := (next_cases h).1
      simp only [next, hphase, ne_eq, not_true_eq_false, if_false, if_pos hfull,
        Option.some.injEq] at h
      subst h
      have hq := still_go s .expiring
      exact ⟨hq.framer, hq.batch, hq.inflight, by simp [hphase]⟩
  | expire nowNs nowMs order =>
      have hidle := (@Framer.idle_of_not_pending c.libs _ hpending nowMs order).1
      simp only [expire, hidle] at h
      split at h
      · cases h
      · rename_i hphase
        cases h
        have hq := still_go s .timing
        exact ⟨hq.framer, hq.batch, hq.inflight, by simp [not_not.mp hphase]⟩
  | unframe nowNs order =>
      have hidle := (@Framer.idle_of_not_pending c.libs _ hpending 0 order).2
      simp only [unframe, hidle] at h
      split at h
      · cases h
      · rename_i hphase
        cases h
        have hq := still_go s (.flushing .final)
        exact ⟨hq.framer, hq.batch, hq.inflight, by simp [not_not.mp hphase]⟩
  | _ => cases hfeeds

theorem State.Paused.calm {e : Event} (hp : s.Paused c forced) (hcore : Core s)
    (hfull : s.queue.full = true) (h : step c s e = some s') : s'.Paused c forced := by
  by_cases hfeeds : e.feeds = true
  · obtain ⟨hframer, hbatch, hinflight, hflush⟩ := paused_feeds hfull hp.framer hfeeds h
    refine ⟨hframer ▸ hp.framer, ?_, ?_⟩
    · rcases hp.batch with hnil | hstop | ⟨after, hphase⟩
      · exact .inl (hbatch.trans hnil)
      · exact absurd hstop (running_of_step h)
      · exact absurd hphase (hflush after)
    · rw [hinflight, waiting_of_batch hbatch]
      exact hp.count
  · have hframer := (step_same hcore h (by simpa using hfeeds)).framer
    have hbatch : s'.batch = [] ∨ s'.phase = .stopped ∨ ∃ after, s'.phase = .flushing after := by
      rcases hp.batch with hnil | hstop | ⟨after, hphase⟩
      · refine .inl ?_
        cases step_loads hcore h with
        | same hbatch => exact hbatch.trans hnil
        | joined l line nowNs record hdone => exact absurd (feeds_of_completed hdone) hfeeds
        | finished i lines t hi ht hbatch => exact hbatch.trans hnil
        | collected i task hi hbatch => exact hbatch.trans hnil
        | submitted hsome hroom hbatch => exact hbatch
      · exact absurd hstop (running_of_step h)
      · rcases flushing_stays hcore hphase h with hflush | hstop | hnil
        · exact .inr (.inr ⟨after, hflush⟩)
        · exact .inr (.inl hstop)
        · exact .inl hnil
    refine ⟨hframer ▸ hp.framer, hbatch, ?_⟩
    have hcount := hp.count
    cases step_loads hcore h with
    | same hbatch hinflight =>
        rw [hinflight, waiting_of_batch hbatch]
        exact hcount
    | joined l line nowNs record hdone => exact absurd (feeds_of_completed hdone) hfeeds
    | finished i lines t hi ht hbatch hinflight =>
        rw [hinflight, List.length_set, waiting_of_batch hbatch]
        exact hcount
    | collected i task hi hbatch hinflight =>
        have hless := List.length_eraseIdx_le s.inflight i
        rw [hinflight, waiting_of_batch hbatch]
        omega
    | submitted hsome hroom hbatch hinflight =>
        -- the batch that waited is in flight
        have hwaits : s.waiting = 1 := if_neg hsome
        rw [hinflight, List.length_append, List.length_singleton, waiting_of_nil hbatch]
        omega

theorem tally_calm {e : Event} (ht : s.Tally c forced) (hcore : Core s) (he : e.queues = false)
    (h : step c s e = some s') : s'.Tally c forced := by
  have hshelf := step_shelf h he
  refine ⟨hshelf.queue ▸ ht.cap, ?_, ?_, hshelf.held ▸ ht.held, ?_⟩
  · rw [hshelf.queue]
    exact fun hfull => (ht.paused hfull).calm hcore hfull h
  · rw [hshelf.queue]
    intro hopen
    obtain ⟨hover, hheld, hbytes⟩ := ht.reads hopen
    exact ⟨hover, hshelf.held.trans hheld, hshelf.queue ▸ hbytes⟩
  · rw [hshelf.queue, hshelf.held]
    exact ht.bytes

/-! ### Draining -/

theorem sizes_cons (b : List Line) (bs : List (List Line)) :
    sizes (b :: bs) = size b + sizes bs := by
  simp [sizes]

/-- The tally of a state that is paused. -/
theorem tally_of_full (hfull : s.queue.full = true) (hcap : s.queue.maxBytes = c.queueMaxBytes)
    (hpaused : s.Paused c forced) (hheld : s.held.Sublist forced)
    (hbytes : s.queue.bytes + sizes s.held ≤ s.queue.maxBytes + sizes forced) : s.Tally c forced :=
  ⟨hcap, fun _ => hpaused, fun hopen => (Bool.false_ne_true (hopen.symm.trans hfull)).elim, hheld,
    hbytes⟩

/-- The tally of a state that reads starts anew. -/
theorem tally_of_open (hopen : s.queue.full = false) (hcap : s.queue.maxBytes = c.queueMaxBytes)
    (hheld : s.held = []) (hbytes : s.queue.bytes ≤ s.queue.maxBytes) : s.Tally c [] := by
  refine ⟨hcap, fun hfull => (Bool.false_ne_true (hopen.symm.trans hfull)).elim,
    fun _ => ⟨rfl, hheld, hbytes⟩, hheld ▸ List.Sublist.refl _, ?_⟩
  rw [hheld]
  exact Nat.add_le_add_right hbytes _

/-- With no batch waiting the phase does not matter. -/
theorem Quiet.tally (hq : Quiet s s') (ht : s.Tally c forced)
    (hbatch : s.queue.full = true → s.batch = []) : s'.Tally c forced := by
  refine ⟨hq.queue ▸ ht.cap, ?_, ?_, hq.held ▸ ht.held, ?_⟩
  · rw [hq.queue]
    intro hfull
    have hp := ht.paused hfull
    refine ⟨hq.framer ▸ hp.framer, .inl (hq.batch.trans (hbatch hfull)), ?_⟩
    rw [hq.inflight, waiting_of_batch hq.batch]
    exact hp.count
  · rw [hq.queue]
    intro hopen
    obtain ⟨hover, hheld, hbytes⟩ := ht.reads hopen
    exact ⟨hover, hq.held.trans hheld, hq.queue ▸ hbytes⟩
  · rw [hq.queue, hq.held]
    exact ht.bytes

/-- A drain does not run with a batch waiting. -/
theorem State.Paused.drains (h : s.Paused c forced) {drained final : Bool}
    (hphase : s.phase = .draining drained final) : s.batch = [] := by
  rcases h.batch with hnil | hstop | ⟨after, hflush⟩
  · exact hnil
  · cases hphase.symm.trans hstop
  · cases hphase.symm.trans hflush

/-- A held batch that lands, or is shipped from memory, was counted when it was held. -/
theorem tally_land {io : Io} {sched : List (Answer Line)} (ht : s.Tally c forced) (hcore : Core s)
    (h : land s io sched = some s') : s'.queue.full = true ∧ s'.Tally c forced := by
  obtain ⟨live, hst⟩ := hcore.stored
  obtain ⟨drained, final, body, rest, hphase, hheld, hlanded⟩ := land_cases hst h
  have hfull := ht.full_of_held (by simp [hheld])
  have hp := ht.paused hfull
  have hbatch := hp.drains hphase
  have hsub := ht.held
  have hbytes := ht.bytes
  rw [hheld] at hsub
  rw [hheld, sizes_cons] at hbytes
  have hrest := (List.sublist_cons_self body rest).trans hsub
  cases hlanded with
  | spooled =>
      refine ⟨rfl, tally_of_full rfl ht.cap ⟨hp.framer, .inl hbatch, hp.count⟩ hrest ?_⟩
      show s.queue.bytes + size body + sizes rest ≤ s.queue.maxBytes + sizes forced
      omega
  | shipped at_ e acked poison =>
      refine ⟨rfl, tally_of_full rfl ht.cap ⟨hp.framer, .inl hbatch, hp.count⟩ hrest ?_⟩
      show s.queue.bytes + sizes rest ≤ s.queue.maxBytes + sizes forced
      omega
  | kept at_ e acked =>
      have hpause : { s.pause with acked := s.acked ++ acked }.Tally c forced :=
        tally_of_full rfl ht.cap ⟨hp.framer, .inl hbatch, hp.count⟩ ht.held ht.bytes
      have hq := (still_leaveDrain { s.pause with acked := s.acked ++ acked } final).toQuiet
      exact ⟨by rw [hq.queue]; rfl, hq.tally hpause fun _ => hbatch⟩
  | stopped at_ e => exact ⟨hfull, (still_stop s).toQuiet.tally ht fun _ => hbatch⟩

/-- A segment that is shipped can end the pause. -/
theorem tally_ship {sched : List (Answer Line)} (ht : s.Tally c forced) (hcore : Core s)
    (h : ship s sched = some s') : s'.Tally c (if s'.queue.full then forced else []) := by
  obtain ⟨live, hst⟩ := hcore.stored
  obtain ⟨drained, final, x, rest, hphase, hheld, -, ⟨acked, poison, -, rfl⟩ | ⟨acked, rfl⟩⟩ :=
    ship_cases hst h
  · have hretired : (s.queue.retire (size x.2)).bytes ≤ s.queue.bytes := by
      rw [retire_bytes]
      exact Nat.sub_le _ _
    have hbytes := ht.bytes
    rw [hheld] at hbytes
    have hcap : (s.queue.retire (size x.2)).maxBytes = s.queue.maxBytes := retire_maxBytes ..
    by_cases hfull : (s.queue.retire (size x.2)).full = true
    · have hp := ht.paused ((retire_full ..).mp hfull).1
      rw [if_pos hfull]
      refine tally_of_full hfull (hcap.trans ht.cap) ⟨hp.framer, .inl (hp.drains hphase), hp.count⟩
        ht.held ?_
      show (s.queue.retire (size x.2)).bytes + sizes s.held
        ≤ (s.queue.retire (size x.2)).maxBytes + sizes forced
      rw [hheld, hcap]
      omega
    · rw [if_neg hfull]
      refine tally_of_open (by simpa using hfull) (hcap.trans ht.cap) hheld ?_
      show (s.queue.retire (size x.2)).bytes ≤ (s.queue.retire (size x.2)).maxBytes
      rw [hcap]
      cases hopen : s.queue.full with
      | false => exact Nat.le_trans hretired (ht.reads hopen).bytes
      | true =>
          -- the pause ends at half full
          have hlow : ¬ s.queue.maxBytes < (s.queue.bytes - size x.2) * 2 :=
            fun hhigh => hfull ((retire_full ..).mpr ⟨hopen, hhigh⟩)
          rw [retire_bytes]
          omega
  · have hq := (still_leaveDrain { s with acked := s.acked ++ acked } final).toQuiet
    have htally : { s with acked := s.acked ++ acked }.Tally c forced := by
      refine ⟨ht.cap, fun hfull => ?_, fun hopen => ?_, ht.held, ht.bytes⟩
      · exact ⟨(ht.paused hfull).framer, (ht.paused hfull).batch, (ht.paused hfull).count⟩
      · exact ⟨(ht.reads hopen).forced, (ht.reads hopen).held, (ht.reads hopen).bytes⟩
    have hsame := hq.tally htally fun hfull => (ht.paused hfull).drains hphase
    split
    · exact hsame
    · rename_i hopen
      rw [(hsame.reads (by simpa using hopen)).forced] at hsame
      exact hsame

/-! ### Collecting -/

theorem forces_failed {i : Nat} {io forcedIo : Io} {lines : List Line} {e : ShipError}
    (hi : s.inflight[i]? = some (.failed lines e)) (hrefused : s.refuses lines io = true) :
    s.forces (.reap i io forcedIo) = [lines] := by
  simp [State.forces, hi, hrefused]

theorem length_forces_le (s : State) (e : Event) : (s.forces e).length ≤ 1 := by
  unfold State.forces
  split
  · split
    · split
      · exact Nat.le_refl 1
      · exact Nat.zero_le 1
    · exact Nat.zero_le 1
  · exact Nat.zero_le 1

/-- Behind a collection there is room in the count for the batch collected. -/
theorem State.Tally.room {i : Nat} {task : Task} (ht : s.Tally c forced)
    (hi : s.inflight[i]? = some task) (hle : s.inflight.length ≤ c.maxInflight) :
    forced.length + 1 + (s.inflight.eraseIdx i).length + s.waiting ≤ c.maxInflight + 1 := by
  obtain ⟨hlt, -⟩ := List.getElem?_eq_some_iff.mp hi
  have hless := List.length_eraseIdx_of_lt hlt
  have hwaiting := waiting_le s
  cases hfull : s.queue.full with
  | true =>
      have hcount := (ht.paused hfull).count
      omega
  | false =>
      rw [(ht.reads hfull).forced, List.length_nil]
      omega

/-- A batch that cannot be shipped and does not fit is counted once it leaves the
in-flight set. -/
theorem tally_reap {i : Nat} {io forcedIo : Io} (ht : s.Tally c forced) (hcore : Core s)
    (hp : s.Poised s.phase) (hle : s.inflight.length ≤ c.maxInflight)
    (h : reap s i io forcedIo = some s') :
    s'.Tally c (if s'.queue.full then forced ++ s.forces (.reap i io forcedIo) else []) := by
  have hcollects : collects s = true := by
    by_contra hno
    simp [reap, hno] at h
  obtain ⟨live, hst⟩ := hcore.stored
  obtain ⟨task, hi, hreaped⟩ := reap_cases hst h
  obtain ⟨hframer, hbatch⟩ := poised_collects hp hcollects
  have hroom := ht.room hi hle
  have hforces := length_forces_le s (.reap i io forcedIo)
  have hsizes := sizes_append forced (s.forces (.reap i io forcedIo))
  have hsub := ht.held.trans (List.sublist_append_left forced (s.forces (.reap i io forcedIo)))
  have hheld := sizes_le hsub
  have hbytes := ht.bytes
  have hpaused : ∀ t : State, t.framer = s.framer → t.batch = s.batch →
      t.inflight = s.inflight.eraseIdx i → t.phase = s.phase ∨ t.phase = .stopped →
      t.Paused c (forced ++ s.forces (.reap i io forcedIo)) := by
    intro t hf hb hin hph
    refine ⟨hf ▸ hframer, ?_, ?_⟩
    · rcases hbatch with hnil | ⟨after, hflush⟩
      · exact .inl (hb.trans hnil)
      · exact .inr (hph.symm.imp_right fun he => ⟨after, he.trans hflush⟩)
    · rw [hin, waiting_of_batch hb, List.length_append]
      omega
  -- the queue is as it was
  have hsame : ∀ t : State, t.framer = s.framer → t.batch = s.batch →
      t.inflight = s.inflight.eraseIdx i → t.phase = s.phase ∨ t.phase = .stopped →
      t.queue = s.queue → t.held = s.held →
      t.Tally c (if t.queue.full then forced ++ s.forces (.reap i io forcedIo) else []) := by
    intro t hf hb hin hph hq hh
    rw [hq]
    cases hfull : s.queue.full with
    | true =>
        rw [if_pos rfl]
        refine tally_of_full (hq ▸ hfull) (hq ▸ ht.cap) (hpaused t hf hb hin hph) (hh ▸ hsub) ?_
        rw [hq, hh, hsizes]
        omega
    | false =>
        have hr := ht.reads hfull
        exact tally_of_open (hq ▸ hfull) (hq ▸ ht.cap) (hh.trans hr.held) (hq ▸ hr.bytes)
  cases hreaped with
  | shipped lines poison => exact hsame _ rfl rfl rfl (.inl rfl) rfl rfl
  | failed lines e => exact hsame _ rfl rfl rfl (.inr rfl) rfl rfl
  | spooled lines e forcedIo hfits =>
      have hfits : s.queue.bytes + size lines ≤ s.queue.maxBytes := hfits
      cases hfull : s.queue.full with
      | true =>
          have hfull' : ((s.collected i).spooled lines (s.collected i).queue.full).queue.full = true :=
            hfull
          rw [if_pos hfull']
          refine tally_of_full hfull' ht.cap (hpaused _ rfl rfl rfl (.inl rfl)) hsub ?_
          show s.queue.bytes + size lines + sizes s.held ≤ s.queue.maxBytes + sizes _
          omega
      | false =>
          have hopen : ((s.collected i).spooled lines (s.collected i).queue.full).queue.full = false :=
            hfull
          rw [if_neg (by simp [hopen])]
          exact tally_of_open hopen ht.cap (ht.reads hfull).held hfits
  | forced lines e io hrefused =>
      have hone : s.forces (.reap i io .ok) = [lines] := forces_failed hi hrefused
      have hfull' : ((s.collected i).spooled lines true).queue.full = true := rfl
      rw [if_pos hfull']
      refine tally_of_full hfull' ht.cap (hpaused _ rfl rfl rfl (.inl rfl)) hsub ?_
      show s.queue.bytes + size lines + sizes s.held ≤ s.queue.maxBytes + sizes _
      rw [hone] at hsizes ⊢
      rw [hsizes, sizes_cons]
      omega
  | held lines e io at_ ioe hrefused hspace =>
      have hone : s.forces (.reap i io (.fail at_ ioe)) = [lines] := forces_failed hi hrefused
      refine tally_of_full rfl ht.cap (hpaused _ rfl rfl rfl (.inl rfl)) ?_ ?_
      · show (s.held ++ [lines]).Sublist (forced ++ _)
        rw [hone]
        exact ht.held.append_right _
      · show s.queue.bytes + sizes (s.held ++ [lines]) ≤ s.queue.maxBytes + sizes (forced ++ _)
        rw [hone, sizes_append, sizes_append]
        omega
  | stopped lines e io at_ ioe hrefused =>
      refine tally_of_full rfl ht.cap (hpaused _ rfl rfl rfl (.inr rfl)) hsub ?_
      show s.queue.bytes + sizes s.held ≤ s.queue.maxBytes + sizes (forced ++ _)
      rw [hsizes]
      omega

/-! ## Runs -/

/-- What every state of a watched run satisfies. -/
structure OvershootInv (c : Config) (w : Watched) : Prop where
  core : Core w.state
  knobs : w.state.knobs = (c.batchLines, c.maxInflight)
  poised : w.state.Poised w.state.phase
  inflight : w.state.inflight.length ≤ c.maxInflight
  tally : w.state.Tally c w.forced

theorem step_inflight {e : Event} (hcore : Core s) (hslots : s.maxInflight = c.maxInflight)
    (h : step c s e = some s') (hle : s.inflight.length ≤ c.maxInflight) :
    s'.inflight.length ≤ c.maxInflight := by
  cases step_loads hcore h with
  | same hbatch hinflight => exact hinflight ▸ hle
  | joined l line nowNs record hdone hbuilt hbatch hinflight => exact hinflight ▸ hle
  | finished i lines t hi ht hbatch hinflight =>
      rw [hinflight, List.length_set]
      exact hle
  | collected i task hi hbatch hinflight =>
      rw [hinflight]
      exact Nat.le_trans (List.length_eraseIdx_le ..) hle
  | submitted hsome hroom hbatch hinflight =>
      rw [hinflight, List.length_append, List.length_singleton, ← hslots]
      exact hroom

/-- **One step** keeps the tally. -/
theorem step_tally {e : Event} (ht : s.Tally c forced) (hcore : Core s) (hp : s.Poised s.phase)
    (hle : s.inflight.length ≤ c.maxInflight) (h : step c s e = some s') :
    s'.Tally c (if s'.queue.full then forced ++ s.forces e else []) := by
  -- a tally of the same list serves when no batch is counted
  have hnone : s.forces e = [] → s'.Tally c forced →
      s'.Tally c (if s'.queue.full then forced ++ s.forces e else []) := by
    intro hforces hsame
    rw [hforces, List.append_nil]
    split
    · exact hsame
    · rename_i hopen
      have hnil := (hsame.reads (by simpa using hopen)).forced
      rwa [hnil] at hsame
  by_cases he : e.queues = false
  · refine hnone ?_ (tally_calm ht hcore he h)
    cases e with
    | reap => cases he
    | _ => rfl
  · unfold step at h
    split at h
    · cases h
    cases e with
    | land io sched => exact hnone rfl (tally_land ht hcore h).2
    | ship sched =>
        have hship := tally_ship ht hcore h
        rw [show s.forces (.ship sched) = [] from rfl, List.append_nil]
        exact hship
    | reap i io forcedIo => exact tally_reap ht hcore hp hle h
    | _ => exact absurd rfl he

theorem OvershootInv.step {w w' : Watched} {e : Event} (h : OvershootInv c w) (hfixed : e.Fixed c)
    (hstep : watch c w e = some w') : OvershootInv c w' := by
  obtain ⟨s', hs, rfl⟩ := Option.map_eq_some_iff.mp hstep
  exact ⟨(step_durable h.core hs).core h.core, step_knobs h.core hfixed h.knobs hs,
    step_poised h.core h.poised hs, step_inflight h.core (congrArg Prod.snd h.knobs) hs h.inflight,
    step_tally h.tally h.core h.poised h.inflight hs⟩

theorem OvershootInv.start {fs : Fs} {restored : Option Checkpoint} {adopted : Adopted}
    (h : FileSource.start c fs restored adopted = some s) (hcap : s.queue.bytes ≤ c.queueMaxBytes) :
    OvershootInv c { state := s, forced := [] } := by
  have hcore := start_core h
  obtain ⟨tailer, -, rfl⟩ := Option.map_eq_some_iff.mp h
  exact ⟨hcore, rfl, True.intro, Nat.zero_le _, tally_of_open rfl rfl rfl hcap⟩

/-- **The overshoot is bounded by the in-flight set**: one batch more than may be in
flight, and the queue is over its cap by no more than these. -/
theorem overshoot_bounded {fs : Fs} {restored : Option Checkpoint} {adopted : Adopted} {s₀ : State}
    {es : List Event} {w : Watched} (hstart : start c fs restored adopted = some s₀)
    (hcap : s₀.queue.bytes ≤ c.queueMaxBytes) (hfixed : ∀ e ∈ es, e.Fixed c)
    (hrun : run (watch c) { state := s₀, forced := [] } es = some w) :
    w.forced.length ≤ c.maxInflight + 1 ∧ w.state.held.Sublist w.forced
      ∧ w.state.queue.bytes ≤ c.queueMaxBytes + sizes w.forced := by
  have hknobs : Meets (watch c) (fun _ e => e.Fixed c) { state := s₀, forced := [] } es :=
    .of_forall fun e he _ => hfixed e he
  have h : OvershootInv c w := run_invariant (fun _ _ _ h hok hstep => h.step hok hstep)
    (.start hstart hcap) hknobs hrun
  refine ⟨?_, h.tally.held, ?_⟩
  · cases hfull : w.state.queue.full with
    | true =>
        have := (h.tally.paused hfull).count
        omega
    | false =>
        rw [(h.tally.reads hfull).forced]
        exact Nat.zero_le _
  · rw [← h.tally.cap]
    exact Nat.le_trans (Nat.le_add_right _ _) h.tally.bytes

/-- A batch is forced past the cap of a queue that is too small for it. -/
theorem overshoot_bounded_forced :
    ∃ s₀ w, start (plainConfig 10 10) (oneFile "new\n".toList) none nothingQueued = some s₀
      ∧ run (watch (plainConfig 10 10)) { state := s₀, forced := [] } (failedPass .ok .ok) = some w
      ∧ 10 < w.state.queue.bytes
      ∧ w.forced.length ≤ 2 ∧ w.state.held.Sublist w.forced
      ∧ w.state.queue.bytes ≤ 10 + sizes w.forced := by
  have hrun : ∃ s₀ w, start (plainConfig 10 10) (oneFile "new\n".toList) none nothingQueued
      = some s₀ ∧ run (watch (plainConfig 10 10)) { state := s₀, forced := [] } (failedPass .ok .ok)
        = some w ∧ s₀.queue.bytes ≤ 10 ∧ 10 < w.state.queue.bytes :=
    ⟨_, _, rfl, rfl, by decide +kernel, by decide +kernel⟩
  obtain ⟨s₀, w, hstart, hrun, hcap, hover⟩ := hrun
  exact ⟨s₀, w, hstart, hrun, hover,
    overshoot_bounded hstart hcap (by simp [failedPass, Event.Fixed]) hrun⟩

end Tributary.FileSource
