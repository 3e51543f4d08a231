import Tributary.FileSource.Ledger

/-!
# A full state disk

Segments, checkpoints and dead-letter entries are written under one directory. A
full disk makes the queue pause and the checkpoint stay where it is; but the writers
of the dead-letter file hand every error on, and the source stops with it.
-/

namespace Tributary.FileSource

open Lib Queue Ship Stamp Tail Map Transform

variable {c : Config} {s s' : State} {l : Line}

/-! ## The dead-letter entries of a step -/

/-- What the server rejects of a batch. -/
def rejected (sched : List (Answer Line)) (body : List Line) : List Dead :=
  match (sendLines blank sched [body]).outcome with
  | .shipped poison => poison.map .poison
  | _ => []

namespace State

/-- The entry of a completed record that cannot be built or encoded. -/
def refusal (c : Config) (s : State) (line : Chunk) (nowNs : Int) : List Dead :=
  match s.built c line nowNs with
  | .ok (.ready record _) =>
      match record.encode c.libs.display with
      | .ok _ => []
      | .error _ => [.refused line "unencodable"]
  | .ok _ => []
  | .error e => [.refused line e]

/-- What a step hands to `dead_letter` and `quarantine`. -/
def letters (c : Config) (s : State) : Event → List Dead
  | .next nowNs nowMs =>
      if s.queue.full then []
      else
        match (Tailer.nextLine s.fs s.tailer).1 with
        | none => []
        | some raw =>
            let line : Chunk := { ids := [s.read], text := c.libs.decodeLossy raw }
            match (s.framer.push c.libs line nowMs).1 with
            | .ok none => []
            | .error e => [.refused line e]
            | .ok (some record) => s.refusal c record nowNs
  | .expire nowNs nowMs order =>
      match (s.framer.expire c.libs nowMs order).1 with
      | none => []
      | some record => s.refusal c record nowNs
  | .reap i _ _ =>
      match s.inflight[i]? with
      | some (.shipped _ poison) => poison.map .poison
      | _ => []
  | .land io sched =>
      match s.held, io with
      | body :: _, .fail _ e => if outOfSpace e then rejected sched body else []
      | _, _ => []
  | .ship sched =>
      match s.queue.front.bind (Queue.read s.dir) with
      | some body => rejected sched body
      | none => []
  | _ => []

/-- The loop files what it could not build or encode, and nothing else. -/
theorem take_letters (c : Config) (s : State) (line : Chunk) (nowNs : Int) :
    (s.take c line nowNs).deadLetter = s.deadLetter ++ s.refusal c line nowNs := by
  unfold take refusal built
  generalize build c.libs c.source s.rules line.text nowNs s.stamper s.watermark = b
  obtain ⟨built, stamper, watermark⟩ := b
  dsimp only
  cases built with
  | error e => rfl
  | ok made =>
      cases made with
      | ready record ts =>
          dsimp only
          cases record.encode c.libs.display with
          | ok text => exact (List.append_nil _).symm
          | error e => rfl
      | empty => exact (List.append_nil _).symm
      | dropped stage => cases stage <;> exact (List.append_nil _).symm

end State

theorem letters_next {nowNs : Int} {nowMs : Nat} (h : next c s nowNs nowMs = some s') :
    s'.deadLetter = s.deadLetter ++ s.letters c (.next nowNs nowMs) := by
  unfold next at h
  split at h
  · cases h
  split at h
  · rename_i hfull
    cases h
    rw [(still_go s _).deadLetter]
    simp [State.letters, hfull]
  rename_i hopen
  split at h
  · rename_i tailer hline
    cases h
    rw [(still_go { s with tailer } _).deadLetter]
    simp [State.letters, hopen, hline]
  rename_i raw tailer hline
  dsimp only at h
  split at h
  · rename_i framer hpush
    cases h
    simp [State.letters, hopen, hline, hpush]
  · rename_i e framer hpush
    cases h
    simp [State.letters, hopen, hline, hpush, State.refuse]
  · rename_i record framer hpush
    have htake := State.take_letters c (s.handed tailer framer) record nowNs
    have hletters : s.letters c (.next nowNs nowMs) = s.refusal c record nowNs := by
      simp [State.letters, hopen, hline, hpush]
    rw [hletters]
    split at h
    · cases h
      rw [(still_go _ _).deadLetter]
      exact htake
    · cases h
      exact htake

theorem letters_land {live : List (Nat × List Line)} (hst : Stored size s.dir s.queue live)
    {io : Io} {sched : List (Answer Line)} (h : land s io sched = some s') :
    s'.deadLetter = s.deadLetter ++ s.letters c (.land io sched) := by
  unfold land at h
  split at h
  · rename_i drained final body rest hphase hheld
    rcases hst.pushForced_cases body io with ⟨rfl, he⟩ | ⟨at_, e, rfl, hspace, he⟩
      | ⟨at_, e, rfl, hspace, he⟩
    · simp only [he, Option.some.injEq] at h
      subst h
      simp [State.letters, hheld]
    · have hletters : s.letters c (.land (.fail at_ e) sched) = rejected sched body := by
        simp [State.letters, hheld, hspace]
      rw [hletters, rejected]
      simp only [he] at h
      cases hout : (sendLines blank sched [body]).outcome with
      | pending => simp [hout] at h
      | shipped poison =>
          simp only [hout, Option.some.injEq] at h
          subst h
          rfl
      | failed e' =>
          simp only [hout, Option.some.injEq] at h
          subst h
          rw [(still_leaveDrain _ _).deadLetter]
          exact (List.append_nil _).symm
    · simp only [he, Option.some.injEq] at h
      subst h
      simp [State.letters, hheld, hspace, State.stop]
  · cases h

theorem letters_ship {live : List (Nat × List Line)} (hst : Stored size s.dir s.queue live)
    {sched : List (Answer Line)} (h : ship s sched = some s') :
    s'.deadLetter = s.deadLetter ++ s.letters c (.ship sched) := by
  unfold ship at h
  split at h
  · rename_i drained final path hphase hheld hfront
    have hpath := hfront
    rw [hst.front, Option.map_eq_some_iff] at hfront
    obtain ⟨x, hx, rfl⟩ := hfront
    obtain ⟨rest, rfl⟩ := List.head?_eq_some_iff.mp hx
    have hread := hst.read (List.mem_cons_self ..)
    have hletters : s.letters c (.ship sched) = rejected sched x.2 := by
      simp [State.letters, hpath, hread]
    rw [hletters, rejected]
    simp only [hread] at h
    cases hout : (sendLines blank sched [x.2]).outcome with
    | pending => simp [hout] at h
    | shipped poison =>
        simp only [hout] at h
        split at h <;> cases h <;> rfl
    | failed e =>
        simp only [hout, Option.some.injEq] at h
        subst h
        rw [(still_leaveDrain _ _).deadLetter]
        exact (List.append_nil _).symm
  · cases h

theorem letters_expire {nowNs : Int} {nowMs : Nat} {order : List Text}
    (h : expire c s nowNs nowMs order = some s') :
    s'.deadLetter = s.deadLetter ++ s.letters c (.expire nowNs nowMs order) := by
  unfold expire at h
  split at h
  · cases h
  split at h
  · rename_i framer hexpire
    cases h
    rw [(still_go { s with framer } _).deadLetter]
    simp [State.letters, hexpire]
  · rename_i record framer hexpire
    cases h
    rw [(still_go _ _).deadLetter, State.take_letters]
    simp only [State.letters, hexpire]
    rfl

/-- What shutdown passes over is not recorded. -/
theorem takeLast_letters (c : Config) (s : State) (line : Chunk) (nowNs : Int) :
    (s.takeLast c line nowNs).deadLetter = s.deadLetter := by
  unfold State.takeLast
  generalize build c.libs c.source s.rules line.text nowNs s.stamper s.watermark = b
  obtain ⟨built, stamper, watermark⟩ := b
  dsimp only
  cases built with
  | error e => rfl
  | ok made =>
      cases made with
      | ready record ts =>
          dsimp only
          cases record.encode c.libs.display <;> rfl
      | empty => rfl
      | dropped stage => cases stage <;> rfl

/-- Where no line moves there is no entry. -/
theorem letters_of_not_handles {e : Event} (he : e.handles = false) : s.letters c e = [] := by
  cases e <;> first | rfl | cases he

/-- **The entries a step writes** are those it hands to the writers. -/
theorem step_letters {e : Event} (hcore : Core s) (h : step c s e = some s') :
    s'.deadLetter = s.deadLetter ++ s.letters c e := by
  by_cases hhandles : e.handles = false
  · rw [letters_of_not_handles hhandles, List.append_nil]
    exact (step_quiet h hhandles).deadLetter
  obtain ⟨live, hst⟩ := hcore.stored
  unfold step at h
  split at h
  · cases h
  cases e with
  | finish i sched =>
      obtain ⟨lines, acked, t, -, -, -, rfl⟩ := finish_cases h
      simp [State.letters]
  | land io sched => exact letters_land hst h
  | ship sched => exact letters_ship hst h
  | next nowNs nowMs => exact letters_next h
  | expire nowNs nowMs order => exact letters_expire h
  | submit =>
      obtain ⟨after, -, ⟨-, rfl⟩ | ⟨-, rfl⟩⟩ := submit_cases h
      · rw [(still_afterFlush s after).deadLetter]
        exact (List.append_nil _).symm
      · rw [(still_afterFlush s.submitted after).deadLetter]
        exact (List.append_nil _).symm
  | reap i io forcedIo =>
      obtain ⟨task, hi, hreaped⟩ := reap_cases hst h
      rw [State.letters, hi]
      cases hreaped with
      | shipped lines poison => rfl
      | _ => exact (List.append_nil _).symm
  | unframe nowNs order =>
      obtain ⟨-, ⟨framer, -, -, rfl⟩ | ⟨framer, record, -, -, rfl⟩⟩ := unframe_cases h
      · rw [(still_go { s with framer } _).deadLetter]
        exact (List.append_nil _).symm
      · rw [takeLast_letters]
        exact (List.append_nil _).symm
  | _ => exact absurd rfl hhandles

/-! ## A disk that answers for the dead-letter file too -/

/-- What becomes of the entries of a step: all are written, or some and an error. -/
inductive Filed where
  | ok
  | fail (written : Nat) (e : IoError)
deriving DecidableEq, Repr

def Filed.errors : Filed → List IoError
  | .ok => []
  | .fail _ e => [e]

/-- The error of a spool or of a checkpoint, if it fails. -/
def ioErrors : Io → List IoError
  | .ok => []
  | .fail _ e => [e]

namespace State

/-- The errors of the segments and checkpoints a step tries to write. -/
def unwritten (s : State) : Event → List IoError
  | .reap i io forcedIo =>
      match s.inflight[i]? with
      | some (.failed lines _) =>
          (if s.queue.maxBytes < s.queue.bytes + size lines then [] else ioErrors io)
            ++ if s.refuses lines io then ioErrors forcedIo else []
      | _ => []
  | .land io _ => ioErrors io
  | .drained io =>
      match s.phase with
      | .draining true _ => ioErrors io
      | _ => []
  | .settle io => if s.held = [] then ioErrors io else []
  | _ => []

/-- The errors of all a step tries to write under the state directory. -/
def errors (c : Config) (s : State) (e : Event) (filed : Filed) : List IoError :=
  s.unwritten e ++ if s.letters c e = [] then [] else filed.errors

/-- The state in which a failed dead-letter entry leaves the step from `s` to `s'`.
A batch leaves memory or the queue only behind the entries. -/
def unfiled (c : Config) (s s' : State) (e : Event) (written : Nat) : State :=
  let deadLetter := s.deadLetter ++ (s.letters c e).take written
  match e with
  | .land .. => { s.pause with acked := s'.acked, deadLetter }.stop
  | .ship .. => { s with acked := s'.acked, deadLetter }.stop
  | _ => { s' with deadLetter, quarantined := s.quarantined }.stop

end State

/-- A step of the source, and the disk's answer to its dead-letter entries. -/
def diskStep (c : Config) (s : State) (x : Event × Filed) : Option State :=
  (step c s x.1).map fun s' =>
    match x.2 with
    | .ok => s'
    | .fail written _ => if s.letters c x.1 = [] then s' else s.unfiled c s' x.1 written

theorem unfiled_stopped (c : Config) (s s' : State) (e : Event) (written : Nat) :
    (s.unfiled c s' e written).phase = .stopped := by
  cases e <;> rfl

/-- A step with an entry that fails stops the source; any other is a plain step. -/
theorem diskStep_cases {e : Event} {filed : Filed} (h : diskStep c s (e, filed) = some s') :
    (s.letters c e = [] ∨ filed = .ok) ∧ step c s e = some s'
      ∨ s.letters c e ≠ [] ∧ filed ≠ .ok ∧ s'.phase = .stopped := by
  obtain ⟨u, hu, hs'⟩ := Option.map_eq_some_iff.mp h
  cases filed with
  | ok =>
      cases hs'
      exact .inl ⟨.inr rfl, hu⟩
  | fail written err =>
      by_cases hnone : s.letters c e = []
      · simp only [hnone, ↓reduceIte] at hs'
        exact .inl ⟨.inl hnone, hs' ▸ hu⟩
      · simp only [hnone, ↓reduceIte] at hs'
        subst hs'
        exact .inr ⟨hnone, by simp, unfiled_stopped ..⟩

/-- Nothing follows a stop. -/
theorem running_of_run {xs : List (Event × Filed)} (h : run (diskStep c) s xs = some s')
    (hrun : s'.phase ≠ .stopped) : s.phase ≠ .stopped := by
  cases xs with
  | nil =>
      rw [run_nil] at h
      cases h
      exact hrun
  | cons x xs =>
      obtain ⟨u, hu, -⟩ := run_cons.mp h
      obtain ⟨v, hv, -⟩ := Option.map_eq_some_iff.mp hu
      exact running_of_step hv

/-- **A run that did not stop** had every entry written. -/
theorem run_of_disk {xs : List (Event × Filed)} (h : run (diskStep c) s xs = some s')
    (hrun : s'.phase ≠ .stopped) : run (step c) s (xs.map Prod.fst) = some s' := by
  induction xs generalizing s with
  | nil => exact h
  | cons x xs ih =>
      obtain ⟨u, hu, hrest⟩ := run_cons.mp h
      rcases diskStep_cases hu with ⟨-, hstep⟩ | ⟨-, -, hstop⟩
      · exact run_cons.mpr ⟨u, hstep, ih hrest⟩
      · exact absurd hstop (running_of_run hrest hrun)

/-! ## Pausing -/

/-- All that a step changes of what matters later: reading pauses, the checkpoint is
where it was, a batch is held or no longer held. -/
structure Waits (s s' : State) : Prop where
  runs : s'.phase ≠ .stopped
  framer : s'.framer = s.framer
  read : s'.read = s.read
  made : s'.made = s.made
  dropped : s'.dropped = s.dropped
  batch : s'.batch = s.batch
  saved : s'.saved = s.saved
  rows : s'.rows = s.rows
  queue : s'.queue = s.queue ∨ s'.queue.full = true
  held : s'.held = s.held ∨ (∃ lines, s'.held = s.held ++ [lines])
    ∨ ∃ body, s.held = body :: s'.held

/-- The source goes on, with every line where it was or further on its way. -/
structure Outlives (s s' : State) : Prop extends Waits s s' where
  moves : Moves s s'
  ledger : Ledger s → Ledger s'

theorem Still.waits (h : Still s s') (hrun : s'.phase ≠ .stopped) : Waits s s' :=
  ⟨hrun, h.framer, h.read, h.made, h.dropped, h.batch, h.saved, h.rows, .inl h.queue,
    .inl h.held⟩

/-- A full disk leaves the checkpoint alone. -/
theorem saveCheckpoint_full {io : Io} (hfails : ioErrors io ≠ [])
    (hfull : ∀ err ∈ ioErrors io, outOfSpace err = true) : s.saveCheckpoint io = s := by
  cases io with
  | ok => exact absurd rfl hfails
  | fail at_ e =>
      unfold State.saveCheckpoint
      simp [hfull e (List.mem_singleton.mpr rfl)]

theorem go_runs {phase : Phase} (hrun : s.phase ≠ .stopped) (hp : phase ≠ .stopped) :
    (s.go phase).phase ≠ .stopped := by
  rw [State.go, if_neg hrun]
  exact hp

theorem leaveDrain_runs (final : Bool) (hrun : s.phase ≠ .stopped) :
    (s.leaveDrain final).phase ≠ .stopped := by
  cases final with
  | true => exact go_runs hrun (by simp)
  | false => exact go_runs hrun (by simp)

theorem waits_reap {live : List (Nat × List Line)} (hst : Stored size s.dir s.queue live)
    {i : Nat} {io forcedIo : Io} (hrun : s.phase ≠ .stopped)
    (hfails : s.unwritten (.reap i io forcedIo) ≠ [])
    (hfull : ∀ err ∈ s.unwritten (.reap i io forcedIo), outOfSpace err = true)
    (h : reap s i io forcedIo = some s') : Waits s s' := by
  obtain ⟨task, hi, hreaped⟩ := reap_cases hst h
  simp only [State.unwritten, hi] at hfails hfull
  cases hreaped with
  | shipped lines poison => exact absurd rfl hfails
  | spooled lines e forcedIo hfits =>
      -- the segment is written: there is no error
      have hfits : s.queue.bytes + size lines ≤ s.queue.maxBytes := hfits
      have hrefused : s.refuses lines .ok = false := by simpa [State.refuses] using hfits
      simp [ioErrors, hrefused] at hfails
  | forced lines e io hrefused =>
      exact ⟨hrun, rfl, rfl, rfl, rfl, rfl, rfl, rfl, .inr rfl, .inl rfl⟩
  | held lines e io at_ ioe hrefused hspace =>
      exact ⟨hrun, rfl, rfl, rfl, rfl, rfl, rfl, rfl, .inr rfl, .inr (.inl ⟨lines, rfl⟩)⟩
  | failed lines e at_ ioe forcedIo hfits hspace =>
      have hfits : ¬ s.queue.maxBytes < s.queue.bytes + size lines := Nat.not_lt.mpr hfits
      have hfull := hfull ioe (by simp [hfits, ioErrors])
      simp [hspace] at hfull
  | stopped lines e io at_ ioe hrefused hspace =>
      have hrefused : s.refuses lines io = true := hrefused
      have hfull := hfull ioe (by simp [hrefused, ioErrors])
      simp [hspace] at hfull

theorem waits_land {live : List (Nat × List Line)} (hst : Stored size s.dir s.queue live)
    {io : Io} {sched : List (Answer Line)}
    (hfails : ioErrors io ≠ []) (hfull : ∀ err ∈ ioErrors io, outOfSpace err = true)
    (h : land s io sched = some s') : Waits s s' := by
  obtain ⟨drained, final, body, rest, hphase, hheld, hlanded⟩ := land_cases hst h
  cases hlanded with
  | spooled => exact absurd rfl hfails
  | shipped at_ e acked poison =>
      exact ⟨by simp, rfl, rfl, rfl, rfl, rfl, rfl, rfl, .inr rfl, .inr (.inr ⟨body, hheld⟩)⟩
  | kept at_ e acked =>
      have hstill := still_leaveDrain { s.pause with acked := s.acked ++ acked } final
      refine ⟨leaveDrain_runs final ?_, hstill.framer, hstill.read, hstill.made, hstill.dropped,
        hstill.batch, hstill.saved, hstill.rows, .inr ?_, .inl hstill.held⟩
      · simp [State.pause, hphase]
      · rw [hstill.queue]
        rfl
  | stopped at_ e hspace =>
      have hfull := hfull e (List.mem_singleton.mpr rfl)
      simp [hspace] at hfull

theorem waits_drained {io : Io} (hrun : s.phase ≠ .stopped)
    (hfails : s.unwritten (.drained io) ≠ [])
    (hfull : ∀ err ∈ s.unwritten (.drained io), outOfSpace err = true)
    (h : drained s io = some s') : Waits s s' := by
  obtain ⟨drained, final, hphase, -, rfl⟩ := drained_cases h
  cases drained with
  | false => simp [State.unwritten, hphase] at hfails
  | true =>
      simp only [State.unwritten, hphase] at hfails hfull
      simp only [↓reduceIte, saveCheckpoint_full hfails hfull]
      exact (still_leaveDrain s final).waits (leaveDrain_runs final hrun)

theorem waits_settle {io : Io} (hrun : s.phase ≠ .stopped)
    (hfails : s.unwritten (.settle io) ≠ [])
    (hfull : ∀ err ∈ s.unwritten (.settle io), outOfSpace err = true)
    (h : settle s io = some s') : Waits s s' := by
  obtain ⟨final, -, -, rfl⟩ := settle_cases h
  by_cases hheld : s.held = []
  · simp only [State.unwritten, hheld, ↓reduceIte] at hfails hfull
    rw [saveCheckpoint_full hfails hfull]
    exact (still_go s _).waits (go_runs hrun (by cases final <;> simp))
  · simp [State.unwritten, hheld] at hfails

/-- What a step can fail to write without the dead-letter file, it outlives. -/
theorem step_outlives {e : Event} (hcore : Core s) (h : step c s e = some s')
    (hfails : s.unwritten e ≠ []) (hfull : ∀ err ∈ s.unwritten e, outOfSpace err = true) :
    Outlives s s' := by
  obtain ⟨live, hst⟩ := hcore.stored
  have hrun := running_of_step h
  have hstep : step c s e = some s' := h
  -- none of these is a turn of shutdown over the framer
  have houtlives : Waits s s' → s.Unframes c e → Outlives s s' := by
    intro hwaits hun
    refine ⟨hwaits, ?_, fun hledger => step_ledger hcore hledger hun hstep⟩
    rcases step_moves hcore hstep with hm | ⟨hstop, -⟩
    · exact hm
    · exact absurd hstop hwaits.runs
  unfold step at h
  rw [if_neg hrun] at h
  cases e with
  | land io sched => exact houtlives (waits_land hst hfails hfull h) ⟨trivial, trivial⟩
  | drained io => exact houtlives (waits_drained hrun hfails hfull h) ⟨trivial, trivial⟩
  | reap i io forcedIo => exact houtlives (waits_reap hst hrun hfails hfull h) ⟨trivial, trivial⟩
  | settle io => exact houtlives (waits_settle hrun hfails hfull h) ⟨trivial, trivial⟩
  | _ => exact absurd rfl hfails

/-- **A full disk is outlived** wherever a run meets it, but by the dead-letter
file: every step that tries to write and finds the disk full lets the source go on
exactly if no dead-letter entry of it fails. -/
theorem full_disk_outlived_iff {fs : Fs} {restored : Option Checkpoint} {adopted : Adopted}
    {s₀ : State} {xs : List (Event × Filed)} {e : Event} {filed : Filed}
    (hstart : start c fs restored adopted = some s₀) (hrun : run (diskStep c) s₀ xs = some s)
    (hstep : diskStep c s (e, filed) = some s') (hfails : s.errors c e filed ≠ [])
    (hfull : ∀ err ∈ s.errors c e filed, outOfSpace err = true) :
    Outlives s s' ↔ s.letters c e = [] ∨ filed = .ok := by
  obtain ⟨u, hu, -⟩ := Option.map_eq_some_iff.mp hstep
  have hplain := run_of_disk hrun (running_of_step hu)
  have hcore : Core s := run_preserves (fun _ _ _ h hstep => (step_durable h hstep).core h)
    (start_core hstart) hplain
  rcases diskStep_cases hstep with ⟨hfiled, hs'⟩ | ⟨hletters, hfailed, hstop⟩
  · refine iff_of_true ?_ hfiled
    have hnone : (if s.letters c e = [] then [] else filed.errors) = [] := by
      rcases hfiled with hnone | rfl
      · rw [if_pos hnone]
      · exact ite_self []
    rw [State.errors, hnone, List.append_nil] at hfails hfull
    exact step_outlives hcore hs' hfails hfull
  · refine iff_of_false (fun h => h.runs hstop) ?_
    rintro (hnone | rfl)
    · exact hletters hnone
    · exact hfailed rfl

/-! ## A disk without space -/

/-- A line is read and the server is down. -/
def batchFails : List (Event × Filed) :=
  [.drained .ok, .next 5 0, .next 5 0, .expire 5 0 [], .time true, .submit, .finish 0 [down]].map
    fun e => (e, .ok)

/-- The batch is held, and the source goes on. -/
theorem full_disk_outlived_reap :
    ∃ s₀ s s', start (plainConfig 10 100) (oneFile "new\n".toList) none nothingQueued = some s₀
      ∧ run (diskStep (plainConfig 10 100)) s₀ batchFails = some s
      ∧ diskStep (plainConfig 10 100) s (.reap 0 noSpace noSpace, .fail 0 enospc) = some s'
      ∧ s'.held.length = 1 ∧ Outlives s s' := by
  have hrun : ∃ s₀ s s',
      start (plainConfig 10 100) (oneFile "new\n".toList) none nothingQueued = some s₀
      ∧ run (diskStep (plainConfig 10 100)) s₀ batchFails = some s
      ∧ diskStep (plainConfig 10 100) s (.reap 0 noSpace noSpace, .fail 0 enospc) = some s'
      ∧ s'.held.length = 1 ∧ s.letters (plainConfig 10 100) (.reap 0 noSpace noSpace) = []
      ∧ s.errors (plainConfig 10 100) (.reap 0 noSpace noSpace) (.fail 0 enospc)
        = [enospc, enospc] := ⟨_, _, _, rfl, rfl, rfl, rfl, rfl, rfl⟩
  obtain ⟨s₀, s, s', hstart, hrun, hstep, hheld, hletters, herrors⟩ := hrun
  refine ⟨s₀, s, s', hstart, hrun, hstep, hheld, ?_⟩
  refine (full_disk_outlived_iff hstart hrun hstep ?_ ?_).mpr (.inl hletters)
  · simp [herrors]
  · rw [herrors]
    decide

/-- A source of JSON lines. -/
def jsonConfig : Config :=
  { plainConfig 10 100 with source := { plainSource with parser := .json } }

/-- A line that is no JSON has an entry in the dead-letter file; the disk has no
space for it, and the source stops. -/
theorem full_disk_kills :
    ∃ s₀ s s', start jsonConfig (oneFile "new\n".toList) none nothingQueued = some s₀
      ∧ run (diskStep jsonConfig) s₀ [(.drained .ok, .ok)] = some s
      ∧ diskStep jsonConfig s (.next 5 0, .fail 0 enospc) = some s'
      ∧ s.errors jsonConfig (.next 5 0) (.fail 0 enospc) = [enospc]
      ∧ s'.phase = .stopped ∧ ¬ Outlives s s' :=
  ⟨_, _, _, rfl, rfl, rfl, rfl, rfl, fun h => h.runs rfl⟩

end Tributary.FileSource
