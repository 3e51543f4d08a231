import Tributary.FileSource.Ledger

/-!
# The watermark as a completeness claim

A published watermark says that nothing at or below it is still on its way. The
watermark moves when a batch is submitted, which is before the server has any of
it; so the claim holds as far as the lateness allowance keeps it below whatever
is not acknowledged yet.
-/

namespace Tributary.FileSource

open Lib Queue Ship Stamp Tail Map Transform

variable {c : Config} {s s' : State} {l : Line}

namespace State

/-- Every record up to the moment, but for those counted as violations, is
acknowledged or quarantined. -/
def Complete (s : State) (watermarkNs : Int) : Prop :=
  ∀ l ∈ s.made, l.late = false → l.ts ≤ watermarkNs → s.Done l

/-- The value a batch that is submitted lets the watermark take. -/
def claim (s : State) : Int := s.watermark.candidate s.batchMaxTs

/-- No record is built for exactly the moment that is published. -/
def Apart (c : Config) (s : State) (e : Event) : Prop :=
  ∀ line nowNs, s.completed c e = some (line, nowNs) → ∀ record ts,
    s.built c line nowNs = .ok (.ready record ts) →
    s.watermark.publishedNs ≠ i64Min → ts ≠ s.watermark.publishedNs

/-- A batch is submitted while every record on its way is above what the
watermark moves to. -/
def Allows (s : State) : Event → Prop
  | .submit =>
      s.batch ≠ [] → s.batchMaxTs ≠ i64Min → s.watermark.publishedNs < s.claim →
        ∀ l ∈ s.made, s.InMemory l ∨ InSegment s.dir l → l.late = false → s.claim < l.ts
  | _ => True

/-- What the claim rests on. -/
structure Honours (c : Config) (s : State) (e : Event) : Prop where
  encodes : s.Encodes c e
  apart : s.Apart c e
  allows : s.Allows e

end State

/-! ## What a step does to the claim -/

theorem State.Complete.mono {w w' : Int} (h : s.Complete w') (hle : w ≤ w') : s.Complete w :=
  fun l hl hlate hts => h l hl hlate (hts.trans hle)

theorem Durable.complete {w : Int} (hd : Durable s s') (hmade : s'.made = s.made)
    (h : s.Complete w) : s'.Complete w := by
  intro l hl hlate hts
  rw [hmade] at hl
  exact hd.done (h l hl hlate hts)

/-- A late record is one below the watermark. -/
theorem on_time {w : Watermark} {ts : Int} (h : w.violates ts = false)
    (hw : w.publishedNs ≠ i64Min) :
    w.publishedNs ≤ ts := by
  simpa [Watermark.violates, hw] using h

/-- The watermark stays, and a record that joins does not contradict it. -/
structure Joins (s s' : State) : Prop where
  published : s'.watermark.publishedNs = s.watermark.publishedNs
  rows : s'.rows = s.rows
  made : ∀ l ∈ s'.made, l ∈ s.made
    ∨ (l.late = false → s.watermark.publishedNs ≠ i64Min → s.watermark.publishedNs < l.ts)
    ∨ s'.Done l

theorem Still.joins (h : Still s s') : Joins s s' :=
  ⟨h.published, h.rows, fun _ hl => .inl (h.made ▸ hl)⟩

theorem Joins.still {s'' : State} (h : Joins s s') (h' : Still s' s'') : Joins s s'' where
  published := h'.published.trans h.published
  rows := h'.rows.trans h.rows
  made := by
    intro x hx
    rw [h'.made] at hx
    exact (h.made x hx).imp_right fun h => h.imp_right h'.toQuiet.moves.done

/-- Steps that leave the watermark, the rows and the records. -/
theorem Joins.of_same (hsame : Same s s') (hpublished : s'.watermark.publishedNs =
    s.watermark.publishedNs) (hrows : s'.rows = s.rows) : Joins s s' :=
  ⟨hpublished, hrows, fun _ hl => .inl (hsame.made ▸ hl)⟩

/-- The state a record is taken in has the watermark and the records of the one
before. -/
structure Beside (s base : State) : Prop where
  watermark : base.watermark = s.watermark
  rows : base.rows = s.rows
  made : base.made = s.made

theorem Took.joins {base : State} {line : Chunk} {built : Except String Built}
    (hbase : Beside s base) (ht : Took base line built s')
    (hapart : ∀ record ts, built = .ok (.ready record ts) →
      s.watermark.publishedNs ≠ i64Min → ts ≠ s.watermark.publishedNs) : Joins s s' := by
  have hold : ∀ t, Counted base t → ∀ l ∈ t.made, l ∈ s.made :=
    fun t ht l hl => hbase.made ▸ ht.made ▸ hl
  have hpublished : ∀ t, Counted base t →
      t.watermark.publishedNs = s.watermark.publishedNs :=
    fun t ht => ht.published.trans (by rw [hbase.watermark])
  have hrows : ∀ t, Counted base t → t.rows = s.rows :=
    fun t ht => ht.rows.trans hbase.rows
  cases ht with
  | enlisted t new record hb hbuilt hids htext hlate =>
      refine ⟨hpublished t hb, hrows t hb, fun l hl => ?_⟩
      rcases List.mem_append.mp hl with hl | hl
      · exact .inl (hold t hb l hl)
      · cases List.mem_singleton.mp hl
        refine .inr (.inl fun hontime hset => ?_)
        rw [hlate, hbase.watermark] at hontime
        exact lt_of_le_of_ne (on_time hontime hset) (hapart record new.ts hbuilt hset).symm
  | unencodable t new reason hb hids =>
      refine ⟨hpublished t hb, hrows t hb, fun l hl => ?_⟩
      rcases List.mem_append.mp hl with hl | hl
      · exact .inl (hold t hb l hl)
      · cases List.mem_singleton.mp hl
        exact .inr (.inr (.inr ⟨.refused line reason,
          List.mem_append_right _ (List.mem_singleton.mpr rfl), hids.symm⟩))
  | refused t reason hb => exact ⟨hpublished t hb, hrows t hb, fun l hl => .inl (hold t hb l hl)⟩
  | dropped t hb => exact ⟨hpublished t hb, hrows t hb, fun l hl => .inl (hold t hb l hl)⟩

theorem joins_next {nowNs : Int} {nowMs : Nat} (hok : s.Apart c (.next nowNs nowMs))
    (h : next c s nowNs nowMs = some s') : Joins s s' := by
  cases (next_cases h).2 with
  | idle tailer =>
      have hbeside : Joins s { s with tailer } := ⟨rfl, rfl, fun _ hl => .inl hl⟩
      exact hbeside.still (still_go _ _)
  | buffered tailer framer => exact ⟨rfl, rfl, fun _ hl => .inl hl⟩
  | refused tailer line e => exact ⟨rfl, rfl, fun _ hl => .inl hl⟩
  | completed tailer framer record hids hdone =>
      have hbase : Beside s (s.handed tailer framer) := ⟨rfl, rfl, rfl⟩
      exact Took.joins hbase (took_take c _ record nowNs) (hok record nowNs hdone)
  | full tailer framer record hids hdone =>
      refine Joins.still ?_ (still_go _ _)
      have hbase : Beside s (s.handed tailer framer) := ⟨rfl, rfl, rfl⟩
      exact Took.joins hbase (took_take c _ record nowNs) (hok record nowNs hdone)

theorem joins_expire {nowNs : Int} {nowMs : Nat} {order : List Text}
    (hok : s.Apart c (.expire nowNs nowMs order)) (h : expire c s nowNs nowMs order = some s') :
    Joins s s' := by
  obtain ⟨framer, out, -, ⟨-, rfl⟩ | ⟨record, -, hdone, rfl⟩⟩ := expire_cases h
  · have hbeside : Joins s { s with framer } := ⟨rfl, rfl, fun _ hl => .inl hl⟩
    exact hbeside.still (still_go _ _)
  · refine Joins.still ?_ (still_go _ _)
    have hbase : Beside s { s with framer } := ⟨rfl, rfl, rfl⟩
    exact Took.joins hbase (took_take c _ record nowNs) (hok record nowNs hdone)

theorem joins_unframe {nowNs : Int} {order : List Text} (hok : s.Apart c (.unframe nowNs order))
    (hencodes : s.Encodes c (.unframe nowNs order)) (h : unframe c s nowNs order = some s') :
    Joins s s' := by
  obtain ⟨-, ⟨framer, -, -, rfl⟩ | ⟨framer, line, hdrain, -, rfl⟩⟩ := unframe_cases h
  · have hbeside : Joins s { s with framer } := ⟨rfl, rfl, fun _ hl => .inl hl⟩
    exact hbeside.still (still_go _ _)
  · rcases took_takeLast c { s with framer } line nowNs with ht | hl
    · have hbase : Beside s { s with framer } := ⟨rfl, rfl, rfl⟩
      exact Took.joins hbase ht (hok line nowNs (by simp [State.completed, hdrain]))
    · generalize State.takeLast c { s with framer } line nowNs = t at hl
      cases hl with
      | unencodable base l record e hb hbuilt hids hencode =>
          obtain ⟨text, htext⟩ := hencodes line (by rw [hdrain]; rfl) record l.ts hbuilt
          cases htext.symm.trans hencode
      | unbuilt base e hb => exact ⟨hb.published, hb.rows, fun _ hl => .inl (hb.made ▸ hl)⟩

/-- The events that move the watermark or publish it. -/
def Event.claims : Event → Bool
  | .submit | .publish .. => true
  | _ => false

theorem saveCheckpoint_rows (io : Io) : (s.saveCheckpoint io).rows = s.rows := by
  unfold State.saveCheckpoint
  split
  · rfl
  · split
    · rfl
    · split <;> rfl

theorem step_joins {e : Event} (hcore : Core s) (hok : s.Honours c e) (h : step c s e = some s')
    (he : e.claims = false) : Joins s s' := by
  obtain ⟨live, hst⟩ := hcore.stored
  have hsame : e.feeds = false → Same s s' := step_same hcore h
  unfold step at h
  split at h
  · cases h
  cases e with
  | files fs =>
      cases h
      exact (still_of s fs _ _ _ _ _ _).joins
  | finish i sched =>
      obtain ⟨lines, acked, t, -, -, -, rfl⟩ := finish_cases h
      exact .of_same (hsame rfl) rfl rfl
  | land io sched =>
      obtain ⟨drained, final, body, rest, -, -, hlanded⟩ := land_cases hst h
      cases hlanded with
      | spooled => exact .of_same (hsame rfl) rfl rfl
      | shipped => exact .of_same (hsame rfl) rfl rfl
      | kept at_ e acked =>
          exact .of_same (hsame rfl) (still_leaveDrain _ final).published
            (still_leaveDrain _ final).rows
      | stopped => exact .of_same (hsame rfl) rfl rfl
  | ship sched =>
      obtain ⟨drained, final, x, rest, -, -, -, ⟨acked, poison, -, rfl⟩ | ⟨acked, rfl⟩⟩ :=
        ship_cases hst h
      · exact .of_same (hsame rfl) rfl rfl
      · exact .of_same (hsame rfl) (still_leaveDrain _ final).published
          (still_leaveDrain _ final).rows
  | drained io =>
      obtain ⟨drained, final, -, -, rfl⟩ := drained_cases h
      refine Joins.still ?_ (still_leaveDrain _ final)
      cases drained
      · exact (Still.refl s).joins
      · exact .of_same (quiet_saveCheckpoint s io).same (quiet_saveCheckpoint s io).published
          (saveCheckpoint_rows io)
  | next nowNs nowMs => exact joins_next hok.apart h
  | expire nowNs nowMs order => exact joins_expire hok.apart h
  | time due =>
      rcases time_cases h with ⟨-, rfl⟩ | rfl
      · exact (still_go s _).joins
      · exact (still_go s _).joins
  | submit => cases he
  | reap i io forcedIo =>
      obtain ⟨task, -, hreaped⟩ := reap_cases hst h
      cases hreaped <;> exact .of_same (hsame rfl) rfl rfl
  | settle io =>
      obtain ⟨final, -, -, rfl⟩ := settle_cases h
      refine Joins.still ?_ (still_go _ _)
      exact .of_same (quiet_saveCheckpoint s io).same (quiet_saveCheckpoint s io).published
        (saveCheckpoint_rows io)
  | publish due nowNs => cases he
  | reload rules batchLines maxInflight =>
      dsimp only at h
      split at h
      · cases h
        exact (still_of s _ _ rules batchLines maxInflight _ _).joins
      · cases h
  | again shutdown =>
      rcases again_cases h with rfl | rfl
      · exact (still_go s _).joins
      · exact (still_go s _).joins
  | unframe nowNs order => exact joins_unframe hok.apart hok.encodes h
  | die =>
      cases h
      exact (still_stop s).joins

/-! ## Runs -/

/-- What every state of a run satisfies that honours the claim. -/
structure ClaimInv (s : State) : Prop where
  core : Core s
  placed : s.phase ≠ .stopped → ∀ l ∈ s.made, s.Placed l
  low : i64Min ≤ s.watermark.publishedNs
  complete : s.watermark.publishedNs ≠ i64Min → s.Complete s.watermark.publishedNs
  rows : ∀ row ∈ s.rows, i64Min < s.watermark.publishedNs ∧
    row.watermarkNs ≤ s.watermark.publishedNs

/-- What a batch that is submitted claims is done. -/
theorem State.Allows.complete (h : s.Allows .submit) (hplaced : ∀ l ∈ s.made, s.Placed l)
    (hbatch : s.batch ≠ []) (hts : s.batchMaxTs ≠ i64Min)
    (hless : s.watermark.publishedNs < s.claim) : s.Complete s.claim := by
  intro l hl hlate hle
  rcases hplaced l hl with hd | ⟨-, hat⟩
  · exact hd
  · exact absurd (h hbatch hts hless l hl hat hlate) (not_lt.mpr hle)

/-- Submitting leaves the watermark, or moves it up to what the batch claims. -/
theorem submit_published (h : submit s = some s') :
    s'.watermark.publishedNs = s.watermark.publishedNs
      ∨ s.batch ≠ [] ∧ s.batchMaxTs ≠ i64Min ∧ s.watermark.publishedNs < s.claim
        ∧ s'.watermark.publishedNs = s.claim := by
  obtain ⟨after, -, ⟨-, rfl⟩ | ⟨hbatch, rfl⟩⟩ := submit_cases h
  · exact .inl (still_afterFlush s after).published
  · have hpublished := (still_afterFlush s.submitted after).published
    by_cases hts : s.batchMaxTs = i64Min
    · exact .inl (hpublished.trans (by simp [State.submitted, hts]))
    · have hmax : s.submitted.watermark.publishedNs = max s.watermark.publishedNs s.claim := by
        simp [State.submitted, hts, State.claim]
      rw [hmax] at hpublished
      rcases le_or_gt s.claim s.watermark.publishedNs with hle | hless
      · exact .inl (hpublished.trans (max_eq_left hle))
      · exact .inr ⟨hbatch, hts, hless, hpublished.trans (max_eq_right hless.le)⟩

theorem submit_rows (h : submit s = some s') : s'.rows = s.rows := by
  obtain ⟨after, -, ⟨-, rfl⟩ | ⟨-, rfl⟩⟩ := submit_cases h
  · exact (still_afterFlush s after).rows
  · exact (still_afterFlush s.submitted after).rows

theorem publish_rows {due : Bool} {nowNs : Int} (h : publish s due nowNs = some s') :
    s'.watermark.publishedNs = s.watermark.publishedNs
      ∧ ∀ row ∈ s'.rows, row ∈ s.rows
        ∨ s.watermark.publishedNs ≠ i64Min ∧ row.watermarkNs = s.watermark.publishedNs := by
  obtain ⟨base, hbase, hs'⟩ := publish_cases h
  have hstill : Still base s' := by
    rcases hs' with rfl | rfl
    · exact still_stop base
    · exact still_go base _
  rw [hstill.published, hstill.rows]
  rcases hbase with rfl | rfl
  · exact ⟨rfl, fun row hrow => .inl hrow⟩
  · refine ⟨(quiet_writeWatermark s nowNs).published, fun row hrow => ?_⟩
    rcases writeWatermark_rows s nowNs with hrows | ⟨hset, new, hnew, hrows⟩
    · exact .inl (hrows ▸ hrow)
    · rw [hrows] at hrow
      rcases List.mem_append.mp hrow with hrow | hrow
      · exact .inl hrow
      · cases List.mem_singleton.mp hrow
        exact .inr ⟨hset, hnew⟩

/-- A step after which every old record is done or was on time. -/
theorem Joins.complete (hj : Joins s s') (hd : Durable s s')
    (h : s.watermark.publishedNs ≠ i64Min → s.Complete s.watermark.publishedNs)
    (hset : s'.watermark.publishedNs ≠ i64Min) : s'.Complete s'.watermark.publishedNs := by
  rw [hj.published] at hset ⊢
  intro l hl hlate hle
  rcases hj.made l hl with hold | hlater | hdone
  · exact hd.done (h hset l hold hlate hle)
  · exact absurd (hlater hlate hset) (not_lt.mpr hle)
  · exact hdone

theorem ClaimInv.step {e : Event} (h : ClaimInv s) (hok : s.Honours c e)
    (hstep : FileSource.step c s e = some s') : ClaimInv s' := by
  have hrun := running_of_step hstep
  have hdurable := step_durable h.core hstep
  have hplaced := step_placed h.core (h.placed hrun) hok.encodes hstep
  have hcore := hdurable.core h.core
  by_cases he : e.claims = false
  · have hj := step_joins h.core hok hstep he
    refine ⟨hcore, hplaced, hj.published ▸ h.low, hj.complete hdurable h.complete, ?_⟩
    rw [hj.rows, hj.published]
    exact h.rows
  · have hsame : e.feeds = false → Same s s' := step_same h.core hstep
    unfold FileSource.step at hstep
    rw [if_neg hrun] at hstep
    cases e with
    | submit =>
        have hmade := (hsame rfl).made
        have hrows := submit_rows hstep
        rcases submit_published hstep with hsamew | ⟨hbatch, hts, hless, hclaim⟩
        · refine ⟨hcore, hplaced, hsamew ▸ h.low, ?_, by rw [hrows, hsamew]; exact h.rows⟩
          rw [hsamew]
          exact fun hset => hdurable.complete hmade (h.complete hset)
        · have hdone := hok.allows.complete (h.placed hrun) hbatch hts hless
          refine ⟨hcore, hplaced, ?_, fun _ => ?_, ?_⟩
          · rw [hclaim]
            exact h.low.trans hless.le
          · rw [hclaim]
            exact hdurable.complete hmade hdone
          · rw [hrows, hclaim]
            exact fun row hrow => ⟨(h.rows row hrow).1.trans hless,
              (h.rows row hrow).2.trans hless.le⟩
    | publish due nowNs =>
        obtain ⟨hpublished, hrows⟩ := publish_rows hstep
        refine ⟨hcore, hplaced, hpublished ▸ h.low, ?_, fun row hrow => ?_⟩
        · rw [hpublished]
          exact fun hset => hdurable.complete (hsame rfl).made (h.complete hset)
        · rw [hpublished]
          rcases hrows row hrow with hold | ⟨hset, hw⟩
          · exact h.rows row hold
          · exact ⟨lt_of_le_of_ne h.low (Ne.symm hset), hw.le⟩
    | _ => exact absurd rfl he

theorem ClaimInv.start {fs : Fs} {restored : Option Checkpoint} {adopted : Adopted}
    (h : FileSource.start c fs restored adopted = some s) : ClaimInv s := by
  have hcore := start_core h
  have hnone : s.watermark.publishedNs = i64Min := by
    obtain ⟨tailer, -, rfl⟩ := Option.map_eq_some_iff.mp h
    dsimp only
    split <;> rfl
  obtain ⟨tailer, -, rfl⟩ := Option.map_eq_some_iff.mp h
  exact ⟨hcore, by simp, hnone.ge, fun hset => absurd hnone hset, by simp⟩

/-- **Every published row is a true claim**, in every run in which a batch moves
the watermark only as far as everything on its way lies above it. -/
theorem rows_complete {fs : Fs} {restored : Option Checkpoint} {adopted : Adopted} {s₀ : State}
    {es : List Event} (hstart : start c fs restored adopted = some s₀)
    (hok : Meets (step c) (State.Honours c) s₀ es) (hrun : run (step c) s₀ es = some s) :
    ∀ row ∈ s.rows, s.Complete row.watermarkNs := by
  have h : ClaimInv s := run_invariant (fun _ _ _ h hok hstep => h.step hok hstep)
    (.start hstart) hok hrun
  intro row hrow
  obtain ⟨hset, hle⟩ := h.rows row hrow
  exact (h.complete hset.ne').mono hle

/-! ## A server that is down -/

/-- A line is read and its batch submitted; then a row is published. -/
def publishedPass (answer : Answer Line) : List Event :=
  [.drained .ok, .next 5 0, .next 5 0, .expire 5 0 [], .time true, .submit, .finish 0 [answer],
    .reap 0 .ok .ok, .settle .ok, .publish true 6]

/-- The row says that everything up to the line's time is there, and the line is
in the queue. -/
theorem row_incomplete :
    ∃ s₀ s, start (plainConfig 10 100) (oneFile "new\n".toList) none nothingQueued = some s₀
      ∧ run (step (plainConfig 10 100)) s₀ (publishedPass down) = some s
      ∧ ∃ row ∈ s.rows, ¬ s.Complete row.watermarkNs := by
  refine ⟨_, _, rfl, rfl, _, List.mem_cons_self .., fun h => ?_⟩
  rcases h _ (List.mem_cons_self ..) (by decide +kernel) (by decide +kernel) with hack | ⟨d, hd, -⟩
  · cases hack
  · cases hd

/-- The record of a line, if there is one, is not for the moment that is published. -/
def State.passesApart (c : Config) (s : State) (e : Event) : Bool :=
  (s.completed c e).all fun (line, nowNs) =>
    match s.built c line nowNs with
    | .ok (.ready _ ts) =>
        decide (s.watermark.publishedNs = i64Min ∨ ts ≠ s.watermark.publishedNs)
    | _ => true

theorem apart_of_passesApart {e : Event} (h : s.passesApart c e = true) : s.Apart c e := by
  intro line nowNs hline record ts hbuilt hset
  rw [State.passesApart, hline, Option.all_some] at h
  simp only [hbuilt, decide_eq_true_eq] at h
  exact h.resolve_left hset

/-- What is easily seen to be enough: nothing is shipped at shutdown, and a batch lies
above its own claim while nothing else is on its way. -/
def State.calm (c : Config) (s : State) : Event → Bool
  | .unframe .. => false
  | .submit => s.batch.all (fun l => decide (s.claim < l.ts)) && s.inflight.isEmpty
      && s.held.isEmpty && s.dir.isEmpty
  | e => s.passesApart c e

theorem honours_of_calm {e : Event} (h : s.calm c e = true) : s.Honours c e := by
  cases e with
  | unframe nowNs order => cases h
  | submit =>
      refine ⟨True.intro, fun _ _ hnone => (nomatch hnone), fun _ _ _ l _ hat _ => ?_⟩
      simp only [State.calm, Bool.and_eq_true, List.all_eq_true, decide_eq_true_eq,
        List.isEmpty_iff] at h
      obtain ⟨⟨⟨habove, hinflight⟩, hheld⟩, hdir⟩ := h
      rcases hat with (hl | ⟨t, ht, -⟩ | ⟨b, hb, -⟩) | ⟨p, body, hm, -⟩
      · exact habove l hl
      · simp [hinflight] at ht
      · simp [hheld] at hb
      · simp [hdir] at hm
  | _ => exact ⟨True.intro, apart_of_passesApart h, True.intro⟩

/-- Two nanoseconds of allowance. -/
def allowanceConfig : Config := { plainConfig 10 100 with ceilingNs := 2 }

/-- A line is shipped; a second one is read while the server is down. -/
def twoPasses : List Event :=
  publishedPass up ++ [.again false, .files (oneFile "old\nnew\n".toList), .drained .ok,
    .next 20 0, .next 20 0, .expire 20 0 [], .time true, .submit, .finish 0 [down],
    .reap 0 .ok .ok, .settle .ok, .publish true 21]

/-- The second row lies above the line that is shipped and below the one that is queued. -/
theorem rows_complete_allowance :
    ∃ s₀ s, start allowanceConfig (oneFile "old\n".toList) none nothingQueued = some s₀
      ∧ run (step allowanceConfig) s₀ twoPasses = some s
      ∧ s.rows.map (·.watermarkNs) = [3, 18] ∧ s.made.map (·.ts) = [5, 20]
      ∧ s.dir.length = 1 ∧ ∀ row ∈ s.rows, s.Complete row.watermarkNs := by
  have hrun : ∃ s₀ s, start allowanceConfig (oneFile "old\n".toList) none nothingQueued = some s₀
      ∧ run (step allowanceConfig) s₀ twoPasses = some s
      ∧ Meets (step allowanceConfig) (fun s e => s.calm allowanceConfig e = true) s₀ twoPasses
      ∧ s.rows.map (·.watermarkNs) = [3, 18] ∧ s.made.map (·.ts) = [5, 20]
      ∧ s.dir.length = 1 :=
    ⟨_, _, rfl, rfl, by decide +kernel, by decide +kernel, by decide +kernel, by decide +kernel⟩
  obtain ⟨s₀, s, hstart, hrun, hcalm, hrows, hmade, hdir⟩ := hrun
  exact ⟨s₀, s, hstart, hrun, hrows, hmade, hdir,
    rows_complete hstart (hcalm.mono fun _ _ h => honours_of_calm h) hrun⟩

end Tributary.FileSource
