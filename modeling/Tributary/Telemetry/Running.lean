import Tributary.Telemetry

/-!
# Whose figures the gauges show

A gauge is the sum over every tail that ever started. What it says of the tails that run
is off by what the ended ones stored last: nothing stores into their snapshots again, and
nothing takes them from the list.
-/

namespace Tributary.Telemetry

open Lib

variable {t t' : Telemetry} {e : Event} {i : Nat} {r : Registered}

/-! ## The law -/

/-- The gauges that are sums. -/
def gauges : List (SourceSnap → Nat) :=
  [(·.queueBytes), (·.queueSegments), (·.pendingLines), (·.inflightBatches), (·.unreadBytes),
    (·.filesOpen)]

/-- The tails that run. -/
def running (t : Telemetry) : List Registered := t.sources.filter fun r => r.task.isSome

/-- The snapshots of the tails that have ended. -/
def past (t : Telemetry) : List Registered := t.sources.filter fun r => r.task.isNone

/-- The tail has queued data, is full, or is refused for its credential. -/
def Registered.held (r : Registered) : Bool :=
  r.snap.queueBytes != 0 || r.snap.queueFull || r.task.any (·.refused)

/-- **The gauges describe the tails that run**, and so does the health check. -/
structure Describes (t : Telemetry) : Prop where
  sums : ∀ g ∈ gauges, g t.aggregate.total = (t.running.map fun r => g r.snap).sum
  full : t.aggregate.total.queueFull = t.running.any fun r => r.snap.queueFull
  shipping : (∀ r ∈ t.running, r.held = false) → ∀ now, (t.health now).1.shipping = true

/-- The ended tails left their gauges at zero and full only where a running one is, and a
credential was refused only if some running tail is held. -/
structure Settled (t : Telemetry) : Prop where
  zero : ∀ r ∈ t.past, ∀ g ∈ gauges, g r.snap = 0
  full : ∀ r ∈ t.past, r.snap.queueFull = true → ∃ r' ∈ t.running, r'.snap.queueFull = true
  authorized : t.unauthorized ≠ 0 → ∃ r ∈ t.running, r.held = true

/-- A tail ends with its gauges stored as zero and not full, and no request is refused for
its credential. -/
def Clean (t : Telemetry) : Event → Prop
  | .ended i => ∀ r ∈ t.sources[i]?, (∀ g ∈ gauges, g r.snap = 0) ∧ r.snap.queueFull = false
  | .answered _ unauthorized => unauthorized = false
  | _ => True

instance : DecidableRel Clean := fun t e =>
  match e with
  | .ended i => inferInstanceAs (Decidable (∀ r ∈ t.sources[i]?,
      (∀ g ∈ gauges, g r.snap = 0) ∧ r.snap.queueFull = false))
  | .answered _ unauthorized => inferInstanceAs (Decidable (unauthorized = false))
  | .started | .published .. | .rendered => isTrue True.intro

/-! ## Running and past -/

/-- A sum over the list is one over the running tails and one over the past. -/
theorem sum_eq (t : Telemetry) (g : SourceSnap → Nat) :
    t.sum g = (t.running.map fun r => g r.snap).sum + (t.past.map fun r => g r.snap).sum := by
  unfold sum running past
  induction t.sources with
  | nil => rfl
  | cons r rest ih =>
      cases hr : r.task with
      | some task => simp [hr, ih, Nat.add_assoc]
      | none => simp [hr, ih, Nat.add_left_comm]

theorem mem_sources : r ∈ t.sources ↔ r ∈ t.running ∨ r ∈ t.past := by
  unfold running past
  cases hr : r.task <;> simp [List.mem_filter, hr]

theorem aggregate_gauge : ∀ g ∈ gauges, g t.aggregate.total = t.sum g := by
  simp [gauges, aggregate]

/-- A gauge is right if the past adds nothing to it. -/
theorem gauge_eq_iff {g : SourceSnap → Nat} (hg : g ∈ gauges) :
    g t.aggregate.total = (t.running.map fun r => g r.snap).sum
      ↔ ∀ r ∈ t.past, g r.snap = 0 := by
  rw [aggregate_gauge g hg, sum_eq, Nat.add_eq_left, List.sum_eq_zero_iff_forall_eq_nat]
  simp

theorem full_eq_iff :
    (t.aggregate.total.queueFull = t.running.any fun r => r.snap.queueFull)
      ↔ ∀ r ∈ t.past, r.snap.queueFull = true → ∃ r' ∈ t.running, r'.snap.queueFull = true := by
  have hall : t.aggregate.total.queueFull = true ↔ ∃ r ∈ t.sources, r.snap.queueFull = true := by
    simp [aggregate]
  rw [Bool.eq_iff_iff, hall, List.any_eq_true]
  constructor
  · exact fun h r hr hfull => h.mp ⟨r, mem_sources.mpr (.inr hr), hfull⟩
  · refine fun h => ⟨?_, fun ⟨r, hr, hfull⟩ => ⟨r, mem_sources.mpr (.inl hr), hfull⟩⟩
    rintro ⟨r, hr, hfull⟩
    rcases mem_sources.mp hr with hr | hr
    · exact ⟨r, hr, hfull⟩
    · exact h r hr hfull

theorem held_eq_false : r.held = false ↔
    r.snap.queueBytes = 0 ∧ r.snap.queueFull = false ∧ r.task.any (·.refused) = false := by
  simp [Registered.held, and_assoc]

theorem shipping_iff {now : Nat} : (t.health now).1.shipping = true ↔
    t.aggregate.total.queueBytes = 0 ∧ t.aggregate.total.queueFull = false
      ∧ t.unauthorized = 0 := by
  simp [health, and_assoc, aggregate]

/-! ## When the law holds -/

/-- **The gauges describe the tails that run exactly if the past adds nothing to them.** -/
theorem describes_iff : Describes t ↔ Settled t := by
  constructor
  · intro h
    have hzero : ∀ r ∈ t.past, ∀ g ∈ gauges, g r.snap = 0 :=
      fun r hr g hg => (gauge_eq_iff hg).mp (h.sums g hg) r hr
    refine ⟨hzero, full_eq_iff.mp h.full, fun hne => ?_⟩
    by_contra hnone
    have hquiet : ∀ r ∈ t.running, r.held = false := by
      intro r hr
      rw [Bool.eq_false_iff]
      exact fun hheld => hnone ⟨r, hr, hheld⟩
    exact hne (shipping_iff.mp (h.shipping hquiet 0)).2.2
  · intro h
    have hsums : ∀ g ∈ gauges, g t.aggregate.total = (t.running.map fun r => g r.snap).sum :=
      fun g hg => (gauge_eq_iff hg).mpr fun r hr => h.zero r hr g hg
    have hfull := full_eq_iff.mpr h.full
    refine ⟨hsums, hfull, fun hquiet now => shipping_iff.mpr ⟨?_, ?_, ?_⟩⟩
    · rw [hsums (·.queueBytes) (List.mem_cons_self ..), List.sum_eq_zero_iff_forall_eq_nat]
      intro n hn
      obtain ⟨r, hr, rfl⟩ := List.mem_map.mp hn
      exact (held_eq_false.mp (hquiet r hr)).1
    · rw [hfull, List.any_eq_false]
      intro r hr
      rw [Bool.not_eq_true]
      exact (held_eq_false.mp (hquiet r hr)).2.1
    · by_contra hne
      obtain ⟨r, hr, hheld⟩ := h.authorized hne
      rw [hquiet r hr] at hheld
      cases hheld

/-! ## Runs -/

/-- The past is all zero, and no credential was refused. -/
structure Spotless (t : Telemetry) : Prop where
  past : ∀ r ∈ t.sources, r.task = none → (∀ g ∈ gauges, g r.snap = 0) ∧ r.snap.queueFull = false
  authorized : t.unauthorized = 0

theorem Spotless.settled (h : Spotless t) : Settled t := by
  have hpast : ∀ r ∈ t.past, (∀ g ∈ gauges, g r.snap = 0) ∧ r.snap.queueFull = false := by
    intro r hr
    obtain ⟨hmem, hnone⟩ := List.mem_filter.mp hr
    exact h.past r hmem (by simpa using hnone)
  refine ⟨fun r hr => (hpast r hr).1, fun r hr hfull => ?_, fun hne => absurd h.authorized hne⟩
  rw [(hpast r hr).2] at hfull
  cases hfull

/-- One snapshot is replaced by one of a running tail, or a clean one. -/
theorem Spotless.set (h : Spotless t) {r' : Registered}
    (hr : r'.task = none → (∀ g ∈ gauges, g r'.snap = 0) ∧ r'.snap.queueFull = false) :
    ∀ r ∈ t.sources.set i r', r.task = none →
      (∀ g ∈ gauges, g r.snap = 0) ∧ r.snap.queueFull = false := by
  intro r hmem hnone
  rcases List.mem_or_eq_of_mem_set hmem with hmem | rfl
  · exact h.past r hmem hnone
  · exact hr hnone

theorem Spotless.step (h : Spotless t) (hok : Clean t e) (hs : Telemetry.step t e = some t') :
    Spotless t' := by
  cases e with
  | started =>
      cases hs
      refine ⟨fun r hr hnone => ?_, h.authorized⟩
      rcases List.mem_append.mp hr with hr | hr
      · exact h.past r hr hnone
      · rw [List.mem_singleton.mp hr] at hnone
        cases hnone
  | published i snap now expiresInSecs healthy =>
      obtain ⟨task, -, rfl⟩ := Option.map_eq_some_iff.mp hs
      exact ⟨h.set nofun, h.authorized⟩
  | answered i unauthorized =>
      obtain ⟨r, -, hs⟩ := Option.bind_eq_some_iff.mp hs
      obtain ⟨task, -, rfl⟩ := Option.map_eq_some_iff.mp hs
      cases (hok : unauthorized = false)
      exact ⟨h.set nofun, h.authorized⟩
  | ended i =>
      obtain ⟨r, hr, hs⟩ := Option.bind_eq_some_iff.mp hs
      obtain ⟨task, -, rfl⟩ := Option.map_eq_some_iff.mp hs
      exact ⟨h.set fun _ => hok r hr, h.authorized⟩
  | rendered =>
      cases hs
      exact ⟨h.past, h.authorized⟩

/-- **Over every history of tails**: in each state the gauges describe the tails that run
exactly if the past adds nothing; and they do in every state of a history in which tails
end clean. -/
theorem gauges_describe_iff (now : Nat) (es : List Event) (t : Telemetry)
    (hr : run step (new now) es = some t) :
    (Describes t ↔ Settled t) ∧ (Meets step Clean (new now) es → Describes t) := by
  refine ⟨describes_iff, fun hok => describes_iff.mpr ?_⟩
  have hstart : Spotless (new now) := ⟨nofun, rfl⟩
  exact (run_invariant (fun _ _ _ h hok hs => h.step hok hs) hstart hok hr).settled

/-! ## A tail that is retired -/

/-- The figures of a tail whose server is away. -/
def spooled : SourceSnap :=
  { SourceSnap.default with queueBytes := 4096, queueSegments := 1, filesOpen := 1 }

/-- A tail starts, spools, and drains all it has in its shutdown, after its last pass. -/
def retired : List Event := [.started, .published 0 spooled 10 none true, .ended 0, .rendered]

/-- The figures of a tail that read and shipped all it had. -/
def drained : SourceSnap := { SourceSnap.default with linesRead := 40, drainedTotal := 3 }

/-- One tail spools all along. The file of another is rotated away once all of it was
shipped, and adopted again. -/
def readopted : List Event :=
  [.started, .started, .published 0 spooled 10 none true, .published 1 spooled 11 none true,
    .answered 1 false, .published 1 drained 20 none true, .ended 1, .rendered,
    .started, .answered 2 false, .published 2 { spooled with queueBytes := 512 } 30 none true,
    .rendered]

/-- Two tails run and one has ended; the gauges show what the two hold. -/
theorem gauges_describe_iff_readopted :
    ∃ t, run step (new 0) readopted = some t ∧ Describes t
      ∧ t.running.length = 2 ∧ t.past.map (·.snap) = [drained]
      ∧ t.total.queueBytes = 4608 ∧ t.total.linesRead = 40 :=
  ⟨_, rfl, (gauges_describe_iff 0 readopted _ rfl).2 (by decide), by decide, by decide, rfl, rfl⟩

/-- No tail runs, and the gauges still show what the one that ended had queued. -/
theorem retired_still_counted :
    ¬ ∀ (now : Nat) (es : List Event) (t : Telemetry), run step (new now) es = some t →
      Describes t := by
  intro h
  have hsum := (h 0 retired _ rfl).sums (·.queueBytes) (List.mem_cons_self ..)
  exact absurd hsum (by decide)

end Tributary.Telemetry
