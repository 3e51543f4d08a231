import Tributary.Checkpoint
import Tributary.Lib.Table
import Tributary.Lib.Window
import Tributary.Word

/-!
# Timestamp assignment

A source timestamp coarser than a nanosecond leaves precision unused; the
stamper fills it with a per-tick sequence number. The counters of the last
`WINDOW` opened ticks are kept, in the order in which the ticks were opened.

The second half says what `stamp` does in terms of that window: a hit counts
on, a miss opens the tick at zero and slides the window.
-/

namespace Tributary

open Lib

/-- How many nanoseconds one source tick covers. -/
inductive Resolution where
  | seconds
  | millis
  | micros
  | nanos
deriving DecidableEq, Repr

def Resolution.tickNs : Resolution → Int
  | .seconds => 1000000000
  | .millis => 1000000
  | .micros => 1000
  | .nanos => 1

def Resolution.parse : String → Option Resolution
  | "s" | "sec" | "seconds" => some .seconds
  | "ms" | "millis" | "milliseconds" => some .millis
  | "us" | "micros" | "microseconds" => some .micros
  | "ns" | "nanos" | "nanoseconds" => some .nanos
  | _ => none

namespace Stamp

/-- How many recent ticks stay addressable. -/
def WINDOW : Nat := 64

/-- More lines in one source tick than the tick has slots. -/
inductive StampError where
  | exhausted (tickNs sourceTsNs : Int)
deriving DecidableEq, Repr

/-- Per-stream timestamp assignment. -/
structure Stamper where
  tickNs : Int
  /-- tick → next free sequence within it -/
  next : Table Int Int
  /-- the ticks of `next`, oldest opening first -/
  order : List Int
  outOfWindow : Nat

namespace Stamper

def new (resolution : Resolution) : Stamper :=
  { tickNs := resolution.tickNs, next := .empty, order := [], outOfWindow := 0 }

/-- The `while order.len() > WINDOW` loop: drop the oldest ticks and their
counters. -/
def prune : List Int → Table Int Int → List Int × Table Int Int
  | [], next => ([], next)
  | evicted :: order, next =>
      if WINDOW < order.length + 1 then prune order (next.del evicted)
      else (evicted :: order, next)

/-- `source_ts_ns - source_ts_ns.rem_euclid(tick_ns)`. -/
def tickOf (tickNs sourceTsNs : Int) : Int := wrap64 (sourceTsNs - sourceTsNs % tickNs)

/-- Assign a nanosecond timestamp to a line with the given source timestamp. -/
def stamp (s : Stamper) (sourceTsNs : Int) : Except StampError Int × Stamper :=
  if s.tickNs = 1 then
    -- the source claims full precision: nothing to fill
    (.ok sourceTsNs, s)
  else
    let tick := tickOf s.tickNs sourceTsNs
    match s.next.get tick with
    | some seq =>
        if s.tickNs ≤ seq then (.error (.exhausted s.tickNs sourceTsNs), s)
        else (.ok (wrap64 (tick + seq)), { s with next := s.next.set tick (seq + 1) })
    | none =>
        -- only the oldest opening is compared, not the oldest tick
        let counted := match s.order.head? with
          | some oldest => if tick < oldest then 1 else 0
          | none => 0
        let kept := prune (s.order ++ [tick]) (s.next.set tick 1)
        (.ok (wrap64 (tick + 0)),
          { s with next := kept.2, order := kept.1, outOfWindow := s.outOfWindow + counted })

/-- Continue a sequence that a checkpoint recorded. -/
def restore (s : Stamper) (tick nextSeq : Int) : Stamper :=
  if s.tickNs = 1 then s
  else { s with next := s.next.set tick nextSeq, order := s.order ++ [tick] }

/-- The state a checkpoint carries: the tick opened last and its counter. -/
def checkpoint (s : Stamper) : Option (Int × Int) :=
  s.order.getLast?.bind fun tick => (s.next.get tick).map fun seq => (tick, seq)

/-- The stamper fields `save_checkpoint` writes. -/
def save (s : Stamper) : Checkpoint :=
  match s.checkpoint with
  | some (t, q) => { lastTickNs := some t, nextSeq := q }
  | none => { lastTickNs := none, nextSeq := 0 }

/-- The stamper `run_file_source` starts with, given the saved checkpoint. -/
def resume (resolution : Resolution) (cp : Checkpoint) : Stamper :=
  match cp.lastTickNs with
  | some tick => (new resolution).restore tick cp.nextSeq
  | none => new resolution

/-- Stamp a sequence of source timestamps: the answers in order, and the
stamper afterwards. -/
def stampAll (s : Stamper) : List Int → List (Except StampError Int) × Stamper
  | [] => ([], s)
  | ts :: rest =>
      let one := s.stamp ts
      let more := stampAll one.2 rest
      (one.1 :: more.1, more.2)

/-! ## The window invariant -/

/-- The counters kept are those of the ticks in `order`, each opened once and
counting from one. -/
structure Wf (s : Stamper) : Prop where
  nodup : s.order.Nodup
  bounded : s.order.length ≤ WINDOW
  counters : ∀ τ, (s.next.get τ).isSome ↔ τ ∈ s.order
  positive : ∀ τ c, s.next.get τ = some c → 0 < c

theorem prune_fst (order : List Int) (next : Table Int Int) :
    (prune order next).1 = lastN WINDOW order := by
  induction order generalizing next with
  | nil => rfl
  | cons τ order ih =>
      by_cases h : WINDOW < order.length + 1
      · rw [prune, if_pos h, ih, lastN_cons (by omega)]
      · rw [prune, if_neg h, lastN_of_le (by simp only [List.length_cons]; omega)]

/-- Pruning forgets the counters of the ticks it drops and no others. -/
theorem prune_snd {order : List Int} (hnd : order.Nodup) (next : Table Int Int) (τ : Int) :
    (prune order next).2.get τ
      = if τ ∈ order ∧ τ ∉ lastN WINDOW order then none else next.get τ := by
  induction order generalizing next with
  | nil => simp [prune]
  | cons σ order ih =>
      obtain ⟨hσ, hnd⟩ := List.nodup_cons.mp hnd
      by_cases h : WINDOW < order.length + 1
      · rw [prune, if_pos h, ih hnd, lastN_cons (by omega), Table.get_del]
        by_cases hτ : τ = σ
        · subst hτ
          have hlast : τ ∉ lastN WINDOW order := fun hm =>
            hσ ((lastN_suffix _ _).subset hm)
          simp [hσ, hlast]
        · simp [hτ]
      · have hlen : (σ :: order).length ≤ WINDOW := by
          simp only [List.length_cons]
          omega
        rw [prune, if_neg h, lastN_of_le hlen, if_neg fun hc => hc.2 hc.1]

theorem Wf.new (res : Resolution) : (new res).Wf where
  nodup := List.nodup_nil
  bounded := Nat.zero_le _
  counters := by simp [Stamper.new]
  positive := by simp [Stamper.new]

theorem Wf.get_none {s : Stamper} (h : s.Wf) {τ : Int} (hτ : τ ∉ s.order) :
    s.next.get τ = none := by
  cases hg : s.next.get τ with
  | none => rfl
  | some c => exact absurd ((h.counters τ).mp (by simp [hg])) hτ

theorem Wf.get_some {s : Stamper} (h : s.Wf) {τ : Int} (hτ : τ ∈ s.order) :
    ∃ c, s.next.get τ = some c ∧ 0 < c := by
  obtain ⟨c, hc⟩ := Option.isSome_iff_exists.mp ((h.counters τ).mpr hτ)
  exact ⟨c, hc, h.positive τ c hc⟩

/-! ## What one `stamp` does -/

theorem stamp_nanos {s : Stamper} (h : s.tickNs = 1) (ts : Int) :
    s.stamp ts = (.ok ts, s) := by
  rw [stamp, if_pos h]

/-- An open tick with a free slot: the counter is issued and advanced. -/
theorem stamp_hit {s : Stamper} {ts c : Int} (h : s.tickNs ≠ 1)
    (hc : s.next.get (tickOf s.tickNs ts) = some c) (hfree : c < s.tickNs) :
    s.stamp ts = (.ok (wrap64 (tickOf s.tickNs ts + c)),
      { s with next := s.next.set (tickOf s.tickNs ts) (c + 1) }) := by
  simp only [stamp, if_neg h, hc, if_neg (Int.not_le.mpr hfree)]

/-- An open tick without a free slot: refused, nothing changes. -/
theorem stamp_exhausted {s : Stamper} {ts c : Int} (h : s.tickNs ≠ 1)
    (hc : s.next.get (tickOf s.tickNs ts) = some c) (hfull : s.tickNs ≤ c) :
    s.stamp ts = (.error (.exhausted s.tickNs ts), s) := by
  simp only [stamp, if_neg h, hc, if_pos hfull]

/-- The tick would be counted in `outOfWindow` if it had to be opened. -/
def Counted (order : List Int) (tick : Int) : Prop :=
  ∃ oldest, order.head? = some oldest ∧ tick < oldest

instance (order : List Int) (tick : Int) : Decidable (Counted order tick) :=
  match h : order.head? with
  | none => .isFalse fun ⟨_, ho, _⟩ => by simp [h] at ho
  | some oldest =>
      if hlt : tick < oldest then .isTrue ⟨oldest, h, hlt⟩
      else .isFalse fun ⟨_, ho, ht⟩ => hlt (by rw [h] at ho; cases ho; exact ht)

/-- A tick that is not open: opened at zero, the window slides, and the
opening is counted when the tick lies below the oldest opening. -/
theorem stamp_miss {s : Stamper} {ts : Int} (h : s.tickNs ≠ 1)
    (hn : s.next.get (tickOf s.tickNs ts) = none) :
    s.stamp ts = (.ok (wrap64 (tickOf s.tickNs ts)),
      { s with
        next := (prune (s.order ++ [tickOf s.tickNs ts])
          (s.next.set (tickOf s.tickNs ts) 1)).2
        order := lastN WINDOW (s.order ++ [tickOf s.tickNs ts])
        outOfWindow := s.outOfWindow
          + if Counted s.order (tickOf s.tickNs ts) then 1 else 0 }) := by
  have hcount : (match s.order.head? with
      | some oldest => if tickOf s.tickNs ts < oldest then 1 else 0
      | none => 0) = if Counted s.order (tickOf s.tickNs ts) then 1 else 0 := by
    cases ho : s.order.head? with
    | none => simp [Counted, ho]
    | some oldest => simp [Counted, ho]
  simp only [stamp, if_neg h, hn, prune_fst, hcount, Int.add_zero]

@[simp] theorem stamp_tickNs (s : Stamper) (ts : Int) : (s.stamp ts).2.tickNs = s.tickNs := by
  unfold stamp
  split
  · rfl
  · simp only
    split
    · split <;> rfl
    · rfl

/-- **The window moves as a sliding window of openings.** -/
theorem stamp_order {s : Stamper} (hs : s.Wf) (h : s.tickNs ≠ 1) (ts : Int) :
    (s.stamp ts).2.order = slide WINDOW s.order (tickOf s.tickNs ts) := by
  by_cases hm : tickOf s.tickNs ts ∈ s.order
  · obtain ⟨c, hc, -⟩ := hs.get_some hm
    rw [slide_known hm]
    by_cases hfree : c < s.tickNs
    · rw [stamp_hit h hc hfree]
    · rw [stamp_exhausted h hc (Int.not_lt.mp hfree)]
  · rw [slide_fresh hm, stamp_miss h (hs.get_none hm)]

/-- The counter of every tick after a miss: the new tick stands at one, a tick
still in the window keeps its counter, an evicted one has none. -/
theorem get_after_miss {s : Stamper} (hs : s.Wf) {σ : Int} (hσ : σ ∉ s.order) (τ : Int) :
    (prune (s.order ++ [σ]) (s.next.set σ 1)).2.get τ
      = if τ ∈ lastN WINDOW (s.order ++ [σ]) then
          (if τ = σ then some 1 else s.next.get τ) else none := by
  have hnd : (s.order ++ [σ]).Nodup := by
    rw [← List.concat_eq_append]
    exact (List.nodup_concat s.order σ).mpr ⟨hσ, hs.nodup⟩
  rw [prune_snd hnd, Table.get_set]
  by_cases hin : τ ∈ lastN WINDOW (s.order ++ [σ])
  · simp [hin]
  · by_cases hmem : τ ∈ s.order ++ [σ]
    · simp [hin, hmem]
    · have hτ : τ ∉ s.order ∧ τ ≠ σ := by simpa [not_or] using hmem
      simp [hin, hτ.1, hτ.2, hs.get_none hτ.1]

theorem Wf.stamp {s : Stamper} (hs : s.Wf) (ts : Int) : (s.stamp ts).2.Wf := by
  by_cases h : s.tickNs = 1
  · rw [stamp_nanos h]
    exact hs
  by_cases hm : tickOf s.tickNs ts ∈ s.order
  · obtain ⟨c, hc, hpos⟩ := hs.get_some hm
    by_cases hfree : c < s.tickNs
    · rw [stamp_hit h hc hfree]
      refine ⟨hs.nodup, hs.bounded, fun τ => ?_, fun τ d => ?_⟩
      · rw [Table.get_set]
        by_cases hτ : τ = tickOf s.tickNs ts
        · simp [hτ, hm]
        · simpa [hτ] using hs.counters τ
      · rw [Table.get_set]
        by_cases hτ : τ = tickOf s.tickNs ts
        · intro hd
          simp only [if_pos hτ, Option.some.injEq] at hd
          omega
        · simpa [hτ] using hs.positive τ d
    · rw [stamp_exhausted h hc (Int.not_lt.mp hfree)]
      exact hs
  · have horder := stamp_order hs h ts
    rw [slide_fresh hm] at horder
    rw [stamp_miss h (hs.get_none hm)]
    refine ⟨?_, ?_, fun τ => ?_, fun τ d => ?_⟩
    · rw [← slide_fresh hm]
      exact slide_nodup hs.nodup _
    · rw [length_lastN]
      exact Nat.min_le_left _ _
    · rw [get_after_miss hs hm]
      by_cases hin : τ ∈ lastN WINDOW (s.order ++ [tickOf s.tickNs ts])
      · rcases List.mem_append.mp ((lastN_suffix _ _).subset hin) with hτ | hτ
        · have hne : τ ≠ tickOf s.tickNs ts := fun he => hm (he ▸ hτ)
          simp [hin, hne, (hs.counters τ).mpr hτ]
        · simp [List.mem_singleton.mp hτ]
      · simp [hin]
    · rw [get_after_miss hs hm]
      intro hd
      split at hd
      · split at hd
        · cases hd
          decide
        · exact hs.positive τ d hd
      · cases hd

/-! ## Sequences -/

@[simp] theorem stampAll_tickNs (s : Stamper) (tss : List Int) :
    (s.stampAll tss).2.tickNs = s.tickNs := by
  induction tss generalizing s with
  | nil => rfl
  | cons ts rest ih => simp [stampAll, ih]

theorem stampAll_append (s : Stamper) (xs ys : List Int) :
    s.stampAll (xs ++ ys)
      = ((s.stampAll xs).1 ++ ((s.stampAll xs).2.stampAll ys).1,
          ((s.stampAll xs).2.stampAll ys).2) := by
  induction xs generalizing s with
  | nil => rfl
  | cons ts rest ih => simp [stampAll, ih]

theorem stampAll_nanos {s : Stamper} (h : s.tickNs = 1) (tss : List Int) :
    s.stampAll tss = (tss.map .ok, s) := by
  induction tss with
  | nil => rfl
  | cons ts rest ih => simp [stampAll, stamp_nanos h, ih]

theorem Wf.stampAll {s : Stamper} (hs : s.Wf) (tss : List Int) : (s.stampAll tss).2.Wf := by
  induction tss generalizing s with
  | nil => exact hs
  | cons ts rest ih => exact ih (hs.stamp ts)

/-- The window after a sequence, from the ticks of the sequence alone. -/
theorem stampAll_order {s : Stamper} (hs : s.Wf) (h : s.tickNs ≠ 1) (tss : List Int) :
    (s.stampAll tss).2.order = slides WINDOW s.order (tss.map (tickOf s.tickNs)) := by
  induction tss generalizing s with
  | nil => rfl
  | cons ts rest ih =>
      have hstep := ih (hs.stamp ts) (by simpa using h)
      rw [stamp_order hs h, stamp_tickNs] at hstep
      simpa [Stamper.stampAll] using hstep

end Stamper

end Stamp

end Tributary
