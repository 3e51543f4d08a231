import Mathlib.Tactic.Tauto
import Tributary.FileSource.Accounting
import Tributary.FileSource.Completeness

/-!
# Whether the books balance

One step puts the books off by the lines it counts and does not hold, or leaves them as
they are; nothing puts them right again. A running source's books are off by what its
steps put them off.
-/

namespace Tributary.FileSource

open Lib Queue Ship Stamp Tail Map Transform

variable {c : Config} {s s' : State}

/-! ## One step -/

namespace State

/-- The counters, and what is at hand. -/
def books (s : State) : Nat × Nat × Nat × List Line :=
  (s.readTotal, s.quarantined, s.droppedFilter + s.droppedSample, s.atHand)

/-- What is at hand or accounted for, less what was read. -/
def owing (s : State) : Int :=
  s.quarantined + (s.droppedFilter + s.droppedSample) + s.atHand.length - s.readTotal

end State

/-- A step that ships `sent` lines and puts the books off by `k`. -/
structure Books (s s' : State) (sent k : Nat) : Prop where
  lines : ∀ l ∈ s'.atHand, l ∈ s.atHand ∨ OneLine l
  even : s'.owing + sent = s.owing + k

theorem Books.of_eq {t : State} (h : t.books = s.books) : Books s t 0 0 := by
  simp only [State.books, Prod.mk.injEq] at h
  obtain ⟨hread, hquarantined, hdropped, hhand⟩ := h
  refine ⟨fun l hl => .inl (hhand ▸ hl), ?_⟩
  simp only [State.owing, hread, hquarantined, hhand]
  omega

theorem Books.trans {s'' : State} {sent sent' k k' : Nat} (h : Books s s' sent k)
    (h' : Books s' s'' sent' k') : Books s s'' (sent + sent') (k + k') where
  lines := fun l hl => (h'.lines l hl).elim (h.lines l) .inr
  even := by
    have := h.even
    have := h'.even
    push_cast
    omega

theorem Books.still {t t' : State} {sent k : Nat} (h : Books s t sent k)
    (h' : t'.books = t.books) : Books s t' sent k :=
  h.trans (.of_eq h')

namespace State

theorem go_books (s : State) (phase : Phase) : (s.go phase).books = s.books := by
  rw [go]
  split <;> rfl

theorem leaveDrain_books (s : State) (final : Bool) : (s.leaveDrain final).books = s.books := by
  cases final with
  | true => exact go_books s _
  | false => exact go_books { s with idle := true } _

theorem afterFlush_books (s : State) (after : After) : (s.afterFlush after).books = s.books := by
  cases after <;> exact go_books s _

theorem saveCheckpoint_books (s : State) (io : Io) : (s.saveCheckpoint io).books = s.books := by
  unfold saveCheckpoint
  split
  · rfl
  · split
    · rfl
    · split <;> rfl

end State

theorem writeWatermark_books (s : State) (nowNs : Int) :
    (writeWatermark s nowNs).books = s.books := by
  rw [writeWatermark]
  split <;> rfl

/-- The events that move no line leave the books alone. -/
theorem step_books {e : Event} (h : step c s e = some s') (he : e.handles = false) :
    s'.books = s.books := by
  unfold step at h
  split at h
  · cases h
  cases e with
  | files fs =>
      cases h
      rfl
  | drained io =>
      obtain ⟨drained, final, -, -, rfl⟩ := drained_cases h
      refine (State.leaveDrain_books _ final).trans ?_
      cases drained
      · rfl
      · exact State.saveCheckpoint_books s io
  | time due =>
      rcases time_cases h with ⟨-, rfl⟩ | rfl
      · exact State.go_books s _
      · exact State.go_books s _
  | settle io =>
      obtain ⟨final, -, -, rfl⟩ := settle_cases h
      exact (State.go_books _ _).trans (State.saveCheckpoint_books s io)
  | publish due nowNs =>
      obtain ⟨base, hbase, hs'⟩ := publish_cases h
      have hsame : base.books = s.books := by
        rcases hbase with rfl | rfl
        · rfl
        · exact writeWatermark_books s nowNs
      rcases hs' with rfl | rfl
      · exact hsame
      · exact (State.go_books base _).trans hsame
  | reload rules batchLines maxInflight =>
      dsimp only at h
      split at h
      · cases h
        rfl
      · cases h
  | again shutdown =>
      rcases again_cases h with rfl | rfl
      · exact State.go_books s _
      · exact State.go_books s _
  | die =>
      cases h
      rfl
  | _ => cases he

/-! ### Records -/

theorem Books.of_same (hhand : s'.atHand = s.atHand)
    (heven : s'.quarantined + s'.droppedFilter + s'.droppedSample + s.readTotal
      = s.quarantined + s.droppedFilter + s.droppedSample + s'.readTotal) : Books s s' 0 0 where
  lines := fun l hl => .inl (hhand ▸ hl)
  even := by
    simp only [State.owing, hhand]
    omega

/-- A record that was read joins the batch. -/
theorem books_enlist {l : Line} (hl : OneLine l) (stamper : Stamper) (watermark : Watermark) :
    Books s ({ s with stamper, watermark, readTotal := s.readTotal + 1 }.enlist l) 0 0 where
  lines := by
    intro x hx
    have hmem : x ∈ s.atHand ∨ x = l := by
      simp only [State.atHand, State.enlist, State.queued, List.append_assoc, List.mem_append,
        List.mem_singleton] at hx ⊢
      tauto
    rcases hmem with hx | rfl
    · exact .inl hx
    · exact .inr hl
  even := by
    simp only [State.owing, State.atHand, State.enlist, State.queued, List.length_append,
      List.length_singleton]
    omega

variable (hd : ∀ f, (c.libs.display f).Printable)

include hd

theorem books_take (line : Chunk) (nowNs : Int) : Books s (s.take c line nowNs) 0 0 := by
  unfold State.take
  generalize build c.libs c.source s.rules line.text nowNs s.stamper s.watermark = b
  obtain ⟨built, stamper, watermark⟩ := b
  dsimp only
  split
  · split
    · rename_i text htext
      exact books_enlist (oneLine_encode hd htext _ rfl) stamper watermark
    · exact .of_same rfl (by simp only [State.refuse, State.unencoded]; omega)
  · exact .of_same rfl (by dsimp only; omega)
  · rename_i stage
    cases stage
    · exact .of_same rfl (by simp only [State.countDrop]; omega)
    · exact .of_same rfl (by simp only [State.countDrop]; omega)
  · exact .of_same rfl (by simp only [State.refuse]; omega)

theorem books_takeLast (line : Chunk) (nowNs : Int) : Books s (s.takeLast c line nowNs) 0 0 := by
  unfold State.takeLast
  generalize build c.libs c.source s.rules line.text nowNs s.stamper s.watermark = b
  obtain ⟨built, stamper, watermark⟩ := b
  dsimp only
  split
  · split
    · rename_i text htext
      exact books_enlist (oneLine_encode hd htext _ rfl) stamper watermark
    · exact .of_same rfl rfl
  · rename_i stage
    cases stage
    · exact .of_same rfl (by simp only [State.countDrop]; omega)
    · exact .of_same rfl (by simp only [State.countDrop]; omega)
  · exact .of_same rfl rfl
  · exact .of_same rfl rfl

/-- A turn of the read loop: only a line the framer refuses is counted without having
been read. -/
theorem books_next {nowNs : Int} {nowMs : Nat} (h : next c s nowNs nowMs = some s') :
    ∃ k, Books s s' 0 k ∧ (k = 0 ↔ s.Frames c nowMs) := by
  unfold next at h
  split at h
  · cases h
  split at h
  · rename_i hfull
    cases h
    refine ⟨0, .of_eq (State.go_books _ _), iff_of_true rfl fun hopen => ?_⟩
    rw [hfull] at hopen
    cases hopen
  rename_i hopen
  have hopen : s.queue.full = false := by simpa using hopen
  split at h
  · rename_i tailer hline
    cases h
    refine ⟨0, .of_eq (State.go_books { s with tailer } _), iff_of_true rfl fun _ raw hraw => ?_⟩
    rw [hline] at hraw
    cases hraw
  rename_i raw tailer hline
  have hframes : s.Frames c nowMs ↔ ∀ e, (s.framer.push c.libs
      { ids := [s.read], text := c.libs.decodeLossy raw } nowMs).1 ≠ .error e := by
    constructor
    · intro hf
      exact hf hopen raw (by rw [hline]; rfl)
    · intro hf _ raw' hraw'
      rw [hline] at hraw'
      cases hraw'
      exact hf
  rw [hframes]
  dsimp only at h
  split at h
  · rename_i framer hpush
    cases h
    refine ⟨0, .of_eq rfl, iff_of_true rfl fun e he => ?_⟩
    rw [hpush] at he
    cases he
  · rename_i e framer hpush
    cases h
    refine ⟨1, ⟨fun l hl => .inl hl, ?_⟩, iff_of_false (by omega) fun hf => hf e (by rw [hpush])⟩
    have hhand : (({ s with tailer, idle := false, read := s.read + 1, framer } : State).refuse
        { ids := [s.read], text := c.libs.decodeLossy raw } e).atHand = s.atHand := rfl
    simp only [State.owing, hhand]
    simp only [State.refuse]
    omega
  · rename_i record framer hpush
    have htake := (Books.of_eq (s := s) (t := { s with
      tailer, idle := false, read := s.read + 1, framer }) rfl).trans
        (books_take hd record nowNs)
    refine ⟨0, ?_, iff_of_true rfl fun e he => by rw [hpush] at he; cases he⟩
    split at h
    · cases h
      exact htake.still (State.go_books _ _)
    · cases h
      exact htake

theorem books_expire {nowNs : Int} {nowMs : Nat} {order : List Text}
    (h : expire c s nowNs nowMs order = some s') : Books s s' 0 0 := by
  obtain ⟨framer, out, -, ⟨-, rfl⟩ | ⟨record, -, -, rfl⟩⟩ := expire_cases h
  · exact .of_eq (State.go_books { s with framer } _)
  · exact ((Books.of_eq (s := s) (t := { s with framer }) rfl).trans
      (books_take hd record nowNs)).still (State.go_books _ _)

theorem books_unframe {nowNs : Int} {order : List Text}
    (h : unframe c s nowNs order = some s') : Books s s' 0 0 := by
  obtain ⟨-, ⟨framer, -, -, rfl⟩ | ⟨framer, record, -, -, rfl⟩⟩ := unframe_cases h
  · exact .of_eq (State.go_books { s with framer } _)
  · exact (Books.of_eq (s := s) (t := { s with framer }) rfl).trans
      (books_takeLast hd record nowNs)

omit hd

/-! ### Batches -/

/-- The queued records, by what the queue stands for. -/
theorem queued_eq {live : List (Nat × List Line)} (hst : Stored size s.dir s.queue live) :
    s.queued = live.flatMap (·.2) := by
  have hread : ∀ x ∈ live, (Queue.read s.dir (name x)).getD [] = x.2 := by
    intro x hx
    rw [hst.read hx]
    rfl
  rw [State.queued, hst.segments, List.flatMap_map]
  exact List.flatMap_congr hread

theorem queued_spooled {live : List (Nat × List Line)} (hst : Stored size s.dir s.queue live)
    (lines : List Line) (full : Bool) : (s.spooled lines full).queued = s.queued ++ lines := by
  have hst' : Stored size (s.spooled lines full).dir (s.spooled lines full).queue
      (live ++ [(s.queue.nextSeq, lines)]) := (hst.spooled lines).setFull full
  rw [queued_eq hst', queued_eq hst]
  simp

/-- A batch of the in-flight set among the others. -/
theorem inflight_split {i : Nat} {t : Task} (hi : s.inflight[i]? = some t) :
    ∃ before after, s.inflight = before ++ t :: after ∧ s.inflight.eraseIdx i = before ++ after
      ∧ ∀ t', s.inflight.set i t' = before ++ t' :: after := by
  obtain ⟨hlt, hget⟩ := List.getElem?_eq_some_iff.mp hi
  refine ⟨s.inflight.take i, s.inflight.drop (i + 1), ?_, List.eraseIdx_eq_take_drop_succ .., ?_⟩
  · rw [← hget, List.getElem_cons_drop, List.take_append_drop]
  · intro t'
    rw [List.set_eq_take_append_cons_drop, if_pos hlt]

theorem mem_atHand {l : Line} : l ∈ s.atHand ↔
    l ∈ s.batch ∨ l ∈ s.inflight.flatMap Task.unsettled ∨ l ∈ s.held.flatten ∨ l ∈ s.queued := by
  simp only [State.atHand, List.append_assoc, List.mem_append]

theorem length_atHand (s : State) : s.atHand.length
    = s.batch.length + (s.inflight.flatMap Task.unsettled).length + s.held.flatten.length
      + s.queued.length := by
  simp only [State.atHand, List.length_append]

section posted

variable {e : Event} {lines : List Line} {sched : List (Answer Line)}

theorem length_acceptedBodies (hp : s.posted e = some (lines, sched))
    (hlines : ∀ l ∈ lines, OneLine l) :
    countLines (s.acceptedBodies e) = (sendLines blank sched [lines]).acked.length := by
  rw [State.acceptedBodies, hp]
  exact countLines_accepted hlines sched

theorem undivided_of_none (hp : s.posted e = none) : s.Undivided e := by
  intro p hm
  rw [hp] at hm
  cases hm

theorem undivided_of_shipped {poison : List Line} (hp : s.posted e = some (lines, sched))
    (hout : (sendLines blank sched [lines]).outcome = .shipped poison) : s.Undivided e := by
  intro p hm err he
  rw [hp] at hm
  cases hm
  rw [hout] at he
  cases he

theorem undivided_of_failed {err : ShipError} (hp : s.posted e = some (lines, sched))
    (hout : (sendLines blank sched [lines]).outcome = .failed err) :
    (sendLines blank sched [lines]).acked.length = 0 ↔ s.Undivided e := by
  rw [List.length_eq_zero_iff]
  constructor
  · intro hnone p hm err' _
    rw [hp] at hm
    cases hm
    exact hnone
  · intro h
    exact h (lines, sched) hp err hout

end posted

/-- A batch that is dealt with: its lines were acknowledged or are handed back. -/
theorem length_shipped {sched : List (Answer Line)} {lines poison : List Line}
    (hlines : ∀ l ∈ lines, OneLine l)
    (hout : (sendLines blank sched [lines]).outcome = .shipped poison) :
    (sendLines blank sched [lines]).acked.length + poison.length = lines.length
      ∧ ∀ l ∈ poison, l ∈ lines := by
  have hperm := perm_of_shipped hout fun l hl => (hlines l (by simpa using hl)).blank
  refine ⟨by simpa using hperm.length_eq, fun l hl => ?_⟩
  simpa using hperm.subset (List.mem_append_right _ hl)

theorem books_finish {i : Nat} {sched : List (Answer Line)} (hneat : ∀ l ∈ s.atHand, OneLine l)
    (h : finish s i sched = some s') :
    ∃ k, Books s s' (countLines (s.acceptedBodies (.finish i sched))) k
      ∧ (k = 0 ↔ s.Undivided (.finish i sched)) := by
  unfold finish at h
  split at h
  · rename_i lines hi
    obtain ⟨before, after, hsplit, -, hset⟩ := inflight_split hi
    have hp : s.posted (.finish i sched) = some (lines, sched) := by
      simp [State.posted, hi]
    have hlines : ∀ l ∈ lines, OneLine l := by
      intro l hl
      refine hneat l (mem_atHand.mpr (.inr (.inl ?_)))
      rw [hsplit]
      exact List.mem_flatMap.mpr ⟨_, List.mem_append_right _ (List.mem_cons_self ..), hl⟩
    rw [length_acceptedBodies hp hlines]
    dsimp only at h
    cases hout : (sendLines blank sched [lines]).outcome with
    | pending => simp [hout] at h
    | shipped poison =>
        simp only [hout, Option.some.injEq] at h
        subst h
        obtain ⟨hlen, hsub⟩ := length_shipped hlines hout
        refine ⟨0, ⟨fun l hl => ?_, ?_⟩, iff_of_true rfl (undivided_of_shipped hp hout)⟩
        · rw [mem_atHand] at hl ⊢
          dsimp only at hl
          rw [hset] at hl
          rw [hsplit]
          simp only [List.flatMap_append, List.flatMap_cons, List.mem_append,
            Task.unsettled] at hl ⊢
          have := hsub l
          tauto
        · simp only [State.owing, length_atHand, State.queued, hset]
          simp only [hsplit, List.flatMap_append, List.flatMap_cons, List.length_append,
            Task.unsettled]
          omega
    | failed err =>
        simp only [hout, Option.some.injEq] at h
        subst h
        have hhand : ({ s with
            acked := s.acked ++ (sendLines blank sched [lines]).acked
            inflight := s.inflight.set i (.failed lines err) } : State).atHand = s.atHand := by
          simp only [State.atHand, State.queued, hset]
          simp only [hsplit, List.flatMap_append, List.flatMap_cons, Task.unsettled]
        refine ⟨_, ⟨fun l hl => .inl (hhand ▸ hl), ?_⟩, undivided_of_failed hp hout⟩
        simp only [State.owing, hhand]
  · cases h

/-- The records of a held batch are in a segment. -/
theorem books_spooled_held {live : List (Nat × List Line)}
    (hst : Stored size s.dir s.queue live) {lines : List Line} {rest : List (List Line)}
    (hheld : s.held = lines :: rest) (full : Bool) :
    Books s ({ s with held := rest }.spooled lines full) 0 0 := by
  have hqueued : ({ s with held := rest }.spooled lines full).queued = s.queued ++ lines :=
    queued_spooled (s := { s with held := rest }) hst lines full
  refine ⟨fun l hl => .inl ?_, ?_⟩
  · rw [mem_atHand, hqueued] at hl
    rw [mem_atHand, hheld]
    simp only [State.spooled, List.flatten_cons, List.mem_append] at hl ⊢
    tauto
  · simp only [State.owing, length_atHand, hqueued, hheld]
    simp only [State.spooled, List.flatten_cons, List.length_append]
    omega

theorem books_land {live : List (Nat × List Line)} (hst : Stored size s.dir s.queue live) {io : Io}
    {sched : List (Answer Line)} (hneat : ∀ l ∈ s.atHand, OneLine l)
    (h : land s io sched = some s') :
    ∃ k, Books s s' (countLines (s.acceptedBodies (.land io sched))) k
      ∧ (k = 0 ↔ s.Undivided (.land io sched)) := by
  unfold land at h
  split at h
  · rename_i drained final lines rest hphase hheld
    have hlines : ∀ l ∈ lines, OneLine l := by
      intro l hl
      refine hneat l (mem_atHand.mpr (.inr (.inr (.inl ?_))))
      rw [hheld, List.flatten_cons]
      exact List.mem_append_left _ hl
    -- the disk decides first; nothing is posted unless it is full
    rcases hst.pushForced_cases lines io with ⟨rfl, he⟩ | ⟨at_, e, rfl, hspace, he⟩
      | ⟨at_, e, rfl, hspace, he⟩
    · have hp : s.posted (.land .ok sched) = none := by
        simp only [State.posted, hheld, he]
      simp only [he, Option.some.injEq] at h
      subst h
      rw [State.acceptedBodies, hp]
      exact ⟨0, books_spooled_held hst hheld true, iff_of_true rfl (undivided_of_none hp)⟩
    · have hp : s.posted (.land (.fail at_ e) sched) = some (lines, sched) := by
        simp only [State.posted, hheld, he]
      rw [length_acceptedBodies hp hlines]
      simp only [he] at h
      cases hout : (sendLines blank sched [lines]).outcome with
      | pending => simp [hout] at h
      | shipped poison =>
          simp only [hout, Option.some.injEq] at h
          subst h
          obtain ⟨hlen, hsub⟩ := length_shipped hlines hout
          refine ⟨0, ⟨fun l hl => .inl ?_, ?_⟩, iff_of_true rfl (undivided_of_shipped hp hout)⟩
          · rw [mem_atHand] at hl ⊢
            rw [hheld, List.flatten_cons, List.mem_append]
            simp only [State.quarantine, State.queued] at hl ⊢
            tauto
          · simp only [State.owing, length_atHand, hheld, State.quarantine, State.queued,
              List.flatten_cons, List.length_append]
            omega
      | failed err =>
          simp only [hout, Option.some.injEq] at h
          subst h
          refine ⟨_, Books.still (t := { s with
            acked := s.acked ++ (sendLines blank sched [lines]).acked }) ?_
              (State.leaveDrain_books _ final), undivided_of_failed hp hout⟩
          exact ⟨fun l hl => .inl hl, rfl⟩
    · have hp : s.posted (.land (.fail at_ e) sched) = none := by
        simp only [State.posted, hheld, he]
      simp only [he, Option.some.injEq] at h
      subst h
      rw [State.acceptedBodies, hp]
      exact ⟨0, .of_eq rfl, iff_of_true rfl (undivided_of_none hp)⟩
  · cases h

theorem books_ship {live : List (Nat × List Line)} (hst : Stored size s.dir s.queue live)
    {sched : List (Answer Line)} (hneat : ∀ l ∈ s.atHand, OneLine l)
    (h : ship s sched = some s') :
    ∃ k, Books s s' (countLines (s.acceptedBodies (.ship sched))) k
      ∧ (k = 0 ↔ s.Undivided (.ship sched)) := by
  unfold ship at h
  split at h
  · rename_i drained final path hphase hheld hfront
    have hfront' := hfront
    rw [hst.front, Option.map_eq_some_iff] at hfront
    obtain ⟨x, hx, rfl⟩ := hfront
    obtain ⟨rest, rfl⟩ := List.head?_eq_some_iff.mp hx
    have hread := hst.read (List.mem_cons_self ..)
    have hp : s.posted (.ship sched) = some (x.2, sched) := by
      simp only [State.posted, hfront', Option.bind_some, hread, Option.map_some]
    have hqueued := queued_eq hst
    rw [List.flatMap_cons] at hqueued
    have hlines : ∀ l ∈ x.2, OneLine l := by
      intro l hl
      refine hneat l (mem_atHand.mpr (.inr (.inr (.inr ?_))))
      rw [hqueued]
      exact List.mem_append_left _ hl
    rw [length_acceptedBodies hp hlines]
    simp only [hread] at h
    cases hout : (sendLines blank sched [x.2]).outcome with
    | pending => simp [hout] at h
    | shipped poison =>
        simp only [hout] at h
        have hpop : Queue.pop size ({ s with acked := s.acked ++
            (sendLines blank sched [x.2]).acked }.quarantine poison).queue
            ({ s with acked := s.acked ++ (sendLines blank sched [x.2]).acked }.quarantine
              poison).dir (name x) = some (s.queue.retire (size x.2), s.dir.remove (name x)) :=
          hst.pop_front.1
        simp only [hpop, Option.some.injEq] at h
        subst h
        obtain ⟨hlen, hsub⟩ := length_shipped hlines hout
        have hleft := queued_eq (s := { s with
          queue := s.queue.retire (size x.2), dir := s.dir.remove (name x) }) hst.pop_front.2
        simp only [State.queued] at hqueued hleft
        refine ⟨0, ⟨fun l hl => .inl ?_, ?_⟩, iff_of_true rfl (undivided_of_shipped hp hout)⟩
        · rw [mem_atHand] at hl ⊢
          simp only [State.quarantine, State.queued, hleft] at hl
          simp only [State.queued, hqueued, List.mem_append]
          tauto
        · simp only [State.owing, length_atHand, State.quarantine, State.queued, hleft, hqueued,
            List.length_append]
          omega
    | failed err =>
        simp only [hout, Option.some.injEq] at h
        subst h
        refine ⟨_, Books.still (t := { s with
          acked := s.acked ++ (sendLines blank sched [x.2]).acked }) ?_
            (State.leaveDrain_books _ final), undivided_of_failed hp hout⟩
        exact ⟨fun l hl => .inl hl, rfl⟩
  · cases h

/-- A batch is collected, and goes where it has to, unless the disk stops the source. -/
theorem books_reap {live : List (Nat × List Line)} (hst : Stored size s.dir s.queue live) {i : Nat}
    {io forcedIo : Io} (h : reap s i io forcedIo = some s') (hrun : s'.phase ≠ .stopped) :
    Books s s' 0 0 := by
  obtain ⟨task, hi, hreaped⟩ := reap_cases hst h
  obtain ⟨before, after, hsplit, herase, -⟩ := inflight_split hi
  have hspooled : ∀ lines full, task.unsettled = lines →
      Books s ((s.collected i).spooled lines full) 0 0 := by
    intro lines full htask
    have hqueued : ((s.collected i).spooled lines full).queued = s.queued ++ lines :=
      queued_spooled (s := s.collected i) hst lines full
    refine ⟨fun l hl => .inl ?_, ?_⟩
    · rw [mem_atHand, hqueued] at hl
      rw [mem_atHand, hsplit]
      simp only [State.spooled, State.collected, herase, List.flatMap_append, List.flatMap_cons,
        htask, List.mem_append] at hl ⊢
      tauto
    · simp only [State.owing, length_atHand, hqueued, hsplit]
      simp only [State.spooled, State.collected, herase, List.flatMap_append, List.flatMap_cons,
        htask, List.length_append]
      omega
  cases hreaped with
  | shipped lines poison =>
      refine ⟨fun l hl => .inl ?_, ?_⟩
      · rw [mem_atHand] at hl ⊢
        rw [hsplit]
        simp only [State.quarantine, State.collected, State.queued, herase, List.flatMap_append,
          List.flatMap_cons, Task.unsettled, List.mem_append] at hl ⊢
        tauto
      · simp only [State.owing, length_atHand, State.queued, hsplit]
        simp only [State.quarantine, State.collected, herase, List.flatMap_append,
          List.flatMap_cons, Task.unsettled, List.length_append]
        omega
  | spooled lines e => exact hspooled lines _ rfl
  | forced lines e => exact hspooled lines _ rfl
  | held lines e =>
      refine ⟨fun l hl => .inl ?_, ?_⟩
      · rw [mem_atHand] at hl ⊢
        rw [hsplit]
        simp only [State.pause, State.collected, State.queued, herase, List.flatMap_append,
          List.flatMap_cons, Task.unsettled, List.flatten_append, List.flatten_cons,
          List.flatten_nil, List.append_nil, List.mem_append] at hl ⊢
        tauto
      · simp only [State.owing, length_atHand, State.queued, hsplit]
        simp only [State.pause, State.collected, herase, List.flatMap_append,
          List.flatMap_cons, Task.unsettled, List.flatten_append, List.flatten_cons,
          List.flatten_nil, List.append_nil, List.length_append]
        omega
  | failed lines e => exact absurd rfl hrun
  | stopped lines e => exact absurd rfl hrun

theorem books_submit (h : submit s = some s') : Books s s' 0 0 := by
  obtain ⟨after, -, ⟨-, rfl⟩ | ⟨-, rfl⟩⟩ := submit_cases h
  · exact .of_eq (State.afterFlush_books s after)
  · refine Books.still ?_ (State.afterFlush_books s.submitted after)
    refine ⟨fun l hl => .inl ?_, ?_⟩
    · rw [mem_atHand] at hl ⊢
      simp only [State.submitted, State.queued, List.flatMap_append, List.flatMap_cons,
        List.flatMap_nil, Task.unsettled, List.append_nil, List.mem_append, List.not_mem_nil,
        false_or] at hl ⊢
      tauto
    · simp only [State.owing, length_atHand, State.queued, State.submitted, List.flatMap_append,
        List.flatMap_cons, List.flatMap_nil, Task.unsettled, List.append_nil, List.length_append,
        List.length_nil]
      omega

/-! ### Every step -/

/-- What a step may do without putting the books off: it refuses no line, and gives up no
batch in part. -/
def State.Straight (c : Config) (s : State) (e : Event) : Prop :=
  (∀ nowNs nowMs, e = .next nowNs nowMs → s.Frames c nowMs) ∧ s.Undivided e

/-- A step that posts no batch and reads no line. -/
theorem Books.plain {e : Event} (h : Books s s' 0 0) (hp : s.posted e = none)
    (hnext : ∀ nowNs nowMs, e ≠ .next nowNs nowMs) :
    ∃ k, Books s s' (countLines (s.acceptedBodies e)) k ∧ (k = 0 ↔ s.Straight c e) := by
  rw [State.acceptedBodies, hp]
  refine ⟨0, h, iff_of_true rfl ⟨?_, undivided_of_none hp⟩⟩
  exact fun nowNs nowMs he => absurd he (hnext nowNs nowMs)

/-- **What one step does to the books**, if the source is not stopped by it. -/
theorem step_accounts (hd : ∀ f, (c.libs.display f).Printable) {e : Event} (hcore : Core s)
    (hneat : ∀ l ∈ s.atHand, OneLine l) (h : step c s e = some s')
    (hlive : s'.phase ≠ .stopped ∨ s.exits e = true) :
    ∃ k, Books s s' (countLines (s.acceptedBodies e)) k ∧ (k = 0 ↔ s.Straight c e) := by
  by_cases he : e.handles = false
  · have hplain := Books.of_eq (step_books h he)
    cases e with
    | finish i sched => cases he
    | land io sched => cases he
    | ship sched => cases he
    | next nowNs nowMs => cases he
    | _ => exact hplain.plain rfl (by simp)
  obtain ⟨live, hst⟩ := hcore.stored
  have hposting : ∀ {e : Event} {k : Nat}, (∀ nowNs nowMs, e ≠ .next nowNs nowMs) →
      (k = 0 ↔ s.Undivided e) → (k = 0 ↔ s.Straight c e) := by
    intro e k hnext hk
    rw [hk]
    exact ⟨fun hu => ⟨fun _ _ heq => absurd heq (hnext _ _), hu⟩, And.right⟩
  unfold step at h
  split at h
  · cases h
  cases e with
  | finish i sched =>
      obtain ⟨k, hbooks, hk⟩ := books_finish hneat h
      exact ⟨k, hbooks, hposting (by simp) hk⟩
  | land io sched =>
      obtain ⟨k, hbooks, hk⟩ := books_land hst hneat h
      exact ⟨k, hbooks, hposting (by simp) hk⟩
  | ship sched =>
      obtain ⟨k, hbooks, hk⟩ := books_ship hst hneat h
      exact ⟨k, hbooks, hposting (by simp) hk⟩
  | next nowNs nowMs =>
      obtain ⟨k, hbooks, hk⟩ := books_next hd h
      refine ⟨k, hbooks, hk.trans ⟨fun hf => ⟨?_, undivided_of_none rfl⟩, fun hs => hs.1 _ _ rfl⟩⟩
      rintro _ _ ⟨⟩
      exact hf
  | expire nowNs nowMs order => exact (books_expire hd h).plain rfl (by simp)
  | submit => exact (books_submit h).plain rfl (by simp)
  | reap i io forcedIo =>
      have hrun : s'.phase ≠ .stopped := hlive.resolve_right (by simp [State.exits])
      exact (books_reap hst h hrun).plain rfl (by simp)
  | unframe nowNs order => exact (books_unframe hd h).plain rfl (by simp)
  | _ => exact absurd rfl he

/-- The row a step posts is the one it adds to the rows. -/
theorem publish_postedRow {due : Bool} {nowNs : Int} (h : publish s due nowNs = some s') :
    s'.rows = s.rows ++ (s.postedRow (.publish due nowNs)).toList := by
  have hgo : ∀ (t : State) (phase : Phase), (t.go phase).rows = t.rows :=
    fun t phase => (still_go t phase).rows
  unfold publish at h
  split at h
  · rename_i hphase
    cases h
    by_cases hset : s.watermark.publishedNs = i64Min
    · simp [writeWatermark, State.stop, State.postedRow, hset]
    · simp [writeWatermark, State.stop, State.postedRow, hset, hphase]
  · rename_i hphase
    cases h
    rw [hgo]
    cases due
    · simp [State.postedRow, hphase]
    · by_cases hset : s.watermark.publishedNs = i64Min
      · simp [writeWatermark, State.postedRow, hset]
      · simp [writeWatermark, State.postedRow, hset]
  · cases h

/-! ## Runs -/

/-- How far the books are off. -/
def Account.excess (a : Account) : Int := a.source.owing + a.shipped

/-- **The books balance exactly if they are not off.** -/
theorem balanced_iff (a : Account) : a.Balanced ↔ a.excess = 0 := by
  constructor
  · intro h
    have := h.equation
    simp only [Account.unaccounted] at this
    simp only [Account.excess, State.owing]
    omega
  · intro h
    have heq : a.unaccounted = a.source.atHand.length := by
      simp only [Account.excess, State.owing] at h
      simp only [Account.unaccounted]
      omega
    refine ⟨heq, by omega, fun _ hempty => ?_⟩
    rw [heq, length_atHand, State.queued, hempty.batch, hempty.inflight, hempty.held,
      hempty.queue]
    rfl

/-- What every state of a run satisfies. -/
structure AccountInv (a : Account) : Prop where
  core : Core a.source
  neat : ∀ l ∈ a.source.atHand, OneLine l
  nonneg : 0 ≤ a.excess

variable {n : RowNames} {a a' : Account}

/-- A row counts if the server takes it. -/
theorem rowLines_eq_zero_iff {e : Event} {answer : Reply} :
    s.rowLines c n e answer = 0 ↔ ∀ row ∈ s.postedRow e, result answer ≠ .ok () := by
  rw [State.rowLines]
  cases s.postedRow e with
  | none => simp [countLines]
  | some row =>
      have hpos := lines_row_pos n c.source.name row
      by_cases hok : result answer = .ok ()
      · rw [if_pos hok]
        refine iff_of_false ?_ fun hnot => hnot row rfl hok
        show (Row.line n c.source.name row).lines.length + 0 ≠ 0
        omega
      · rw [if_neg hok]
        exact iff_of_true rfl fun _ _ => hok

theorem AccountInv.step (hd : ∀ f, (c.libs.display f).Printable) {x : Event × Reply}
    (hinv : AccountInv a) (h : account c n a x = some a') (hlive : a'.Live) :
    AccountInv a' ∧ (a'.excess = 0 ↔ a.excess = 0 ∧ a.Clean c x) := by
  obtain ⟨s', hs, rfl⟩ := Option.map_eq_some_iff.mp h
  obtain ⟨k, hbooks, hk⟩ := step_accounts hd hinv.core hinv.neat hs hlive
  have heven := hbooks.even
  have hnonneg := hinv.nonneg
  refine ⟨⟨(step_durable hinv.core hs).core hinv.core, fun l hl => ?_, ?_⟩, ?_⟩
  · exact (hbooks.lines l hl).elim (hinv.neat l) id
  · simp only [Account.excess] at hnonneg ⊢
    push_cast
    omega
  · have hclean : a.Clean c x ↔ k = 0 ∧ a.source.rowLines c n x.1 x.2 = 0 := by
      rw [hk, rowLines_eq_zero_iff]
      exact ⟨fun hc => ⟨⟨hc.frames, hc.undivided⟩, hc.rows⟩, fun hc => ⟨hc.1.1, hc.1.2, hc.2⟩⟩
    rw [hclean]
    simp only [Account.excess] at hnonneg ⊢
    push_cast
    omega

/-- A source that goes on was not stopped. -/
theorem live_of_run {xs : List (Event × Reply)} (h : run (account c n) a xs = some a')
    (hlive : a'.Live) : a.Live := by
  cases xs with
  | nil =>
      cases h
      exact hlive
  | cons x xs =>
      obtain ⟨u, hu, -⟩ := run_cons.mp h
      obtain ⟨s', hs, -⟩ := Option.map_eq_some_iff.mp hu
      refine .inl fun hstop => ?_
      unfold FileSource.step at hs
      rw [if_pos hstop] at hs
      cases hs

/-- **Along a run** the books are off by what its steps put them off. -/
theorem AccountInv.run (hd : ∀ f, (c.libs.display f).Printable) {xs : List (Event × Reply)}
    (hinv : AccountInv a) (h : Lib.run (account c n) a xs = some a') (hlive : a'.Live) :
    a'.excess = 0 ↔ a.excess = 0 ∧ Meets (account c n) (Account.Clean c) a xs := by
  induction xs generalizing a with
  | nil =>
      cases h
      simp [Meets]
  | cons x xs ih =>
      obtain ⟨u, hu, hrest⟩ := run_cons.mp h
      obtain ⟨hinv', hstep⟩ := hinv.step hd hu (live_of_run hrest hlive)
      rw [ih hinv' hrest, hstep]
      simp [Meets, hu, and_assoc]

theorem AccountInv.start {fs : Fs} {restored : Option Checkpoint} {adopted : Adopted}
    (h : FileSource.start c fs restored adopted = some s) (hempty : adopted.bodies = []) :
    AccountInv { source := s, shipped := 0, exited := false }
      ∧ ({ source := s, shipped := 0, exited := false } : Account).excess = 0 := by
  have hcore := start_core h
  obtain ⟨tailer, -, hs⟩ := Option.map_eq_some_iff.mp h
  have hnone : scan (adopted.live.map entry) = [] := by
    rw [Adopted.live, hempty]
    rfl
  have hqueue : s.queue.segments = [] := by
    rw [← hs]
    exact hnone
  have hhand : s.atHand = [] := by
    rw [State.atHand, State.queued, hqueue, ← hs]
    rfl
  have hexcess : Account.excess { source := s, shipped := 0, exited := false } = 0 := by
    rw [Account.excess, State.owing, hhand, ← hs]
    rfl
  refine ⟨⟨hcore, fun l hl => ?_, hexcess.ge⟩, hexcess⟩
  rw [hhand] at hl
  cases hl

/-- **The books balance exactly if** the framer refused no line, no batch was given up in
part, and the server took no row: in every state of every run of a source that started
with nothing queued, and when its summary is printed. -/
theorem books_balance_iff (hd : ∀ f, (c.libs.display f).Printable) {fs : Fs}
    {restored : Option Checkpoint} {adopted : Adopted} {s₀ : State} {xs : List (Event × Reply)}
    (hempty : adopted.bodies = []) (hstart : start c fs restored adopted = some s₀)
    (hrun : Lib.run (account c n) { source := s₀, shipped := 0, exited := false } xs = some a)
    (hlive : a.Live) :
    a.Balanced ↔ Meets (account c n) (Account.Clean c)
      { source := s₀, shipped := 0, exited := false } xs := by
  obtain ⟨hinv, hzero⟩ := AccountInv.start hstart hempty
  rw [balanced_iff, hinv.run hd hrun hlive]
  exact and_iff_right hzero

/-! ## A healthy pass -/

/-- The events of a pass, with the server's answer to the row. -/
def answered (answer : Reply) (es : List Event) : List (Event × Reply) :=
  es.map fun e => (e, answer)

/-- The row is put off, the batch is queued, and the books balance. -/
theorem books_balance_queued :
    ∃ s₀ a, start (plainConfig 10 100) (oneFile "new\n".toList) none nothingQueued = some s₀
      ∧ Lib.run (account (plainConfig 10 100) ⟨"wm".toList, "h".toList⟩)
        { source := s₀, shipped := 0, exited := false }
          (answered (.wire "refused") (publishedPass down)) = some a
      ∧ a.unaccounted = 1
      ∧ Meets (account (plainConfig 10 100) ⟨"wm".toList, "h".toList⟩)
        (Account.Clean (plainConfig 10 100)) { source := s₀, shipped := 0, exited := false }
          (answered (.wire "refused") (publishedPass down)) := by
  have hrun : ∃ s₀ a, start (plainConfig 10 100) (oneFile "new\n".toList) none nothingQueued
        = some s₀
      ∧ Lib.run (account (plainConfig 10 100) ⟨"wm".toList, "h".toList⟩)
        { source := s₀, shipped := 0, exited := false }
          (answered (.wire "refused") (publishedPass down)) = some a
      ∧ a.source.phase = .passed ∧ a.unaccounted = 1 ∧ a.excess = 0 :=
    ⟨_, _, rfl, rfl, by decide +kernel, by decide +kernel, by decide +kernel⟩
  obtain ⟨s₀, a, hstart, hrun, hphase, hone, hexcess⟩ := hrun
  have hlive : a.Live := .inl (by rw [hphase]; decide)
  have hd : ∀ f, ((plainConfig 10 100).libs.display f).Printable := fun f c hc => absurd hc
    List.not_mem_nil
  exact ⟨s₀, a, hstart, hrun, hone, (books_balance_iff hd rfl hstart hrun hlive).mp
    ((balanced_iff a).mpr hexcess)⟩

/-- One line is read, the record and the row of its pass are shipped: two lines. -/
theorem row_shipped :
    ∃ s₀ a, start (plainConfig 10 100) (oneFile "new\n".toList) none nothingQueued = some s₀
      ∧ Lib.run (account (plainConfig 10 100) ⟨"wm".toList, "h".toList⟩)
        { source := s₀, shipped := 0, exited := false }
          (answered (.status 204 none "") (publishedPass up)) = some a
      ∧ a.source.phase = .passed ∧ a.unaccounted = -1 ∧ a.source.atHand = []
      ∧ ¬ a.Balanced := by
  have hrun : ∃ s₀ a, start (plainConfig 10 100) (oneFile "new\n".toList) none nothingQueued
        = some s₀
      ∧ Lib.run (account (plainConfig 10 100) ⟨"wm".toList, "h".toList⟩)
        { source := s₀, shipped := 0, exited := false }
          (answered (.status 204 none "") (publishedPass up)) = some a
      ∧ a.source.phase = .passed ∧ a.unaccounted = -1 ∧ a.source.atHand = [] :=
    ⟨_, _, rfl, rfl, by decide +kernel, by decide +kernel, by decide +kernel⟩
  obtain ⟨s₀, a, hstart, hrun, hphase, hone, hhand⟩ := hrun
  refine ⟨s₀, a, hstart, hrun, hphase, hone, hhand, fun h => ?_⟩
  have := h.nonneg
  omega

end Tributary.FileSource
