import Tributary.FileSource.Steps

/-!
# Where the lines are

Every record that was built is in the batch, in flight, held, in a segment on
disk, acknowledged, or recorded in the dead-letter file. A step may move a record
along that way and never off it; `Moves` says so of one step, and what is proved
about checkpoints and watermarks rests on it.
-/

namespace Tributary.FileSource

open Lib Queue Ship Stamp Tail Map Transform

variable {c : Config} {s s' : State} {l : Line}

/-! ## Places -/

namespace State

/-- In this process's memory only. -/
def InMemory (s : State) (l : Line) : Prop :=
  l ∈ s.batch ∨ (∃ t ∈ s.inflight, l ∈ t.lines) ∨ ∃ b ∈ s.held, l ∈ b

/-- The dead-letter file has an entry made of these source lines. -/
def Recorded (s : State) (ids : List Nat) : Prop := ∃ d ∈ s.deadLetter, d.ids = ids

/-- Acknowledged by the server, or recorded as what it rejected. -/
def Done (s : State) (l : Line) : Prop := l ∈ s.acked ∨ s.Recorded l.ids

end State

/-- What every state of a run satisfies: the queue's memory and directory agree,
and a batch that is done accounts for its lines. -/
structure Core (s : State) : Prop where
  stored : ∃ live, Stored size s.dir s.queue live
  tasks : ∀ lines poison, Task.shipped lines poison ∈ s.inflight → Dealt lines s.acked poison

/-- A step that keeps the invariant and loses nothing that is durable. -/
structure Durable (s s' : State) : Prop where
  acked : ∀ l ∈ s.acked, l ∈ s'.acked
  dead : ∀ d ∈ s.deadLetter, d ∈ s'.deadLetter
  dropped : ∀ i ∈ s.dropped, i ∈ s'.dropped
  disk : ∀ l, blank l = false → InSegment s.dir l → InSegment s'.dir l ∨ s'.Done l
  core : Core s → Core s'

theorem Durable.recorded (h : Durable s s') {ids : List Nat} (hr : s.Recorded ids) :
    s'.Recorded ids := by
  obtain ⟨d, hd, hids⟩ := hr
  exact ⟨d, h.dead d hd, hids⟩

theorem Durable.done (h : Durable s s') (hd : s.Done l) : s'.Done l :=
  hd.imp (h.acked l) h.recorded

theorem Durable.trans {s'' : State} (h : Durable s s') (h' : Durable s' s'') : Durable s s'' where
  acked := fun l hl => h'.acked l (h.acked l hl)
  dead := fun d hd => h'.dead d (h.dead d hd)
  dropped := fun i hi => h'.dropped i (h.dropped i hi)
  disk := by
    intro l htext hl
    rcases h.disk l htext hl with hseg | hd
    · exact h'.disk l htext hseg
    · exact .inr (h'.done hd)
  core := fun hc => h'.core (h.core hc)

/-- A step that loses no line that has a text. -/
structure Moves (s s' : State) : Prop extends Durable s s' where
  memory : ∀ l, blank l = false → s.InMemory l → s'.InMemory l ∨ InSegment s'.dir l ∨ s'.Done l

theorem Moves.trans {s'' : State} (h : Moves s s') (h' : Moves s' s'') : Moves s s'' where
  toDurable := h.toDurable.trans h'.toDurable
  memory := by
    intro l htext hl
    rcases h.memory l htext hl with hm | hseg | hd
    · exact h'.memory l htext hm
    · exact .inr (h'.disk l htext hseg)
    · exact .inr (.inr (h'.done hd))

theorem Quiet.inMemory (h : Quiet s s') : s'.InMemory l ↔ s.InMemory l := by
  rw [State.InMemory, State.InMemory, h.batch, h.inflight, h.held]

theorem Quiet.moves (h : Quiet s s') : Moves s s' where
  acked := by rw [h.acked]; exact fun _ hl => hl
  dead := by rw [h.deadLetter]; exact fun _ hd => hd
  dropped := by rw [h.dropped]; exact fun _ hi => hi
  memory := fun _ _ hl => .inl (h.inMemory.mpr hl)
  disk := by rw [h.dir]; exact fun _ _ hl => .inl hl
  core := fun hc => ⟨by rw [h.dir, h.queue]; exact hc.stored,
    by rw [h.inflight, h.acked]; exact hc.tasks⟩

/-- Lines only join: what is in a place stays there. -/
theorem Moves.of_grows (hbatch : s.batch ⊆ s'.batch) (hinflight : s'.inflight = s.inflight)
    (hheld : s'.held = s.held) (hqueue : s'.queue = s.queue) (hdir : s'.dir = s.dir)
    (hacked : s.acked ⊆ s'.acked) (hdead : s.deadLetter ⊆ s'.deadLetter)
    (hdropped : s.dropped ⊆ s'.dropped) : Moves s s' where
  acked := fun _ hl => hacked hl
  dead := fun _ hd => hdead hd
  dropped := fun _ hi => hdropped hi
  memory := by
    rintro x - (hx | hx | hx)
    · exact .inl (.inl (hbatch hx))
    · exact .inl (.inr (.inl (by rwa [hinflight])))
    · exact .inl (.inr (.inr (by rwa [hheld])))
  disk := by rw [hdir]; exact fun _ _ hl => .inl hl
  core := by
    intro hc
    refine ⟨by rw [hdir, hqueue]; exact hc.stored, ?_⟩
    rw [hinflight]
    exact fun lines poison ht l hl hb => (hc.tasks lines poison ht l hl hb).imp_left fun h => hacked h

/-! ## Records -/

theorem Took.moves {line : Chunk} {built : Except String Built} (h : Took s line built s') :
    Moves s s' := by
  cases h with
  | enlisted base l record hb =>
      exact hb.toQuiet.moves.trans
        (.of_grows (List.subset_append_left _ _) rfl rfl rfl rfl (List.Subset.refl _)
          (List.Subset.refl _) (List.Subset.refl _))
  | unencodable base l reason hb =>
      exact hb.toQuiet.moves.trans
        (.of_grows (List.Subset.refl _) rfl rfl rfl rfl (List.Subset.refl _)
          (List.subset_append_left _ _) (List.Subset.refl _))
  | refused base reason hb =>
      exact hb.toQuiet.moves.trans
        (.of_grows (List.Subset.refl _) rfl rfl rfl rfl (List.Subset.refl _)
          (List.subset_append_left _ _) (List.Subset.refl _))
  | dropped base hb =>
      exact hb.toQuiet.moves.trans
        (.of_grows (List.Subset.refl _) rfl rfl rfl rfl (List.Subset.refl _)
          (List.Subset.refl _) (List.subset_append_left _ _))

theorem Lost.moves {line : Chunk} {built : Except String Built}
    (h : Lost c s line built s') : Moves s s' := by
  cases h with
  | unencodable base l record e hb =>
      exact hb.toQuiet.moves.trans
        (.of_grows (List.Subset.refl _) rfl rfl rfl rfl (List.Subset.refl _)
          (List.Subset.refl _) (List.Subset.refl _))
  | unbuilt base e hb => exact hb.toQuiet.moves

/-- What the framer holds is not yet a record. -/
theorem moves_framer (s : State) (tailer : Tailer) (framer : Framer) (idle : Bool) (read : Nat) :
    Moves s { s with tailer, framer, idle, read } :=
  .of_grows (List.Subset.refl _) rfl rfl rfl rfl (List.Subset.refl _) (List.Subset.refl _)
    (List.Subset.refl _)

theorem moves_quarantine (s : State) (poison : List Line) : Moves s (s.quarantine poison) :=
  .of_grows (List.Subset.refl _) rfl rfl rfl rfl (List.Subset.refl _)
    (List.subset_append_left _ _) (List.Subset.refl _)

theorem moves_acked (s : State) (acked : List Line) :
    Moves s { s with acked := s.acked ++ acked } :=
  .of_grows (List.Subset.refl _) rfl rfl rfl rfl (List.subset_append_left _ _)
    (List.Subset.refl _) (List.Subset.refl _)

theorem moves_settled (s : State) (acked poison : List Line) :
    Moves s (s.settled acked poison) :=
  (moves_acked s acked).trans (moves_quarantine _ poison)

/-- What is dealt with is done. -/
theorem done_settled {lines acked poison : List Line} (hall : Dealt lines acked poison)
    (hl : l ∈ lines) (hb : blank l = false) : (s.settled acked poison).Done l := by
  rcases hall l hl hb with h | h
  · exact .inl (List.mem_append_right _ h)
  · exact .inr ⟨.poison l, List.mem_append_right _ (List.mem_map_of_mem h), rfl⟩

theorem moves_pause (s : State) : Moves s s.pause where
  acked := fun _ hl => hl
  dead := fun _ hd => hd
  dropped := fun _ hi => hi
  memory := fun _ _ hl => .inl hl
  disk := fun _ _ hl => .inl hl
  core := fun hc => ⟨hc.stored.imp fun _ h => h.setFull true, hc.tasks⟩

/-! ## Batches -/

theorem mem_inflight_set {i : Nat} {t t' : Task} (hi : s.inflight[i]? = some t)
    (ht : t'.lines = t.lines) :
    (∃ x ∈ s.inflight.set i t', l ∈ x.lines) ↔ ∃ x ∈ s.inflight, l ∈ x.lines := by
  have hmap : (s.inflight.set i t').map Task.lines = s.inflight.map Task.lines := by
    refine List.ext_getElem? fun j => ?_
    by_cases hij : i = j
    · subst hij
      obtain ⟨hlt, rfl⟩ := List.getElem?_eq_some_iff.mp hi
      simp [hlt, ht]
    · simp [hij]
  rw [← List.mem_flatMap, ← List.mem_flatMap, List.flatMap_def, List.flatMap_def, hmap]

theorem moves_finish {i : Nat} {sched : List (Answer Line)} (h : finish s i sched = some s') :
    Moves s s' := by
  obtain ⟨lines, acked, t, hi, ht, hdealt, rfl⟩ := finish_cases h
  refine ⟨⟨fun _ hl => List.mem_append_left _ hl, fun _ hd => hd, fun _ hi => hi,
    fun _ _ hl => .inl hl, ?_⟩, ?_⟩
  rotate_left
  · rintro x - (hx | hx | hx)
    · exact .inl (.inl hx)
    · exact .inl (.inr (.inl ((mem_inflight_set hi ht).mpr hx)))
    · exact .inl (.inr (.inr hx))
  · refine fun hc => ⟨hc.stored, fun lines' poison hmem => ?_⟩
    rcases List.mem_or_eq_of_mem_set hmem with hold | hnew
    · exact fun l hl hb => (hc.tasks lines' poison hold l hl hb).imp_left fun h =>
        List.mem_append_left _ h
    · exact fun l hl hb => (hdealt lines' poison hnew.symm l hl hb).imp_left fun h =>
        List.mem_append_right _ h

/-- The batch is in a segment, and every other segment is still there. -/
theorem inSegment_spooled {lines : List Line} {full : Bool} :
    InSegment (s.spooled lines full).dir l ↔ InSegment s.dir l ∨ l ∈ lines := by
  simp only [InSegment, State.spooled, List.mem_append, List.mem_singleton, Prod.mk.injEq,
    Content.whole.injEq]
  constructor
  · rintro ⟨p, body, hm | ⟨rfl, rfl⟩, hext, hl⟩
    · exact .inl ⟨p, body, hm, hext, hl⟩
    · exact .inr hl
  · rintro (⟨p, body, hm, hext, hl⟩ | hl)
    · exact ⟨p, body, .inl hm, hext, hl⟩
    · exact ⟨_, lines, .inr ⟨rfl, rfl⟩, rfl, hl⟩

/-- A batch that leaves memory for the disk. -/
theorem moves_spooled {s₀ : State} {lines : List Line} {full : Bool}
    (hframe : s₀.queue = s.queue ∧ s₀.dir = s.dir ∧ s₀.acked = s.acked
      ∧ s₀.deadLetter = s.deadLetter ∧ s₀.dropped = s.dropped)
    (htasks : ∀ t ∈ s₀.inflight, t ∈ s.inflight)
    (hmemory : ∀ l, s.InMemory l → s₀.InMemory l ∨ l ∈ lines) :
    Moves s (s₀.spooled lines full) := by
  obtain ⟨hqueue, hdir, hacked, hdead, hdropped⟩ := hframe
  refine ⟨⟨?_, ?_, ?_, ?_, ?_⟩, ?_⟩
  · exact fun l hl => hacked ▸ hl
  · exact fun d hd => hdead ▸ hd
  · exact fun i hi => hdropped ▸ hi
  · intro l _ hl
    exact .inl (inSegment_spooled.mpr (.inl (hdir ▸ hl)))
  · rintro ⟨⟨live, hst⟩, hc⟩
    rw [← hqueue, ← hdir] at hst
    refine ⟨⟨_, (hst.spooled lines).setFull full⟩, ?_⟩
    · intro lines' poison hm
      rw [show (s₀.spooled lines full).acked = s.acked from hacked]
      exact hc lines' poison (htasks _ hm)
  · intro l _ hl
    rcases hmemory l hl with hm | hm
    · exact .inl hm
    · exact .inr (.inl (inSegment_spooled.mpr (.inr hm)))

theorem mem_inflight_erase {i : Nat} {t : Task} (hi : s.inflight[i]? = some t)
    (h : ∃ x ∈ s.inflight, l ∈ x.lines) :
    (∃ x ∈ s.inflight.eraseIdx i, l ∈ x.lines) ∨ l ∈ t.lines := by
  obtain ⟨x, hx, hl⟩ := h
  obtain ⟨j, hj⟩ := List.mem_iff_getElem?.mp hx
  by_cases hij : j = i
  · rw [hij, hi] at hj
    cases hj
    exact .inr hl
  · refine .inl ⟨x, List.mem_eraseIdx_iff_getElem?.mpr ⟨j, hij, hj⟩, hl⟩

/-- A batch leaves the in-flight set and its lines turn up elsewhere, unless the
disk stops the source. -/
theorem moves_reap {i : Nat} {io forcedIo : Io} (hcore : Core s)
    (h : reap s i io forcedIo = some s') :
    Moves s s' ∨ s'.phase = .stopped ∧ Durable s s' := by
  obtain ⟨live, hst⟩ := hcore.stored
  obtain ⟨task, hi, hreaped⟩ := reap_cases hst h
  have herase : ∀ t ∈ (s.collected i).inflight, t ∈ s.inflight :=
    fun t ht => List.mem_of_mem_eraseIdx ht
  have hmemory : ∀ l, s.InMemory l → (s.collected i).InMemory l ∨ l ∈ task.lines := by
    rintro l (hl | hl | hl)
    · exact .inl (.inl hl)
    · exact (mem_inflight_erase hi hl).imp_left fun h => .inr (.inl h)
    · exact .inl (.inr (.inr hl))
  cases hreaped with
  | shipped lines poison =>
      refine .inl ⟨⟨fun _ hl => hl, fun _ hd => List.mem_append_left _ hd, fun _ hi => hi,
        fun _ _ hl => .inl hl, fun hc => ⟨hc.stored, fun _ _ hm => hc.tasks _ _ (herase _ hm)⟩⟩, ?_⟩
      intro l hb hl
      rcases hmemory l hl with hm | hm
      · exact .inl hm
      · refine .inr (.inr ?_)
        rcases hcore.tasks lines poison (List.mem_of_getElem? hi) l hm hb with ha | hp
        · exact .inl ha
        · exact .inr ⟨.poison l, List.mem_append_right _ (List.mem_map_of_mem hp), rfl⟩
  | spooled lines e => exact .inl (moves_spooled ⟨rfl, rfl, rfl, rfl, rfl⟩ herase hmemory)
  | forced lines e => exact .inl (moves_spooled ⟨rfl, rfl, rfl, rfl, rfl⟩ herase hmemory)
  | held lines e =>
      refine .inl ⟨⟨fun _ hl => hl, fun _ hd => hd, fun _ hi => hi, fun _ _ hl => .inl hl,
        fun hc => ⟨⟨live, hst.setFull true⟩, fun _ _ hm => hc.tasks _ _ (herase _ hm)⟩⟩, ?_⟩
      intro l _ hl
      rcases hmemory l hl with (hm | hm | ⟨b, hb, hm⟩) | hm
      · exact .inl (.inl hm)
      · exact .inl (.inr (.inl hm))
      · exact .inl (.inr (.inr ⟨b, List.mem_append_left _ hb, hm⟩))
      · exact .inl (.inr (.inr ⟨lines, List.mem_append_right _ (List.mem_singleton.mpr rfl), hm⟩))
  | failed lines e =>
      exact .inr ⟨rfl, fun _ hl => hl, fun _ hd => hd, fun _ hi => hi, fun _ _ hl => .inl hl,
        fun hc => ⟨hc.stored, fun _ _ hm => hc.tasks _ _ (herase _ hm)⟩⟩
  | stopped lines e =>
      exact .inr ⟨rfl, fun _ hl => hl, fun _ hd => hd, fun _ hi => hi, fun _ _ hl => .inl hl,
        fun hc => ⟨⟨live, hst.setFull true⟩, fun _ _ hm => hc.tasks _ _ (herase _ hm)⟩⟩

theorem moves_land {io : Io} {sched : List (Answer Line)} (hcore : Core s)
    (h : land s io sched = some s') : Moves s s' := by
  obtain ⟨live, hst⟩ := hcore.stored
  obtain ⟨drained, final, body, rest, -, hheld, hlanded⟩ := land_cases hst h
  have hmemory : ∀ {s₀ : State}, s₀.batch = s.batch → s₀.inflight = s.inflight → s₀.held = rest →
      ∀ l, s.InMemory l → s₀.InMemory l ∨ l ∈ body := by
    rintro s₀ hb hi hr l (hl | hl | ⟨b, hmem, hl⟩)
    · exact .inl (.inl (by rwa [hb]))
    · exact .inl (.inr (.inl (by rwa [hi])))
    · rw [hheld] at hmem
      rcases List.mem_cons.mp hmem with rfl | hmem
      · exact .inr hl
      · exact .inl (.inr (.inr ⟨b, by rwa [hr], hl⟩))
  cases hlanded with
  | spooled =>
      exact moves_spooled ⟨rfl, rfl, rfl, rfl, rfl⟩ (fun _ ht => ht) (hmemory rfl rfl rfl)
  | shipped at_ e acked poison hspace hall =>
      have hsettled := (moves_pause s).trans (moves_settled s.pause acked poison)
      refine ⟨⟨hsettled.acked, hsettled.dead, hsettled.dropped, fun _ _ hl => .inl hl,
        fun hc => ⟨(hsettled.core hc).stored, (hsettled.core hc).tasks⟩⟩, fun l hb hl => ?_⟩
      let s₀ : State :=
        { s.pause.settled acked poison with held := rest, phase := .draining true final }
      rcases @hmemory s₀ rfl rfl rfl l hl with hm | hm
      · exact .inl hm
      · exact .inr (.inr (done_settled (s := s.pause) hall hm hb))
  | kept at_ e acked =>
      exact ((moves_pause s).trans (moves_acked _ _)).trans (still_leaveDrain _ _).toQuiet.moves
  | stopped => exact (still_stop s).toQuiet.moves

/-- The segment that shipped leaves, and the others stay. -/
theorem inSegment_remove {live : List (Nat × List Line)} {x : Nat × List Line}
    (hst : Stored size s.dir s.queue (x :: live)) :
    InSegment s.dir l ↔ l ∈ x.2 ∨ InSegment (s.dir.remove (name x)) l := by
  rw [hst.toOnDisk.inSegment_iff, hst.pop_front.2.toOnDisk.inSegment_iff]
  simp

theorem moves_ship {sched : List (Answer Line)} (hcore : Core s) (h : ship s sched = some s') :
    Moves s s' := by
  obtain ⟨live, hst⟩ := hcore.stored
  obtain ⟨drained, final, x, rest, -, -, rfl, ⟨acked, poison, hall, rfl⟩ | ⟨acked, rfl⟩⟩ :=
    ship_cases hst h
  · have hsettled := moves_settled s acked poison
    refine ⟨⟨hsettled.acked, hsettled.dead, hsettled.dropped, fun l hb hl => ?_,
      fun hc => ⟨⟨rest, hst.pop_front.2⟩, (hsettled.core hc).tasks⟩⟩, fun _ _ hl => .inl hl⟩
    rcases (inSegment_remove hst).mp hl with hm | hm
    · exact .inr (done_settled hall hm hb)
    · exact .inl hm
  · exact (moves_acked s acked).trans (still_leaveDrain _ _).toQuiet.moves

theorem moves_submitted (s : State) : Moves s s.submitted where
  acked := fun _ hl => hl
  dead := fun _ hd => hd
  dropped := fun _ hi => hi
  disk := fun _ _ hl => .inl hl
  core := by
    refine fun hc => ⟨hc.stored, fun lines poison ht => hc.tasks lines poison ?_⟩
    rcases List.mem_append.mp ht with ht | ht
    · exact ht
    · cases List.mem_singleton.mp ht
  memory := by
    rintro l - (hl | ⟨t, ht, hl⟩ | hl)
    · exact .inl (.inr (.inl ⟨_, List.mem_append_right _ (List.mem_singleton.mpr rfl), hl⟩))
    · exact .inl (.inr (.inl ⟨t, List.mem_append_left _ ht, hl⟩))
    · exact .inl (.inr (.inr hl))

/-! ## Every step -/

theorem moves_next {nowNs : Int} {nowMs : Nat} (h : next c s nowNs nowMs = some s') :
    Moves s s' := by
  have hhanded : ∀ tailer framer, Moves s (s.handed tailer framer) :=
    fun tailer framer => moves_framer s tailer framer false (s.read + 1)
  cases (next_cases h).2 with
  | idle tailer =>
      exact (moves_framer s tailer s.framer s.idle s.read).trans (still_go _ _).toQuiet.moves
  | buffered tailer framer => exact hhanded tailer framer
  | refused tailer line e =>
      exact (hhanded tailer s.framer).trans (.of_grows (List.Subset.refl _) rfl rfl rfl rfl
        (List.Subset.refl _) (List.subset_append_left _ _) (List.Subset.refl _))
  | completed tailer framer record =>
      exact (hhanded tailer framer).trans (took_take c _ record nowNs).moves
  | full tailer framer record =>
      exact ((hhanded tailer framer).trans (took_take c _ record nowNs).moves).trans
        (still_go _ _).toQuiet.moves

theorem moves_expire {nowNs : Int} {nowMs : Nat} {order : List Text}
    (h : expire c s nowNs nowMs order = some s') : Moves s s' := by
  obtain ⟨framer, out, -, ⟨-, rfl⟩ | ⟨record, -, -, rfl⟩⟩ := expire_cases h
  · exact (moves_framer s s.tailer framer s.idle s.read).trans (still_go _ _).toQuiet.moves
  · exact ((moves_framer s s.tailer framer s.idle s.read).trans
      (took_take c _ record nowNs).moves).trans (still_go _ _).toQuiet.moves

theorem moves_unframe {nowNs : Int} {order : List Text}
    (h : unframe c s nowNs order = some s') : Moves s s' := by
  obtain ⟨-, ⟨framer, -, -, rfl⟩ | ⟨framer, record, -, -, rfl⟩⟩ := unframe_cases h
  · exact (moves_framer s s.tailer framer s.idle s.read).trans (still_go _ _).toQuiet.moves
  · refine (moves_framer s s.tailer framer s.idle s.read).trans ?_
    rcases took_takeLast c { s with framer } record nowNs with h | h
    · exact h.moves
    · exact h.moves

/-- **No step loses a line**: unless the source stops, what was in memory is
still there, on disk, or done; and what is durable stays so. -/
theorem step_moves {e : Event} (hcore : Core s) (h : step c s e = some s') :
    Moves s s' ∨ s'.phase = .stopped ∧ Durable s s' := by
  by_cases he : e.handles = false
  · exact .inl (step_quiet h he).moves
  unfold step at h
  split at h
  · cases h
  cases e with
  | finish i sched => exact .inl (moves_finish h)
  | land io sched => exact .inl (moves_land hcore h)
  | ship sched => exact .inl (moves_ship hcore h)
  | next nowNs nowMs => exact .inl (moves_next h)
  | expire nowNs nowMs order => exact .inl (moves_expire h)
  | submit =>
      obtain ⟨after, -, ⟨-, rfl⟩ | ⟨-, rfl⟩⟩ := submit_cases h
      · exact .inl (still_afterFlush s after).toQuiet.moves
      · exact .inl ((moves_submitted s).trans (still_afterFlush _ after).toQuiet.moves)
  | reap i io forcedIo => exact moves_reap hcore h
  | unframe nowNs order => exact .inl (moves_unframe h)
  | _ => exact absurd rfl he

theorem step_durable {e : Event} (hcore : Core s) (h : step c s e = some s') : Durable s s' :=
  (step_moves hcore h).elim Moves.toDurable And.right

end Tributary.FileSource
