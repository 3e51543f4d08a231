import Tributary.Glob.Tails
import Tributary.Lib.Run
import Tributary.Tail.Partial
import Tributary.Tail.Rotation

/-!
# What retiring a tail loses

A tail whose file is gone is told to stop, and returns `Ok` from wherever its loop stands
idle: with lines unread because the queue is full, with a batch the disk refused. Its
checkpoint is deleted all the same. Nothing is lost if it had read its files to their
ends, held nothing, and passed over nothing.
-/

namespace Tributary.Glob.Tails

open Coordinator (Joined)
open FileSource (State.Settled)
open Lib Tail

variable {c : FileSource.Config} {s s' : State} {t : Task} {id : Nat}

/-! ## The law -/

/-- What a handle has not read; a file cut off below the offset is read from its start. -/
def rest (fs : Fs) (o : Open) : Text :=
  if fs.len o.id < o.offset then fs.content o.id else o.unread fs

/-- **Nothing is lost silently**: each line that was read is acknowledged, in a segment
that is left, in the dead-letter file, or was dropped by a rule; and if a complete line was
not read, the loss is counted. -/
structure Lossless (r : Retired) : Prop where
  settled : ∀ source ∈ r.task.source, ∀ i < source.read,
    ({ source with dir := r.left } : FileSource.State).Settled i
  counted : ∀ source ∈ r.task.source,
    (∃ o ∈ source.tailer.opens, '\n' ∈ rest source.fs o) →
      r.task.lost < source.tailer.filesLost

/-- The tail has read every file it has open to its last complete line. -/
def AtEnd (source : FileSource.State) : Prop :=
  ∀ o ∈ source.tailer.opens,
    o.offset ≤ source.fs.len o.id ∧ (o.nextLine source.fs).1 = none

/-- The tail left nothing behind, and what its queue holds is seen. -/
structure Finished (t : Task) (listed : Bool) : Prop where
  passedOver : t.passedOver = false
  held : ∀ source ∈ t.source, source.held = []
  atEnd : ∀ source ∈ t.source, AtEnd source
  listed : listed = true ∨ t.dir.withExt Queue.lp = []

/-- A tail whose state is retired is finished; no two files of the first scan have one
key. -/
def Careful (c : FileSource.Config) (s : State) : Event → Prop
  | .join id listed =>
      ∀ t ∈ s.task id, t.returned = some .ok → s.retiring.contains t.name = true →
        Finished t listed
  | .scan readDir _ => ((matchesOf c readDir).map (streamId c.source.name)).Nodup
  | _ => True

instance (source : FileSource.State) : Decidable (AtEnd source) :=
  inferInstanceAs (Decidable (∀ o ∈ source.tailer.opens,
    o.offset ≤ source.fs.len o.id ∧ (o.nextLine source.fs).1 = none))

instance (t : Task) (listed : Bool) : Decidable (Finished t listed) :=
  decidable_of_iff (t.passedOver = false ∧ (∀ source ∈ t.source, source.held.isEmpty = true)
      ∧ (∀ source ∈ t.source, AtEnd source)
      ∧ (listed = true ∨ (t.dir.withExt Queue.lp).isEmpty = true))
    ⟨fun ⟨hp, hh, ha, hl⟩ => ⟨hp, by simpa using hh, ha, by simpa using hl⟩,
      fun h => ⟨h.passedOver, by simpa using h.held, h.atEnd, by simpa using h.listed⟩⟩

instance : DecidableRel (Careful c) := fun s e =>
  match e with
  | .join id listed => inferInstanceAs (Decidable (∀ t ∈ s.task id, t.returned = some .ok →
      s.retiring.contains t.name = true → Finished t listed))
  | .scan readDir _ =>
      inferInstanceAs (Decidable ((matchesOf c readDir).map (streamId c.source.name)).Nodup)
  | .rescan .. | .shutdown | .tail .. | .panic .. => isTrue True.intro

/-! ## One tail -/

/-- What every tail of a run satisfies. -/
structure TaskInv (t : Task) : Prop where
  runs : t.returned = none → t.passedOver = false → ∀ source ∈ t.source,
    FileSource.ExitInv source
  returned : t.returned = some .ok → t.passedOver = false → ∀ source ∈ t.source,
    source.held = [] → ∀ i < source.read, source.Settled i

theorem TaskInv.spawned (found : Path → Found) (s : State) (path : Path) :
    ∀ t ∈ (spawn c found s path).set, t ∈ s.set ∨ TaskInv t := by
  intro t ht
  rcases List.mem_append.mp ht with ht | ht
  · exact .inl ht
  · refine .inr ?_
    rw [List.mem_singleton.mp ht]
    refine ⟨fun _ _ source hsource => FileSource.ExitInv.start hsource, fun hok => ?_⟩
    dsimp only at hok
    split at hok
    · cases hok
    · cases hok

theorem TaskInv.step {source after : FileSource.State} {e : FileSource.Event} (h : TaskInv t)
    (hruns : t.returned = none) (hsource : t.source = some source)
    (hstep : FileSource.step t.config source e = some after) :
    TaskInv { t with
      source := some after
      passedOver := t.passedOver || source.passesOver t.config e
      returned := returns source after e } where
  runs := by
    rintro - hpassed _ ⟨⟩
    obtain ⟨hbefore, hnow⟩ := Bool.or_eq_false_iff.mp hpassed
    exact (h.runs hruns hbefore source hsource).step (FileSource.unframes_of_passesOver hnow) hstep
  returned := by
    rintro hok hpassed _ ⟨⟩ hheld i hi
    obtain ⟨hbefore, -⟩ := Bool.or_eq_false_iff.mp hpassed
    have hexits : source.exits e = true := by
      by_contra hnot
      simp only [returns, if_neg hnot] at hok
      split at hok
      · cases hok
      · cases hok
    obtain ⟨hread, hsame⟩ := FileSource.exit_same hexits hstep
    exact (h.runs hruns hbefore source hsource).exit (hsame ▸ hheld) hexits hstep (hread ▸ hi)

/-! ## Retiring -/

/-- A handle at its end has no complete line left. -/
theorem notMem_rest {fs : Fs} {o : Open} (hlen : o.offset ≤ fs.len o.id)
    (h : (o.nextLine fs).1 = none) : '\n' ∉ rest fs o := by
  rw [rest, if_neg (Nat.not_lt.mpr hlen)]
  intro hmem
  have hlast := Text.getLast_readUntil hmem
  have hne : (o.unread fs).readUntil ≠ [] := by
    intro hnil
    rw [hnil] at hlast
    cases hlast
  simp [Open.nextLine, hne, hlast] at h

/-- What is left of the directory holds the segments, if they were seen. -/
theorem inSegment_left {dir : Queue.Dir (List FileSource.Line)} {listed : Bool}
    (h : listed = true ∨ dir.withExt Queue.lp = []) {l : FileSource.Line}
    (hl : Queue.InSegment dir l) : Queue.InSegment (retireStreamState dir listed) l := by
  obtain ⟨p, body, hm, hext, hb⟩ := hl
  have hfile : (p, Queue.Content.whole body) ∈ dir.withExt Queue.lp :=
    List.mem_filter.mpr ⟨hm, decide_eq_true hext⟩
  have hsome : dir.withExt Queue.lp ≠ [] := List.ne_nil_of_mem hfile
  have hlisted : listed = true := h.resolve_right hsome
  rw [retireStreamState, hlisted, if_pos (by simpa using hsome)]
  exact ⟨p, body, hm, hext, hb⟩

/-- **A finished tail is retired without loss.** -/
theorem TaskInv.lossless {listed : Bool} (h : TaskInv t) (hok : t.returned = some .ok)
    (hfinished : Finished t listed) :
    Lossless { task := t, left := retireStreamState t.dir listed } where
  settled := by
    intro source hsource i hi
    have hdir : t.dir = source.dir := by
      rw [Task.dir, Option.mem_def.mp hsource]
      rfl
    have hsettled := h.returned hok hfinished.passedOver source hsource
      (hfinished.held source hsource) i hi
    have hlisted := hfinished.listed
    rw [hdir] at hlisted ⊢
    rcases hsettled with hacked | ⟨l, hb, hl, hid⟩ | hdead | hdropped
    · exact .inl hacked
    · exact .inr (.inl ⟨l, hb, inSegment_left hlisted hl, hid⟩)
    · exact .inr (.inr (.inl hdead))
    · exact .inr (.inr (.inr hdropped))
  counted := by
    rintro source hsource ⟨o, ho, hunread⟩
    obtain ⟨hlen, hend⟩ := hfinished.atEnd source hsource o ho
    exact absurd hunread (notMem_rest hlen hend)

/-! ## Every step -/

/-- What every state of a run satisfies. -/
structure Inv (s : State) : Prop where
  tasks : ∀ t ∈ s.set, TaskInv t
  retired : ∀ r ∈ s.retired, Lossless r

theorem mem_of_task (h : s.task id = some t) : t ∈ s.set := List.mem_of_find?_eq_some h

theorem Inv.update (h : Inv s) (ht : TaskInv t) : Inv (s.update id t) where
  tasks := by
    intro u hu
    obtain ⟨v, hv, rfl⟩ := List.mem_map.mp hu
    split
    · exact ht
    · exact h.tasks v hv
  retired := h.retired

theorem Inv.spawn (h : Inv s) (found : Path → Found) (path : Path) :
    Inv (spawn c found s path) where
  tasks := fun t ht => (TaskInv.spawned found s path t ht).elim (h.tasks t) id
  retired := h.retired

theorem Inv.vanish (h : Inv s) (names : List Text) (name : Text) : Inv (vanish names s name) := by
  unfold Tails.vanish
  split
  · exact h
  · exact ⟨h.tasks, h.retired⟩

theorem Inv.adopt (h : Inv s) (found : Path → Found) (path : Path) : Inv (adopt c found s path) := by
  unfold Tails.adopt
  split
  · exact h
  · exact h.spawn found path

theorem Inv.foldl {α : Type} {f : State → α → State} (hf : ∀ s x, Inv s → Inv (f s x))
    (h : Inv s) (xs : List α) : Inv (xs.foldl f s) := by
  induction xs generalizing s with
  | nil => exact h
  | cons x xs ih => exact ih (hf s x h)

theorem Inv.join (h : Inv s) {listed : Bool} (hok : Careful c s (.join id listed))
    (hstep : join s id listed = some s') : Inv s' := by
  have hrest : ∀ u ∈ s.set.filter (fun u => decide (u.id ≠ id)), TaskInv u :=
    fun u hu => h.tasks u (List.mem_filter.mp hu).1
  unfold Tails.join at hstep
  split at hstep
  · rename_i t ht
    split at hstep
    · cases hstep
    · rename_i r hr
      cases r with
      | panicked =>
          cases hstep
          exact ⟨hrest, h.retired⟩
      | err =>
          cases hstep
          exact ⟨hrest, h.retired⟩
      | ok =>
          dsimp only at hstep
          split at hstep
          · rename_i hretiring
            cases hstep
            refine ⟨hrest, fun r hr' => ?_⟩
            rcases List.mem_append.mp hr' with hr' | hr'
            · exact h.retired r hr'
            · rw [List.mem_singleton.mp hr']
              exact (h.tasks t (mem_of_task ht)).lossless hr (hok t ht hr hretiring)
          · cases hstep
            exact ⟨hrest, h.retired⟩
  · cases hstep

theorem Inv.tail (h : Inv s) {e : FileSource.Event} (hstep : tail s id e = some s') : Inv s' := by
  unfold Tails.tail at hstep
  split at hstep
  · rename_i t ht
    split at hstep
    · rename_i source hruns hsource
      split at hstep
      · obtain ⟨after, hafter, rfl⟩ := Option.map_eq_some_iff.mp hstep
        exact h.update ((h.tasks t (mem_of_task ht)).step hruns hsource hafter)
      · cases hstep
    · cases hstep
  · cases hstep

theorem Inv.panic (h : Inv s) (hstep : panic s id = some s') : Inv s' := by
  unfold Tails.panic at hstep
  split at hstep
  · split at hstep
    · cases hstep
      refine h.update ⟨fun hruns => ?_, fun hok => ?_⟩
      · cases hruns
      · cases hok
    · cases hstep
  · cases hstep

theorem Inv.step {e : Event} (h : Inv s) (hok : Careful c s e) (hstep : step c s e = some s') :
    Inv s' := by
  cases e with
  | scan readDir found =>
      simp only [Tails.step] at hstep
      split at hstep
      · cases hstep
      · cases hstep
        have hall : Inv ((matchesOf c readDir).foldl (Tails.spawn c found) s) :=
          Inv.foldl (fun _ path h => h.spawn found path) h _
        exact ⟨hall.tasks, hall.retired⟩
  | rescan readDir found =>
      simp only [Tails.step] at hstep
      split at hstep
      · cases hstep
        refine Inv.foldl (fun _ path h => h.adopt found path) ?_ _
        exact Inv.foldl (fun _ name h => h.vanish _ name) h _
      · cases hstep
  | shutdown =>
      simp only [Tails.step] at hstep
      split at hstep
      · cases hstep
        exact ⟨h.tasks, h.retired⟩
      · cases hstep
  | tail id e => exact h.tail hstep
  | panic id => exact h.panic hstep
  | join id listed => exact h.join hok hstep

/-! ## Runs -/

/-- **Retiring loses nothing silently**, in every run of a glob source in which each tail
whose state is retired had read its files to their ends, held nothing and passed over
nothing. -/
theorem retiring_lossless {es : List Event} (hok : Meets (step c) (Careful c) start es)
    (hrun : run (step c) start es = some s) : ∀ r ∈ s.retired, Lossless r := by
  have hstart : Inv start := ⟨fun _ h => absurd h List.not_mem_nil,
    fun _ h => absurd h List.not_mem_nil⟩
  exact (run_invariant (fun _ _ _ h hok hstep => h.step hok hstep) hstart hok hrun).retired

/-! ## A pod that dies while the server is down -/

/-- Its queue holds one batch. -/
def podConfig : FileSource.Config :=
  { FileSource.plainConfig 10 10 with
    source := { FileSource.plainSource with path := "logs/*.log".toList } }

/-- `a.log`. -/
def podLog : Path := { dir := "logs".toList, file := [97, 46, 108, 111, 103] }

def holdsLog : ReadDir := fun _ => some ⟨[podLog.file], by decide⟩

def holdsNothing : ReadDir := fun _ => some ⟨[], by decide⟩

def podFs : Fs :=
  (Fs.create { names := [], inodes := Table.empty } "logs/a.log".toList ⟨1, 1⟩).append ⟨1, 1⟩
    "one\n".toList

/-- The name is gone, and the file is read on through its handle. -/
def unlinked (fs : Fs) : Fs := { fs with names := [] }

def podFound : Path → Found := fun _ =>
  { fs := podFs, restored := none, adopted := FileSource.nothingQueued, labels := [] }

/-- A line is read and queued, and a pass finds the queue full. -/
def outage (fs : Fs) : List FileSource.Event :=
  [.drained .ok, .next 5 0, .next 5 0, .expire 5 0 [], .time true, .submit,
    .finish 0 [FileSource.down], .reap 0 .ok .ok, .settle .ok, .publish false 5, .again false,
    .files fs, .ship [FileSource.down], .next 5 0, .expire 5 0 [], .time false, .publish false 5]

/-- The tail is told to stop, and returns. -/
def stopped : List FileSource.Event :=
  [.again true, .unframe 5 [], .submit, .settle .ok, .ship [FileSource.down], .publish false 5]

/-- The life of the pod's tail; `fs` is what the pod leaves. -/
def life (fs : Fs) : List Event :=
  .scan holdsLog podFound :: (outage fs).map (.tail 0)
    ++ .rescan holdsNothing podFound :: stopped.map (.tail 0) ++ [.join 0 true]

/-- What the pod logged is in a segment that is left. -/
theorem retiring_lossless_queued :
    ∃ s, run (step podConfig) start (life (unlinked podFs)) = some s ∧ s.retired.length = 1
      ∧ ∀ r ∈ s.retired, Lossless r := by
  have hrun : ∃ s, run (step podConfig) start (life (unlinked podFs)) = some s
      ∧ s.retired.length = 1 := ⟨_, rfl, by decide +kernel⟩
  obtain ⟨s, hrun, hone⟩ := hrun
  exact ⟨s, hrun, hone, retiring_lossless (by decide +kernel) hrun⟩

/-- The pod logs another line while the queue is full. The line is in the file the tail has
open; it is not read, and nothing counts it. -/
theorem unread_line_retired :
    ∃ s, run (step podConfig) start (life (unlinked (podFs.append ⟨1, 1⟩ "two\n".toList))) = some s
      ∧ ∃ r ∈ s.retired, ∃ source ∈ r.task.source, source.read = 1
        ∧ source.tailer.filesLost = 0 ∧ ¬ Lossless r := by
  have hrun : ∃ s, run (step podConfig) start
        (life (unlinked (podFs.append ⟨1, 1⟩ "two\n".toList))) = some s
      ∧ ∃ r ∈ s.retired, ∃ source ∈ r.task.source, source.read = 1
        ∧ source.tailer.filesLost = 0
        ∧ ∃ o ∈ source.tailer.opens, '\n' ∈ rest source.fs o :=
    ⟨_, rfl, _, List.mem_singleton.mpr rfl, _, rfl, rfl, rfl, _, List.mem_singleton.mpr rfl,
      by decide +kernel⟩
  obtain ⟨s, hrun, r, hr, source, hsource, hread, hlost, hunread⟩ := hrun
  refine ⟨s, hrun, r, hr, source, hsource, hread, hlost, fun h => ?_⟩
  have hcounted := h.counted source hsource hunread
  omega

end Tributary.Glob.Tails
