import Mathlib.Data.List.Nodup
import Tributary.Lib.Run
import Tributary.Lib.Sublist
import Tributary.Tail

/-!
# What the tailer emits through rotations

A writer appends complete lines to the file at the path, renames it away and
creates a new one there, between calls of the tailer. Lines emitted and lines
pending together are always the lines of the files the tailer has had open. It
opens the file at the path only in calls that find nothing left to drain, so a
file can come and go unseen; its lines are the ones that are lost.
-/

namespace Tributary.Tail

open Lib

/-! ## Writer and tailer -/

/-- The file system, the tailer over it, and what happened so far. -/
structure World where
  fs : Fs
  tailer : Tailer
  /-- every file that was at the path, oldest first -/
  created : List FileId
  /-- those of them the tailer has had open -/
  seen : List FileId
  out : List Text

inductive Event where
  | append (t : Text)
  | rename (dst : Text)
  | create (id : FileId)
  | next
deriving DecidableEq, Repr

namespace World

/-- A file of complete lines at the path, and a tailer without a checkpoint. -/
def start (path : Text) (id : FileId) (t : Text) : Option World :=
  let fs : Fs := (Fs.create { names := [], inodes := Table.empty } path id).append id t
  if t.Complete then
    (Tailer.resume fs path []).map fun tailer =>
      { fs, tailer, created := [id], seen := [id], out := [] }
  else none

/-- The world after a call of `next_line`. -/
def called (w : World) (r : Option Text × Tailer) : World :=
  { w with
    tailer := r.2
    seen := match r.2.current with
      | some cur => if cur.id ∈ w.seen then w.seen else w.seen ++ [cur.id]
      | none => w.seen
    out := w.out ++ r.1.toList }

def step (w : World) : Event → Option World
  | .append t =>
      (w.fs.lookup w.tailer.path).bind fun id =>
        if t.Complete then some { w with fs := w.fs.append id t } else none
  | .rename dst =>
      (w.fs.lookup w.tailer.path).bind fun _ =>
        if dst ≠ w.tailer.path then some { w with fs := w.fs.rename w.tailer.path dst }
        else none
  | .create id =>
      if w.fs.lookup w.tailer.path = none ∧ id ∉ w.created then
        some { w with
          fs := w.fs.create w.tailer.path id
          created := w.created ++ [id] }
      else none
  | .next => some (w.called (w.tailer.nextLine w.fs))

/-- Call `next_line` until it returns nothing; `none` if `n` calls are not
enough. -/
def poll : Nat → World → Option World
  | 0, _ => none
  | n + 1, w =>
      match w.tailer.nextLine w.fs with
      | (none, t) => some (w.called (none, t))
      | (some line, t) => poll n (w.called (some line, t))

/-- The lines of every file that was ever at the path, in order. -/
def written (w : World) : List Text :=
  w.created.flatMap fun id => (w.fs.content id).lines

/-- A file is renamed away only once the tailer has it open, unless it is
empty. -/
def Opened (w : World) : Event → Prop
  | .rename _ => ∀ id, w.fs.lookup w.tailer.path = some id →
      (∃ cur, w.tailer.current = some cur ∧ cur.id = id) ∨ w.fs.content id = []
  | _ => True

end World

/-! ## One call -/

/-- The lines an open file has left. -/
def Open.rest (fs : Fs) (o : Open) : List Text := (o.unread fs).lines

/-- The lines left in a list of files. -/
def pending (fs : Fs) (os : List Open) : List Text := os.flatMap fun o => o.rest fs

/-- The files a tailer has open, in reading order. -/
def Tailer.opens (t : Tailer) : List Open := t.draining ++ t.current.toList

/-- The file has complete lines only, and is not shorter than where we are. -/
structure Open.Valid (fs : Fs) (o : Open) : Prop where
  complete : (fs.content o.id).Complete
  offset : o.offset ≤ fs.len o.id

section call

variable {fs : Fs} {o cur : Open} {t : Tailer}

/-- A call on one file gives its next line, if there is one. -/
theorem Open.Valid.nextLine (h : o.Valid fs) :
    (o.rest fs = [] ∧ o.nextLine fs = (none, o))
      ∨ ∃ line o', o.nextLine fs = (some line, o') ∧ o.rest fs = line :: o'.rest fs
        ∧ o'.id = o.id ∧ o'.Valid fs := by
  by_cases hne : o.unread fs = []
  · left
    simp [Open.rest, Open.nextLine, hne, Text.readUntil]
  · right
    have hcomplete : (o.unread fs).Complete := h.complete.drop o.offset
    have hbuf := Text.readUntil_ne_nil hne
    have hend := hcomplete.readUntil hne
    have hsplit : (o.unread fs).drop (o.unread fs).readUntil.length
        = (fs.content o.id).drop (o.offset + (o.unread fs).readUntil.length) := by
      rw [Open.unread, List.drop_drop]
    refine ⟨Text.stripEol (o.unread fs).readUntil,
      { o with offset := o.offset + (o.unread fs).readUntil.length }, ?_, ?_, rfl,
      h.complete, ?_⟩
    · simp [Open.nextLine, hbuf, hend]
    · rw [Open.rest, Text.lines_eq_cons hne, hsplit]
      rfl
    · have hlen := Text.length_readUntil_le (o.unread fs)
      rw [Open.unread, List.length_drop] at hlen
      have hoff := h.offset
      simp only [Fs.len] at hoff ⊢
      show o.offset + (o.unread fs).readUntil.length ≤ _
      rw [Open.unread]
      omega

theorem pending_cons (o : Open) (os : List Open) :
    pending fs (o :: os) = o.rest fs ++ pending fs os := rfl

theorem pending_append (os os' : List Open) :
    pending fs (os ++ os') = pending fs os ++ pending fs os' := List.flatMap_append ..

theorem mem_opens (hcur : t.current = some cur) : o ∈ t.opens ↔ o ∈ t.draining ∨ o = cur := by
  simp [Tailer.opens, hcur]

theorem valid_opens (hcur : t.current = some cur) (hd : ∀ o ∈ t.draining, o.Valid fs)
    (hc : cur.Valid fs) : ∀ o ∈ t.opens, o.Valid fs := by
  intro o ho
  rcases (mem_opens hcur).mp ho with ho | rfl
  · exact hd o ho
  · exact hc

theorem pending_opens (hcur : t.current = some cur) :
    pending fs t.opens = pending fs t.draining ++ cur.rest fs := by
  rw [Tailer.opens, hcur, pending_append]
  exact congrArg _ (List.append_nil _)

/-- Draining gives the first line the files have left. -/
theorem drainPending_cases {os : List Open} (h : ∀ o ∈ os, o.Valid fs) :
    (pending fs os = [] ∧ Tailer.drainPending fs os = (none, []))
      ∨ ∃ line os', Tailer.drainPending fs os = (some line, os')
        ∧ pending fs os = line :: pending fs os'
        ∧ ∀ o' ∈ os', o'.Valid fs ∧ ∃ o ∈ os, o.id = o'.id := by
  induction os with
  | nil => exact .inl ⟨rfl, rfl⟩
  | cons o os ih =>
      rw [pending_cons]
      rcases (h o (by simp)).nextLine with ⟨hrest, he⟩ | ⟨line, o', he, hrest, hid, hv⟩
      · rw [hrest, List.nil_append, Tailer.drainPending, he]
        rcases ih fun o ho => h o (by simp [ho]) with ⟨hp, hd⟩ | ⟨line, os', hd, hp, hos⟩
        · exact .inl ⟨hp, hd⟩
        · refine .inr ⟨line, os', hd, hp, fun o' ho' => ⟨(hos o' ho').1, ?_⟩⟩
          obtain ⟨o₀, hm, hid⟩ := (hos o' ho').2
          exact ⟨o₀, List.mem_cons_of_mem _ hm, hid⟩
      · rw [Tailer.drainPending, he]
        refine .inr ⟨line, o' :: os, rfl, ?_, ?_⟩
        · rw [hrest, pending_cons, List.cons_append]
        · intro p hp
          rcases List.mem_cons.mp hp with rfl | hp
          · exact ⟨hv, o, List.mem_cons_self .., hid.symm⟩
          · exact ⟨h p (by simp [hp]), p, List.mem_cons_of_mem _ hp, rfl⟩

/-- The file at the path, opened from its start. -/
def Open.fresh (path : Text) (id : FileId) : Open := { id, path, offset := 0 }

theorem Open.at_zero {path : Text} {id : FileId} (h : fs.lookup path = some id) :
    Open.at fs path 0 = some (Open.fresh path id) := by
  simp [Open.at, h, Open.fresh]

theorem Open.rest_fresh (path : Text) (id : FileId) :
    (Open.fresh path id).rest fs = (fs.content id).lines := rfl

theorem Open.rest_of_read (hread : ¬ o.offset < fs.len o.id) :
    o.rest fs = [] := by
  have hlen : fs.len o.id ≤ o.offset := Nat.not_lt.mp hread
  rw [Open.rest, Open.unread, List.drop_eq_nil_of_le hlen, Text.lines_nil]

theorem Open.rest_ne_nil (hleft : o.offset < fs.len o.id) : o.rest fs ≠ [] := by
  rw [Open.rest, Ne, Text.lines_eq_nil_iff, Open.unread, List.drop_eq_nil_iff]
  exact Nat.not_le.mpr hleft

/-- Without marks the tailer opens the file at the path from its start. -/
theorem resume_fresh {path : Text} {id : FileId} (h : fs.lookup path = some id) :
    Tailer.resume fs path [] = some
      { path, draining := [], current := some (Open.fresh path id), filesLost := 0,
        rotations := 0 } := by
  simp [Tailer.resume, h, Open.at_zero h]

/-- With nothing to drain, the check keeps a tailer whose file is at the path
or whose path is vacant, and otherwise follows the new file. -/
theorem checkRotation_of_le (hcur : t.current = some cur) (hlen : cur.offset ≤ fs.len cur.id)
    (hd : t.draining = []) :
    (t.checkRotation fs = t ∧ ∀ id, fs.lookup t.path = some id → id = cur.id)
      ∨ ∃ id, id ≠ cur.id ∧ fs.lookup t.path = some id
        ∧ t.checkRotation fs = { t with
            rotations := t.rotations + 1
            draining := if cur.offset < fs.len cur.id then [cur] else []
            current := some (Open.fresh t.path id) } := by
  have hlong : ¬ fs.len cur.id < cur.offset := Nat.not_lt.mpr hlen
  simp only [Tailer.checkRotation, hcur, if_neg hlong]
  cases hp : fs.lookup t.path with
  | none => exact .inl ⟨rfl, by simp⟩
  | some id =>
      by_cases hid : id = cur.id
      · refine .inl ⟨by simp [hid], fun id' h' => ?_⟩
        exact (Option.some.inj h').symm.trans hid
      · refine .inr ⟨id, hid, rfl, ?_⟩
        simp [hid, hd, Open.at_zero hp]

/-- What one call does to a tailer that has a file open: `cur'` is the file it
has open afterwards. -/
structure Called (fs : Fs) (t : Tailer) (cur : Open) (answer : Option Text) (t' : Tailer)
    (cur' : Open) : Prop where
  path : t'.path = t.path
  current : t'.current = some cur'
  follows : cur'.id = cur.id ∨ fs.lookup t.path = some cur'.id
  draining : ∀ o ∈ t'.draining,
    (∃ o₀ ∈ t.draining, o₀.id = o.id) ∨ (o.id = cur.id ∧ cur'.id ≠ cur.id)
  valid : ∀ o ∈ t'.opens, o.Valid fs
  account : pending fs t.opens
      ++ (if cur'.id = cur.id then [] else (fs.content cur'.id).lines)
    = answer.toList ++ pending fs t'.opens
  idle : answer = none →
    pending fs t'.opens = [] ∧ ∀ id, fs.lookup t.path = some id → id = cur'.id

/-- **One call**: the next line of what is pending, after the file at the path
was opened if nothing was left to drain. -/
theorem nextLine_called (hcur : t.current = some cur) (hv : ∀ o ∈ t.opens, o.Valid fs)
    (hpath : ∀ id, fs.lookup t.path = some id → (fs.content id).Complete) :
    ∃ cur', Called fs t cur (t.nextLine fs).1 (t.nextLine fs).2 cur' := by
  have hvcur : cur.Valid fs := hv cur ((mem_opens hcur).mpr (.inr rfl))
  have hvd : ∀ o ∈ t.draining, o.Valid fs := fun o ho => hv o ((mem_opens hcur).mpr (.inl ho))
  rcases drainPending_cases hvd with ⟨hnone, he⟩ | ⟨line, os', he, hp, hos⟩
  · -- nothing to drain: look at the path
    simp only [Tailer.nextLine, he]
    have hpend : pending fs t.opens = cur.rest fs := by
      rw [pending_opens hcur, hnone, List.nil_append]
    rcases checkRotation_of_le (t := { t with draining := [] }) hcur hvcur.offset rfl with
      ⟨hsame, hat⟩ | ⟨id, hid, hat, hrot⟩
    · rw [hsame]
      simp only [Tailer.drainPending, hcur]
      rcases hvcur.nextLine with ⟨hrest, hn⟩ | ⟨line, cur', hn, hrest, hcid, hcv⟩
      · simp only [hn]
        refine ⟨cur, rfl, rfl, .inl rfl, by simp, ?_, ?_, fun _ => ⟨?_, hat⟩⟩
        · exact valid_opens rfl (by simp) hvcur
        · rw [hpend, hrest, if_pos rfl, pending_opens rfl, hrest]
          rfl
        · rw [pending_opens rfl, hrest]
          rfl
      · simp only [hn]
        refine ⟨cur', rfl, rfl, .inl hcid, by simp, ?_, ?_, by simp⟩
        · exact valid_opens rfl (by simp) hcv
        · rw [hpend, hrest, if_pos hcid, pending_opens rfl, List.append_nil]
          rfl
    · rw [hrot]
      have hvnew : (Open.fresh t.path id).Valid fs := ⟨hpath id hat, Nat.zero_le _⟩
      have hnew : ¬ (Open.fresh t.path id).id = cur.id := hid
      by_cases hleft : cur.offset < fs.len cur.id
      · -- the old file has lines left, and they come first
        simp only [if_pos hleft]
        rcases drainPending_cases (show ∀ o ∈ [cur], o.Valid fs by simpa using hvcur) with
          ⟨hread, -⟩ | ⟨line, os', hd, hp, hos⟩
        · rw [pending_cons, List.append_eq_nil_iff] at hread
          exact absurd hread.1 (Open.rest_ne_nil hleft)
        · simp only [hd]
          refine ⟨Open.fresh t.path id, rfl, rfl, .inr hat, ?_, ?_, ?_, by simp⟩
          · intro o ho
            obtain ⟨o₀, hm, hoid⟩ := (hos o ho).2
            rw [List.mem_singleton.mp hm] at hoid
            exact .inr ⟨hoid.symm, hnew⟩
          · exact valid_opens rfl (fun o ho => (hos o ho).1) hvnew
          · rw [show pending fs [cur] = cur.rest fs from List.append_nil _] at hp
            rw [hpend, if_neg hnew, pending_opens rfl, hp, Open.rest_fresh]
            rfl
      · simp only [if_neg hleft, Tailer.drainPending]
        have hrest := Open.rest_of_read hleft
        rcases hvnew.nextLine with ⟨hrest', hn⟩ | ⟨line, cur', hn, hrest', hcid, hcv⟩
        · simp only [hn]
          refine ⟨Open.fresh t.path id, rfl, rfl, .inr hat, by simp, ?_, ?_,
            fun _ => ⟨?_, fun id' h' => Option.some.inj (h'.symm.trans hat)⟩⟩
          · exact valid_opens rfl (by simp) hvnew
          · rw [hpend, hrest, if_neg hnew, pending_opens rfl, Open.rest_fresh]
            rfl
          · rw [pending_opens rfl, hrest']
            rfl
        · simp only [hn]
          refine ⟨cur', rfl, rfl, .inr (by rw [hcid]; exact hat), by simp, ?_, ?_, by simp⟩
          · exact valid_opens rfl (by simp) hcv
          · rw [Open.rest_fresh] at hrest'
            rw [hpend, hrest, if_neg (by rw [hcid]; exact hnew), pending_opens rfl, hcid]
            exact hrest'
  · simp only [Tailer.nextLine, he]
    refine ⟨cur, rfl, hcur, .inl rfl, fun o ho => .inl (hos o ho).2, ?_, ?_, by simp⟩
    · exact valid_opens hcur (fun o ho => (hos o ho).1) hvcur
    · rw [if_pos rfl, List.append_nil, pending_opens hcur,
        pending_opens (t := { t with draining := os' }) hcur, hp]
      rfl

end call

/-! ## The writer's steps -/

section writer

variable {fs : Fs} {o : Open} {os : List Open} {id : FileId} {t : Text}

theorem Open.Valid.append (h : o.Valid fs) (ht : t.Complete) : o.Valid (fs.append id t) where
  complete := by
    rw [Fs.content_append]
    split
    · exact h.complete.append ht
    · rw [List.append_nil]
      exact h.complete
  offset := by
    have := h.offset
    simp only [Fs.len, Fs.content_append, List.length_append] at this ⊢
    omega

/-- Text appended to a file is what it has left in the end. -/
theorem Open.Valid.rest_append (h : o.Valid fs) :
    o.rest (fs.append id t) = o.rest fs ++ if o.id = id then t.lines else [] := by
  have hoff := h.offset
  rw [Open.rest, Open.unread, Fs.content_append, List.drop_append_of_le_length hoff,
    (h.complete.drop o.offset).lines_append]
  congr 1
  split <;> rfl

/-- Files other than the one appended to have the same lines left. -/
theorem pending_append_other (h : ∀ o ∈ os, o.id ≠ id) :
    pending (fs.append id t) os = pending fs os := by
  refine List.flatMap_congr fun o ho => ?_
  rw [Open.rest, Open.unread, Fs.content_append, if_neg (h o ho), List.append_nil]
  rfl

end writer

/-! ## The invariant -/

namespace World

/-- What the tailer has emitted and what it has pending are the lines of the
files it has had open; `cur` is the one it has open now, and the last of them. -/
structure Inv (w : World) (cur : Open) : Prop where
  current : w.tailer.current = some cur
  last : w.seen.getLast? = some cur.id
  nodup : w.created.Nodup
  sub : w.seen.Sublist w.created
  atPath : ∀ id, w.fs.lookup w.tailer.path = some id → w.created.getLast? = some id
  complete : ∀ id ∈ w.created, (w.fs.content id).Complete
  valid : ∀ o ∈ w.tailer.opens, o.Valid w.fs
  known : ∀ o ∈ w.tailer.draining, o.id ∈ w.created
  gone : ∀ o ∈ w.tailer.draining, w.fs.lookup w.tailer.path ≠ some o.id
  followed : ∀ id, w.fs.lookup w.tailer.path = some id → id ∈ w.seen → id = cur.id
  account : w.out ++ pending w.fs w.tailer.opens
    = w.seen.flatMap fun id => (w.fs.content id).lines

variable {w w' : World} {cur : Open}

theorem Inv.cur_seen (h : w.Inv cur) : cur.id ∈ w.seen := List.mem_of_getLast? h.last

theorem Inv.cur_created (h : w.Inv cur) : cur.id ∈ w.created := h.sub.subset h.cur_seen

theorem Inv.at_created (h : w.Inv cur) {id : FileId}
    (hp : w.fs.lookup w.tailer.path = some id) : id ∈ w.created :=
  List.mem_of_getLast? (h.atPath id hp)

/-- Appending to the file at the path adds to what is pending if the tailer has
it open, and to nothing the tailer knows otherwise. -/
theorem Inv.append (h : w.Inv cur) {id : FileId} {t : Text}
    (hp : w.fs.lookup w.tailer.path = some id) (ht : t.Complete) :
    Inv { w with fs := w.fs.append id t } cur where
  current := h.current
  last := h.last
  nodup := h.nodup
  sub := h.sub
  atPath := h.atPath
  complete := by
    intro j hj
    rw [Fs.content_append]
    split
    · exact (h.complete j hj).append ht
    · rw [List.append_nil]
      exact h.complete j hj
  valid := fun o ho => (h.valid o ho).append ht
  known := h.known
  gone := h.gone
  followed := h.followed
  account := by
    have hvcur := h.valid cur ((mem_opens h.current).mpr (.inr rfl))
    have hdrain : pending (w.fs.append id t) w.tailer.draining = pending w.fs w.tailer.draining :=
      pending_append_other fun o ho he => h.gone o ho (by rw [hp, he])
    have hacc := h.account
    rw [pending_opens h.current] at hacc ⊢
    rw [hdrain, hvcur.rest_append, ← List.append_assoc, ← List.append_assoc,
      List.append_assoc w.out, hacc]
    obtain ⟨init, hseen⟩ := List.getLast?_eq_some_iff.mp h.last
    have hnd : w.seen.Nodup := h.nodup.sublist h.sub
    rw [hseen] at hnd
    have hinit : cur.id ∉ init := fun hm => by
      rw [List.nodup_append] at hnd
      exact hnd.2.2 _ hm _ (List.mem_singleton_self _) rfl
    rw [hseen, List.flatMap_append, List.flatMap_append, List.append_assoc]
    have hothers : ∀ j ∈ init, (w.fs.append id t).content j = w.fs.content j := by
      intro j hj
      have hne : j ≠ id := by
        rintro rfl
        have := h.followed _ hp (by rw [hseen]; exact List.mem_append_left _ hj)
        exact hinit (this ▸ hj)
      rw [Fs.content_append, if_neg hne, List.append_nil]
    congr 1
    · exact List.flatMap_congr fun j hj => by rw [hothers j hj]
    · rw [List.flatMap_singleton, List.flatMap_singleton, Fs.content_append,
        (h.complete _ h.cur_created).lines_append]
      congr 1
      split <;> rfl

theorem Inv.rename (h : w.Inv cur) {id : FileId} {dst : Text}
    (hp : w.fs.lookup w.tailer.path = some id) (hdst : dst ≠ w.tailer.path) :
    Inv { w with fs := w.fs.rename w.tailer.path dst } cur where
  current := h.current
  last := h.last
  nodup := h.nodup
  sub := h.sub
  atPath := by simp [Fs.lookup_rename hdst hp]
  complete := by simpa using h.complete
  valid := fun o ho =>
    ⟨by simpa using (h.valid o ho).complete, by simpa [Fs.len] using (h.valid o ho).offset⟩
  known := h.known
  gone := by simp [Fs.lookup_rename hdst hp]
  followed := by simp [Fs.lookup_rename hdst hp]
  account := by simpa [pending, Open.rest, Open.unread] using h.account

theorem Inv.create (h : w.Inv cur) {id : FileId}
    (hp : w.fs.lookup w.tailer.path = none) (hid : id ∉ w.created) :
    Inv { w with
      fs := w.fs.create w.tailer.path id
      created := w.created ++ [id] } cur := by
  have hat := Fs.lookup_create hp id
  have hsame : ∀ j ∈ w.created, (w.fs.create w.tailer.path id).content j = w.fs.content j := by
    intro j hj
    rw [Fs.content_create, if_neg]
    rintro rfl
    exact hid hj
  have hopen : ∀ o ∈ w.tailer.opens, o.id ∈ w.created := by
    intro o ho
    rcases (mem_opens h.current).mp ho with ho | rfl
    · exact h.known o ho
    · exact h.cur_created
  refine ⟨h.current, h.last, ?_, h.sub.trans (List.sublist_append_left _ _), ?_, ?_, ?_, ?_, ?_,
    ?_, ?_⟩
  · rw [List.nodup_append]
    refine ⟨h.nodup, List.nodup_singleton _, fun a ha b hb hab => ?_⟩
    rw [hab, List.mem_singleton.mp hb] at ha
    exact hid ha
  · intro j hj
    rw [← Option.some.inj (hat.symm.trans hj), List.getLast?_concat]
  · intro j hj
    rcases List.mem_append.mp hj with hj | hj
    · rw [hsame j hj]
      exact h.complete j hj
    · rw [List.mem_singleton.mp hj, Fs.content_create, if_pos rfl]
      exact .nil
  · intro o ho
    have := h.valid o ho
    exact ⟨by rw [hsame _ (hopen o ho)]; exact this.complete,
      by rw [Fs.len, hsame _ (hopen o ho)]; exact this.offset⟩
  · exact fun o ho => List.mem_append_left _ (h.known o ho)
  · intro o ho he
    cases hat.symm.trans he
    exact hid (h.known o ho)
  · intro j hj hs
    cases hat.symm.trans hj
    exact absurd (h.sub.subset hs) hid
  · have hpend : pending (w.fs.create w.tailer.path id) w.tailer.opens
        = pending w.fs w.tailer.opens :=
      List.flatMap_congr fun o ho => by
        rw [Open.rest, Open.unread, hsame _ (hopen o ho)]
        rfl
    have hseen : (w.seen.flatMap fun j => ((w.fs.create w.tailer.path id).content j).lines)
        = w.seen.flatMap fun j => (w.fs.content j).lines :=
      List.flatMap_congr fun j hj => by rw [hsame j (h.sub.subset hj)]
    rw [hpend, hseen]
    exact h.account

/-- A call moves a line from what is pending to what is emitted, and opens the
file at the path when it looks there. -/
theorem Inv.next (h : w.Inv cur) :
    ∃ cur', Called w.fs w.tailer cur (w.tailer.nextLine w.fs).1 (w.tailer.nextLine w.fs).2 cur'
      ∧ Inv (w.called (w.tailer.nextLine w.fs)) cur' := by
  obtain ⟨cur', hc⟩ := nextLine_called h.current h.valid
    fun id hp => h.complete id (h.at_created hp)
  refine ⟨cur', hc, ?_⟩
  have hseen : (w.called (w.tailer.nextLine w.fs)).seen
      = if cur'.id ∈ w.seen then w.seen else w.seen ++ [cur'.id] := by
    simp only [called, hc.current]
  -- a file that is not the old one is the one at the path, and new to the tailer
  have hnew : cur'.id ∈ w.seen ↔ cur'.id = cur.id := by
    constructor
    · intro hs
      exact hc.follows.elim id fun hp => h.followed _ hp hs
    · intro he
      rw [he]
      exact h.cur_seen
  have hcreated : cur'.id ∈ w.created := by
    rcases hc.follows with he | hp
    · rw [he]
      exact h.cur_created
    · exact h.at_created hp
  have hpath : (w.called (w.tailer.nextLine w.fs)).tailer.path = w.tailer.path := hc.path
  refine ⟨hc.current, ?_, h.nodup, ?_, ?_, h.complete, hc.valid, ?_, ?_, ?_, ?_⟩
  · rw [hseen]
    by_cases he : cur'.id = cur.id
    · rw [if_pos (hnew.mpr he), he]
      exact h.last
    · rw [if_neg (mt hnew.mp he), List.getLast?_concat]
  · rw [hseen]
    split
    · exact h.sub
    · rename_i hs
      have hp := hc.follows.resolve_left (mt hnew.mpr hs)
      obtain ⟨bs, hbs⟩ := List.getLast?_eq_some_iff.mp (h.atPath _ hp)
      have hsub := h.sub
      rw [hbs] at hsub
      show (w.seen ++ [cur'.id]).Sublist w.created
      rw [hbs]
      exact (sublist_of_sublist_concat hsub hs).append_right _
  · rw [hpath]
    exact h.atPath
  · intro o ho
    rcases hc.draining o ho with ⟨o₀, hm, hid⟩ | ⟨hid, -⟩
    · rw [← hid]
      exact h.known o₀ hm
    · rw [hid]
      exact h.cur_created
  · rw [hpath]
    intro o ho hp
    rcases hc.draining o ho with ⟨o₀, hm, hid⟩ | ⟨hid, hne⟩
    · exact h.gone o₀ hm (by rw [hid]; exact hp)
    · rcases hc.follows with he | hp'
      · exact hne he
      · exact hne (hid ▸ Option.some.inj (hp'.symm.trans hp))
  · rw [hpath, hseen]
    intro j hj hs
    by_cases he : cur'.id = cur.id
    · rw [if_pos (hnew.mpr he)] at hs
      rw [he]
      exact h.followed j hj hs
    · exact Option.some.inj (hj.symm.trans (hc.follows.resolve_left he))
  · rw [hseen]
    show (w.out ++ _) ++ pending w.fs (w.tailer.nextLine w.fs).2.opens
      = (if _ then _ else _ : List FileId).flatMap fun id => (w.fs.content id).lines
    rw [List.append_assoc, ← hc.account, ← List.append_assoc, h.account]
    by_cases he : cur'.id = cur.id
    · rw [if_pos (hnew.mpr he), if_pos he, List.append_nil]
    · rw [if_neg (mt hnew.mp he), if_neg he, List.flatMap_append, List.flatMap_singleton]

/-! ## Files that came and went unseen -/

/-- Every file that is gone from the path without having been open is empty. -/
def Intact (w : World) : Prop :=
  ∀ id ∈ w.created, id ∉ w.seen → w.fs.lookup w.tailer.path ≠ some id → w.fs.content id = []

theorem Inv.intact_next (h : w.Inv cur) :
    Intact (w.called (w.tailer.nextLine w.fs)) ↔ w.Intact := by
  obtain ⟨cur', hc, h'⟩ := h.next
  have hpath : (w.called (w.tailer.nextLine w.fs)).tailer.path = w.tailer.path := hc.path
  have hseen : (w.called (w.tailer.nextLine w.fs)).seen
      = if cur'.id ∈ w.seen then w.seen else w.seen ++ [cur'.id] := by
    simp only [called, hc.current]
  simp only [Intact, hpath, hseen]
  constructor
  · intro hi id hid hs hp
    refine hi id hid (fun hm => ?_) hp
    split at hm
    · exact hs hm
    · rcases List.mem_append.mp hm with hm | hm
      · exact hs hm
      · rw [List.mem_singleton.mp hm] at hs hp
        rcases hc.follows with he | hat
        · exact hs (he ▸ h.cur_seen)
        · exact hp hat
  · intro hi id hid hs hp
    refine hi id hid (fun hm => hs ?_) hp
    split
    · exact hm
    · exact List.mem_append_left _ hm

/-- **One step**: the invariant is kept, and a file is missed exactly when it is
renamed away with lines in it before the tailer had it open. -/
theorem Inv.step {e : Event} (h : w.Inv cur) (hs : step w e = some w') :
    (∃ cur', w'.Inv cur') ∧ (w'.Intact ↔ w.Intact ∧ w.Opened e) := by
  cases e with
  | append t =>
      obtain ⟨id, hp, hs⟩ := Option.bind_eq_some_iff.mp hs
      split at hs
      · rename_i ht
        cases hs
        refine ⟨⟨cur, h.append hp ht⟩, ?_⟩
        simp only [Intact, Opened, and_true, Fs.lookup_append]
        refine forall₄_congr fun j _ _ hj => ?_
        rw [Fs.content_append, if_neg fun he => hj (by rw [he]; exact hp), List.append_nil]
      · cases hs
  | rename dst =>
      obtain ⟨id, hp, hs⟩ := Option.bind_eq_some_iff.mp hs
      split at hs
      · rename_i hdst
        cases hs
        refine ⟨⟨cur, h.rename hp hdst⟩, ?_⟩
        simp only [Intact, Fs.lookup_rename hdst hp, Fs.content_rename]
        constructor
        · refine fun hi => ⟨fun j hj hs _ => hi j hj hs (by simp), fun j hj => ?_⟩
          by_cases hs : j ∈ w.seen
          · exact .inl ⟨cur, h.current, (h.followed j hj hs).symm⟩
          · exact .inr (hi j (h.at_created hj) hs (by simp))
        · rintro ⟨hi, hopen⟩ j hj hs -
          by_cases hat : w.fs.lookup w.tailer.path = some j
          · rcases hopen j hat with ⟨cur', hcur, rfl⟩ | hnil
            · cases h.current.symm.trans hcur
              exact absurd h.cur_seen hs
            · exact hnil
          · exact hi j hj hs hat
      · cases hs
  | create id =>
      rw [World.step] at hs
      split at hs
      · rename_i hok
        cases hs
        refine ⟨⟨cur, h.create hok.1 hok.2⟩, ?_⟩
        simp only [Intact, Opened, and_true, Fs.lookup_create hok.1, Fs.content_create, hok.1]
        constructor
        · intro hi j hj hs _
          have hne : j ≠ id := fun he => hok.2 (he ▸ hj)
          simpa [hne] using hi j (List.mem_append_left _ hj) hs (by simpa using hne.symm)
        · intro hi j hj hs hat
          have hne : j ≠ id := fun he => hat (by rw [he])
          rw [if_neg hne]
          refine hi j ((List.mem_append.mp hj).resolve_right (by simpa using hne)) hs (by simp)
      · cases hs
  | next =>
      cases hs
      obtain ⟨cur', -, h'⟩ := h.next
      exact ⟨⟨cur', h'⟩, by simp only [Opened, and_true, h.intact_next]⟩

/-! ## Reading on until nothing is left -/

/-- What is emitted is part of what was written. -/
theorem Inv.out_le (h : w.Inv cur) : w.out.length ≤ w.written.length := by
  have hlen := (flatMap_sublist (fun id => (w.fs.content id).lines) h.sub).length_le
  rw [← h.account, List.length_append] at hlen
  exact Nat.le_trans (Nat.le_add_right _ _) hlen

/-- A file is opened, or comes to nothing, before the tailer runs dry: what is
missing then are the files that are gone. -/
theorem Inv.dry_iff (h : w.Inv cur) (hpend : pending w.fs w.tailer.opens = [])
    (hat : ∀ id, w.fs.lookup w.tailer.path = some id → id = cur.id) :
    w.out = w.written ↔ w.Intact := by
  have hacc := h.account
  rw [hpend, List.append_nil] at hacc
  rw [hacc, written, flatMap_eq_iff_of_sublist _ h.sub h.nodup]
  constructor
  · exact fun hall id hid hs _ => Text.lines_eq_nil_iff.mp (hall id hid hs)
  · intro hi id hid hs
    rw [Text.lines_eq_nil_iff]
    exact hi id hid hs fun hp => hs (hat id hp ▸ h.cur_seen)

theorem Inv.poll {n : Nat} (h : w.Inv cur) (hp : World.poll n w = some w') :
    w'.out = w'.written ↔ w.Intact := by
  induction n generalizing w cur with
  | zero => cases hp
  | succ n ih =>
      obtain ⟨cur', hc, h'⟩ := h.next
      rw [World.poll] at hp
      rw [← h.intact_next]
      split at hp
      · rename_i t he
        cases hp
        rw [he] at hc h'
        obtain ⟨hpend, hat⟩ := hc.idle rfl
        exact he ▸ h'.dry_iff hpend fun id hid => hat id (hc.path ▸ hid)
      · rename_i line t he
        rw [he] at h' ⊢
        exact ih h' hp

/-- The tailer runs dry after finitely many calls. -/
theorem Inv.poll_ends (h : w.Inv cur) {n : Nat} (hn : w.written.length < w.out.length + n) :
    (World.poll n w).isSome := by
  induction n generalizing w cur with
  | zero =>
      have := h.out_le
      omega
  | succ n ih =>
      obtain ⟨cur', -, h'⟩ := h.next
      rw [World.poll]
      split
      · rfl
      · rename_i line t he
        rw [he] at h'
        refine ih h' ?_
        have hw : (w.called (some line, t)).written = w.written := rfl
        have ho : (w.called (some line, t)).out = w.out ++ [line] := rfl
        rw [hw, ho, List.length_append, List.length_singleton]
        omega

theorem Inv.start {path : Text} {id : FileId} {t : Text}
    (h : World.start path id t = some w) : (∃ cur, w.Inv cur) ∧ w.Intact := by
  rw [World.start] at h
  split at h
  · rename_i ht
    have hat : ((Fs.create { names := [], inodes := Table.empty } path id).append id t).lookup
        path = some id := by
      rw [Fs.lookup_append]
      exact Fs.lookup_create rfl id
    rw [resume_fresh hat, Option.map_some] at h
    cases h
    have hcontent : ((Fs.create { names := [], inodes := Table.empty } path id).append id t).content
        id = t := by
      rw [Fs.content_append, Fs.content_create, if_pos rfl, if_pos rfl, List.nil_append]
    refine ⟨⟨Open.fresh path id, rfl, rfl, List.nodup_singleton _, List.Sublist.refl _, ?_, ?_, ?_,
      by simp, by simp, ?_, ?_⟩, ?_⟩
    · intro j hj
      exact hat.symm.trans hj
    · intro j hj
      rw [List.mem_singleton.mp hj, hcontent]
      exact ht
    · exact valid_opens rfl (by simp) ⟨by rw [Open.fresh, hcontent]; exact ht, Nat.zero_le _⟩
    · intro j hj _
      exact Option.some.inj (hj.symm.trans hat)
    · rw [pending_opens rfl, List.flatMap_singleton]
      rfl
    · intro j hj hs
      exact absurd hj hs
  · cases h

/-- **What the tailer emits.** After any run of writer and tailer, the tailer
runs dry, and has then emitted the lines of all files, each once and in order,
exactly when no file with lines in it was renamed away before the tailer had it
open. -/
theorem emits_all_iff (path : Text) (id : FileId) (t : Text) (es : List Event) (w₀ w : World)
    (h₀ : start path id t = some w₀) (hr : run step w₀ es = some w) :
    (∃ n, (poll n w).isSome)
      ∧ ∀ n w', poll n w = some w' → (w'.out = w'.written ↔ Meets step Opened w₀ es) := by
  obtain ⟨hinv₀, hintact⟩ := Inv.start h₀
  have hstep : ∀ s e t, (∃ cur, Inv s cur) → step s e = some t → ∃ cur, Inv t cur :=
    fun _ _ _ ⟨_, h⟩ hs => (h.step hs).1
  obtain ⟨cur, h⟩ := run_preserves hstep hinv₀ hr
  have hmeets : w.Intact ↔ w₀.Intact ∧ Meets step Opened w₀ es :=
    run_meets_iff hstep (fun _ _ _ ⟨_, h⟩ hs => (h.step hs).2) hinv₀ hr
  refine ⟨⟨_, h.poll_ends (n := w.written.length + 1) (by omega)⟩, fun n w' hp => ?_⟩
  rw [h.poll hp, hmeets]
  exact and_iff_right hintact

/-! ## A file that comes and goes while another is drained -/

/-- At most one new file at the path between two calls. -/
def paced : Bool → List Event → Bool
  | _, [] => true
  | _, .next :: es => paced false es
  | rotated, .create _ :: es => !rotated && paced true es
  | rotated, _ :: es => paced rotated es

/-- Two lines in the first file, and a rotation before each of three calls: the
second call still drains the first file and does not look at the path. -/
def threeRotations : List Event :=
  [.rename ['p', '1'], .create ⟨0, 1⟩, .next,
    .rename ['p', '2'], .create ⟨0, 2⟩, .append ['x', '\n'], .next,
    .rename ['p', '3'], .create ⟨0, 3⟩]

theorem emits_all_iff_threeRotations :
    ∃ w₀ w, start ['p'] ⟨0, 0⟩ ['a', '\n', 'b', '\n'] = some w₀
      ∧ run step w₀ threeRotations = some w
      ∧ ∀ n w', poll n w = some w' → (w'.out = w'.written ↔ Meets step Opened w₀ threeRotations) :=
  ⟨_, _, rfl, rfl, (emits_all_iff ['p'] ⟨0, 0⟩ ['a', '\n', 'b', '\n'] threeRotations _ _ rfl rfl).2⟩

/-- The line of the third file is never emitted. -/
theorem a_rotation_is_skipped :
    paced false threeRotations = true
      ∧ ((start ['p'] ⟨0, 0⟩ ['a', '\n', 'b', '\n']).bind fun w =>
          (run step w threeRotations).bind fun w => (poll 4 w).map fun w => (w.out, w.written))
        = some ([['a'], ['b']], [['a'], ['b'], ['x']]) := by
  exact ⟨rfl, rfl⟩

end World

end Tributary.Tail
