import Mathlib.Algebra.BigOperators.Group.List.Basic
import Tributary.Tail.Partial
import Tributary.Tail.Rotation

/-!
# Writes to files that were rotated away

A writer keeps its handle after the file is renamed and a new one stands at the path:
it finishes the line it is in, and appends more. The tailer drains the old file until a
read gives no line, and lets go of it then; what is written to it afterwards is never
read.
-/

namespace Tributary.Tail

open Lib Text

/-! ## One call -/

section call

variable {fs : Fs} {t : Tailer} {cur : Open}

/-- What a call makes of the files it goes through: those without a line left are let
go, and the first of the others gives one. -/
def Gives (fs : Fs) (os : List Open) (answer : Option Text) (os' : List Open) : Prop :=
  ∃ dropped o rest, os = dropped ++ o :: rest ∧ (∀ d ∈ dropped, d.left fs = [])
    ∧ ((answer = none ∧ rest = [] ∧ o.left fs = [] ∧ os' = [o])
      ∨ ∃ line o', answer = some line ∧ o.Read fs line o' ∧ os' = o' :: rest)

/-- The part of a call behind the look at the path. -/
def Tailer.readOn (fs : Fs) (t : Tailer) : Option Text × Tailer :=
  match Tailer.drainPending fs t.draining with
  | (some line, draining) => (some line, { t with draining })
  | (none, draining) =>
      let t := { t with draining }
      match t.current with
      | none => (none, t)
      | some cur =>
          match cur.nextLine fs with
          | (some line, cur) => (some line, { t with current := some cur })
          | (none, _) => (none, t)

theorem nextLine_readOn (fs : Fs) (t : Tailer) :
    t.nextLine fs = match Tailer.drainPending fs t.draining with
      | (some line, draining) => (some line, { t with draining })
      | (none, draining) => (Tailer.checkRotation fs { t with draining }).readOn fs := rfl

/-- What stays as it is in a call. -/
structure Tailer.Keeps (t t' : Tailer) : Prop where
  path : t'.path = t.path
  filesLost : t'.filesLost = t.filesLost
  current : ∃ cur, t'.current = some cur

theorem gives_draining {dropped rest : List Open} {o o' : Open} {line : Text}
    (hcur : t.current = some cur) (heq : t.draining = dropped ++ o :: rest)
    (hdropped : ∀ d ∈ dropped, d.left fs = []) (hread : o.Read fs line o') :
    Gives fs t.opens (some line) ({ t with draining := o' :: rest } : Tailer).opens := by
  refine ⟨dropped, o, rest ++ [cur], ?_, hdropped, .inr ⟨line, o', rfl, hread, ?_⟩⟩
  · simp [Tailer.opens, hcur, heq]
  · simp [Tailer.opens, hcur]

variable (fs) in
theorem readOn_gives (hcur : t.current = some cur) :
    Gives fs t.opens (t.readOn fs).1 (t.readOn fs).2.opens ∧ t.Keeps (t.readOn fs).2 := by
  rcases drainPending_left fs t.draining with ⟨hall, hd⟩ | ⟨dropped, o, rest, line, o', heq, hdropped,
    hread, hd⟩
  · have hopens : t.opens = t.draining ++ [cur] := by rw [Tailer.opens, hcur]; rfl
    rw [hopens]
    rcases cur.nextLine_left fs with ⟨hleft, hn⟩ | ⟨line, cur', hn, hread⟩
    · have hon : t.readOn fs = (none, { t with draining := [] }) := by
        simp [Tailer.readOn, hd, hcur, hn]
      rw [hon]
      refine ⟨⟨t.draining, cur, [], rfl, hall, .inl ⟨rfl, rfl, hleft, ?_⟩⟩, rfl, rfl, cur, hcur⟩
      simp [Tailer.opens, hcur]
    · have hon : t.readOn fs = (some line, { t with draining := [], current := some cur' }) := by
        simp [Tailer.readOn, hd, hcur, hn]
      rw [hon]
      exact ⟨⟨t.draining, cur, [], rfl, hall, .inr ⟨line, cur', rfl, hread, rfl⟩⟩, rfl, rfl, cur',
        rfl⟩
  · have hon : t.readOn fs = (some line, { t with draining := o' :: rest }) := by
      simp [Tailer.readOn, hd]
    rw [hon]
    exact ⟨gives_draining hcur heq hdropped hread, rfl, rfl, cur, hcur⟩

theorem Gives.append_left {os os' ds : List Open} {answer : Option Text}
    (h : Gives fs os answer os') (hds : ∀ d ∈ ds, d.left fs = []) :
    Gives fs (ds ++ os) answer os' := by
  obtain ⟨dropped, o, rest, rfl, hdropped, hgave⟩ := h
  refine ⟨ds ++ dropped, o, rest, by rw [List.append_assoc], fun d hd => ?_, hgave⟩
  exact (List.mem_append.mp hd).elim (hds d) (hdropped d)

/-- What one call does to a tailer: it gives the first line of the files it has open,
with the file at the path behind them if it looked there. -/
structure Turn (fs : Fs) (t : Tailer) (cur : Open) (answer : Option Text) (t' : Tailer)
    (os : List Open) : Prop where
  keeps : t.Keeps t'
  gives : Gives fs os answer t'.opens
  files : (os = t.opens ∧ (answer = none → ∀ id, fs.lookup t.path = some id → id = cur.id))
    ∨ ∃ id, fs.lookup t.path = some id ∧ id ≠ cur.id ∧ os = t.opens ++ [Open.fresh t.path id]

/-- **One call** of a tailer that is not past the end of its file. -/
theorem nextLine_turn (hcur : t.current = some cur) (hlen : cur.offset ≤ fs.len cur.id) :
    ∃ os, Turn fs t cur (t.nextLine fs).1 (t.nextLine fs).2 os := by
  have hopens : t.opens = t.draining ++ [cur] := by rw [Tailer.opens, hcur]; rfl
  rw [nextLine_readOn]
  rcases drainPending_left fs t.draining with ⟨hall, hd⟩ | ⟨dropped, o, rest, line, o', heq, hdropped,
    hread, hd⟩
  · rw [hd]
    rcases checkRotation_of_le (t := { t with draining := [] }) hcur hlen rfl with
      ⟨hsame, hat⟩ | ⟨id, hid, hat, hrot⟩
    · -- the path is vacant, or has the file that is open
      simp only [hsame]
      obtain ⟨hgives, hkeeps⟩ := readOn_gives fs (t := { t with draining := [] }) hcur
      refine ⟨t.opens, ⟨hkeeps.path, hkeeps.filesLost, hkeeps.current⟩, ?_,
        .inl ⟨rfl, fun _ => hat⟩⟩
      rw [hopens]
      rw [show ({ t with draining := [] } : Tailer).opens = [cur] by
        simp [Tailer.opens, hcur]] at hgives
      exact hgives.append_left hall
    · -- a new file stands there
      simp only [hrot]
      obtain ⟨hgives, hkeeps⟩ := readOn_gives fs
        (t := { t with
          rotations := t.rotations + 1
          draining := if cur.offset < fs.len cur.id then [cur] else []
          current := some (Open.fresh t.path id) }) rfl
      refine ⟨t.opens ++ [Open.fresh t.path id],
        ⟨hkeeps.path, hkeeps.filesLost, hkeeps.current⟩, ?_, .inr ⟨id, hat, hid, rfl⟩⟩
      rw [hopens, List.append_assoc]
      refine Gives.append_left ?_ hall
      by_cases hleft : cur.offset < fs.len cur.id
      · simpa [Tailer.opens, hleft] using hgives
      · have hnone : cur.left fs = [] := by
          rw [Open.left, Open.unread, List.drop_eq_nil_of_le (Nat.not_lt.mp hleft), wholeLines_nil]
        refine Gives.append_left ?_ (show ∀ d ∈ [cur], d.left fs = [] by simpa using hnone)
        simpa [Tailer.opens, hleft] using hgives
  · rw [hd]
    exact ⟨t.opens, ⟨rfl, rfl, cur, hcur⟩, gives_draining hcur heq hdropped hread,
      .inl ⟨rfl, fun hnone => absurd hnone (Option.some_ne_none _)⟩⟩

end call

/-! ## Writers that keep their handles -/

namespace Late

/-- The file system, the tailer over it, and what happened so far. -/
structure World where
  fs : Fs
  tailer : Tailer
  /-- every file that was at the path, oldest first -/
  created : List FileId
  /-- the files the tailer has let go of -/
  gone : List Open
  out : List Text

inductive Event where
  | write (id : FileId) (t : Text)
  | rename (dst : Text)
  | create (id : FileId)
  | next
deriving DecidableEq, Repr

namespace World

/-- A file at the path, and a tailer without a checkpoint. -/
def start (path : Text) (id : FileId) (t : Text) : Option World :=
  let fs : Fs := (Fs.create { names := [], inodes := Table.empty } path id).append id t
  (Tailer.resume fs path []).map fun tailer =>
    { fs, tailer, created := [id], gone := [], out := [] }

/-- The world after a call of `next_line`. -/
def called (w : World) (r : Option Text × Tailer) : World :=
  { w with
    tailer := r.2
    gone := w.gone ++ w.tailer.opens.filter fun o => decide (o.id ∉ r.2.opens.map (·.id))
    out := w.out ++ r.1.toList }

/-- Writers write any text to any file that was at the path, whatever its name is by
now. -/
def step (w : World) : Event → Option World
  | .write id t => if id ∈ w.created then some { w with fs := w.fs.append id t } else none
  | .rename dst =>
      (w.fs.lookup w.tailer.path).bind fun _ =>
        if dst ≠ w.tailer.path then some { w with fs := w.fs.rename w.tailer.path dst }
        else none
  | .create id =>
      if w.fs.lookup w.tailer.path = none ∧ id ∉ w.created then
        some { w with
          fs := w.fs.create w.tailer.path id
          created := w.created ++ [id] }
      else none
  | .next => some (w.called (w.tailer.nextLine w.fs))

/-- Call `next_line` until it returns nothing; `none` if `n` calls are not
enough. -/
def poll : Nat → World → Option World
  | 0, _ => none
  | n + 1, w =>
      match w.tailer.nextLine w.fs with
      | (none, t) => some (w.called (none, t))
      | (some line, t) => poll n (w.called (some line, t))

/-- The whole lines of every file that was ever at the path, in order. -/
def written (w : World) : List Text :=
  w.created.flatMap fun id => wholeLines (w.fs.content id)

/-- The tailer has the file open. -/
def Held (w : World) (id : FileId) : Prop := id ∈ w.tailer.opens.map (·.id)

/-- A newline is written only to a file that the tailer has open or that is at the
path, and a file with a whole line is renamed away only once the tailer has it open. -/
def Kept (w : World) : Event → Prop
  | .write id t => '\n' ∈ t → w.Held id ∨ w.fs.lookup w.tailer.path = some id
  | .rename _ => ∀ id, w.fs.lookup w.tailer.path = some id →
      w.Held id ∨ '\n' ∉ w.fs.content id
  | _ => True

/-- The files the tailer has had open, in reading order. -/
def files (w : World) : List Open := w.gone ++ w.tailer.opens

def seen (w : World) : List FileId := w.files.map (·.id)

/-- The lines read of a file. -/
def read (w : World) (o : Open) : List Text := lines ((w.fs.content o.id).take o.offset)

/-! ## The invariant -/

/-- What was emitted are the lines read of the files the tailer has had open, and only
the first of those it has open is read so far. -/
structure Inv (w : World) : Prop where
  current : ∃ cur, w.tailer.current = some cur
  nodup : w.created.Nodup
  sub : w.seen.Sublist w.created
  atPath : ∀ id, w.fs.lookup w.tailer.path = some id → w.created.getLast? = some id
  followed : ∀ id, w.fs.lookup w.tailer.path = some id → id ∈ w.seen →
    w.seen.getLast? = some id
  offset : ∀ o ∈ w.files, o.offset ≤ w.fs.len o.id
  complete : ∀ o ∈ w.files, Complete ((w.fs.content o.id).take o.offset)
  unread : ∀ o ∈ w.tailer.opens.tail, o.offset = 0
  account : w.out = w.files.flatMap w.read
  lost : w.tailer.filesLost = 0

/-- No line is left in the files the tailer has let go of, and those that came and went
unseen have no whole line. -/
def Spent (w : World) : Prop :=
  (∀ o ∈ w.gone, '\n' ∉ o.unread w.fs)
    ∧ ∀ id ∈ w.created, id ∉ w.seen → w.fs.lookup w.tailer.path ≠ some id →
      '\n' ∉ w.fs.content id

variable {w w' : World}

theorem Inv.mem_created (h : w.Inv) {o : Open} (ho : o ∈ w.files) : o.id ∈ w.created :=
  h.sub.subset (List.mem_map_of_mem ho)

theorem Inv.seen_nodup (h : w.Inv) : w.seen.Nodup := h.nodup.sublist h.sub

/-- The lines of a file are those read of it and those it has left. -/
theorem Inv.wholeLines_eq (h : w.Inv) {o : Open} (ho : o ∈ w.files) :
    wholeLines (w.fs.content o.id) = w.read o ++ o.left w.fs := by
  have := (h.complete o ho).wholeLines_append ((w.fs.content o.id).drop o.offset)
  rwa [List.take_append_drop] at this

/-! ## The writers' steps -/

/-- What a file has read stays as it is when it grows. -/
theorem take_append_content {fs : Fs} {o : Open} (ho : o.offset ≤ fs.len o.id) (id : FileId)
    (t : Text) :
    ((fs.append id t).content o.id).take o.offset = (fs.content o.id).take o.offset := by
  rw [Fs.content_append, List.take_append_of_le_length ho]

theorem Inv.write (h : w.Inv) (id : FileId) (t : Text) :
    Inv { w with fs := w.fs.append id t } where
  current := h.current
  nodup := h.nodup
  sub := h.sub
  atPath := h.atPath
  followed := h.followed
  offset := by
    intro o ho
    refine Nat.le_trans (h.offset o ho) ?_
    simp [Fs.len, Fs.content_append]
  complete := by
    intro o ho
    rw [take_append_content (h.offset o ho)]
    exact h.complete o ho
  unread := h.unread
  account := by
    rw [h.account]
    refine List.flatMap_congr fun o ho => ?_
    rw [read, read, take_append_content (h.offset o ho)]
  lost := h.lost

theorem Inv.rename (h : w.Inv) {id : FileId} {dst : Text}
    (hp : w.fs.lookup w.tailer.path = some id) (hdst : dst ≠ w.tailer.path) :
    Inv { w with fs := w.fs.rename w.tailer.path dst } where
  current := h.current
  nodup := h.nodup
  sub := h.sub
  atPath := by simp [Fs.lookup_rename hdst hp]
  followed := by simp [Fs.lookup_rename hdst hp]
  offset := by
    intro o ho
    rw [Fs.len, Fs.content_rename]
    exact h.offset o ho
  complete := by
    intro o ho
    rw [Fs.content_rename]
    exact h.complete o ho
  unread := h.unread
  account := by
    rw [h.account]
    refine List.flatMap_congr fun o ho => ?_
    rw [read, read, Fs.content_rename]
  lost := h.lost

/-- A new file does not change those that were there. -/
theorem content_create_of_mem (h : w.Inv) {id : FileId} (hid : id ∉ w.created) {o : Open}
    (ho : o ∈ w.files) :
    (w.fs.create w.tailer.path id).content o.id = w.fs.content o.id := by
  rw [Fs.content_create, if_neg]
  rintro rfl
  exact hid (h.mem_created ho)

theorem Inv.create (h : w.Inv) {id : FileId} (hp : w.fs.lookup w.tailer.path = none)
    (hid : id ∉ w.created) :
    Inv { w with
      fs := w.fs.create w.tailer.path id
      created := w.created ++ [id] } where
  current := h.current
  nodup := by
    rw [List.nodup_append]
    refine ⟨h.nodup, List.nodup_singleton _, fun a ha b hb hab => ?_⟩
    rw [hab, List.mem_singleton.mp hb] at ha
    exact hid ha
  sub := h.sub.trans (List.sublist_append_left _ _)
  atPath := by
    intro j hj
    rw [← Option.some.inj ((Fs.lookup_create hp id).symm.trans hj), List.getLast?_concat]
  followed := by
    intro j hj hs
    cases (Fs.lookup_create hp id).symm.trans hj
    exact absurd (h.sub.subset hs) hid
  offset := by
    intro o ho
    rw [Fs.len, content_create_of_mem h hid ho]
    exact h.offset o ho
  complete := by
    intro o ho
    rw [content_create_of_mem h hid ho]
    exact h.complete o ho
  unread := h.unread
  account := by
    rw [h.account]
    refine List.flatMap_congr fun o ho => ?_
    rw [read, read, content_create_of_mem h hid ho]
  lost := h.lost

/-! ## The tailer's step -/

/-- What a call goes through: the files it had open, and a new one from the path. -/
theorem Inv.turn (h : w.Inv) :
    ∃ cur os, w.tailer.current = some cur
      ∧ Turn w.fs w.tailer cur (w.tailer.nextLine w.fs).1 (w.tailer.nextLine w.fs).2 os
      ∧ w.seen.getLast? = some cur.id ∧ cur ∈ w.files := by
  obtain ⟨cur, hcur⟩ := h.current
  have hmem : cur ∈ w.files :=
    List.mem_append_right _ ((mem_opens hcur).mpr (.inr rfl))
  obtain ⟨os, hturn⟩ := nextLine_turn hcur (h.offset cur hmem)
  exact ⟨cur, os, hcur, hturn, by simp [seen, files, Tailer.opens, hcur], hmem⟩

/-- The files of a call are known, or new at the path. -/
theorem Inv.turn_files (h : w.Inv) {cur : Open} {answer : Option Text} {t' : Tailer}
    {os : List Open} (hlast : w.seen.getLast? = some cur.id)
    (hturn : Turn w.fs w.tailer cur answer t' os) :
    os = w.tailer.opens
      ∨ ∃ id, w.fs.lookup w.tailer.path = some id ∧ id ∉ w.seen
        ∧ os = w.tailer.opens ++ [Open.fresh w.tailer.path id] := by
  rcases hturn.files with ⟨hos, -⟩ | ⟨id, hat, hne, hos⟩
  · exact .inl hos
  · refine .inr ⟨id, hat, fun hs => hne ?_, hos⟩
    exact Option.some.inj ((h.followed id hat hs).symm.trans hlast)

/-- The files let go of in a call are the first ones. -/
theorem filter_dropped {opens dropped kept os' : List Open} (heq : opens = dropped ++ kept)
    (hkept : ∀ o ∈ kept, o.id ∈ os'.map (·.id))
    (hdropped : ∀ d ∈ dropped, d.id ∉ os'.map (·.id)) :
    (opens.filter fun o => decide (o.id ∉ os'.map (·.id))) = dropped := by
  rw [heq, List.filter_append, List.filter_eq_self.mpr fun d hd => by simpa using hdropped d hd,
    List.filter_eq_nil_iff.mpr fun o ho => by simpa using hkept o ho, List.append_nil]

/-- What one call makes of the world: `dropped` are let go, and `o` is read on to `o'`. -/
structure Moves (w w' : World) (answer : Option Text) (dropped : List Open) (o o' : Open)
    (rest : List Open) : Prop where
  keeps : w.tailer.Keeps w'.tailer
  files : w.gone ++ (dropped ++ o :: rest) = w.files
    ∨ ∃ id, w.fs.lookup w.tailer.path = some id ∧ id ∉ w.seen
      ∧ w.gone ++ (dropped ++ o :: rest) = w.files ++ [Open.fresh w.tailer.path id]
  gone : w'.gone = w.gone ++ dropped
  opens : w'.tailer.opens = o' :: rest
  left : ∀ d ∈ dropped, d.left w.fs = []
  read : (answer = none ∧ rest = [] ∧ o' = o ∧ o.left w.fs = []
      ∧ ∀ id, w.fs.lookup w.tailer.path = some id → id = o.id)
    ∨ ∃ line, answer = some line ∧ o.Read w.fs line o'

/-- The ids of the files of a call are those seen, and the one at the path if it is
new. -/
theorem Inv.ids (h : w.Inv) {os : List Open}
    (hfiles : os = w.files ∨ ∃ id, w.fs.lookup w.tailer.path = some id ∧ id ∉ w.seen
      ∧ os = w.files ++ [Open.fresh w.tailer.path id]) :
    (os.map (·.id)).Sublist w.created
      ∧ ∀ id, w.fs.lookup w.tailer.path = some id → id ∈ os.map (·.id) →
        (os.map (·.id)).getLast? = some id := by
  rcases hfiles with rfl | ⟨id, hat, hnew, rfl⟩
  · exact ⟨h.sub, h.followed⟩
  · have hids : (w.files ++ [Open.fresh w.tailer.path id]).map (·.id) = w.seen ++ [id] := by
      rw [List.map_append]
      rfl
    rw [hids]
    constructor
    · obtain ⟨older, holder⟩ := List.getLast?_eq_some_iff.mp (h.atPath id hat)
      have hsub := h.sub
      rw [holder] at hsub ⊢
      exact (sublist_of_sublist_concat hsub hnew).append_right _
    · intro j hj _
      rw [List.getLast?_concat, ← hat, hj]

theorem Inv.moves (h : w.Inv) : ∃ dropped o o' rest,
    Moves w (w.called (w.tailer.nextLine w.fs)) (w.tailer.nextLine w.fs).1 dropped o o' rest := by
  obtain ⟨cur, os, hcur, hturn, hlast, -⟩ := h.turn
  obtain ⟨dropped, o, rest, hos, hdropped, hgave⟩ := hturn.gives
  have hturn_files := h.turn_files hlast hturn
  have hfiles : w.gone ++ os = w.files ∨ ∃ id, w.fs.lookup w.tailer.path = some id ∧ id ∉ w.seen
      ∧ w.gone ++ os = w.files ++ [Open.fresh w.tailer.path id] := by
    rcases hturn_files with rfl | ⟨id, hat, hnew, rfl⟩
    · exact .inl rfl
    · exact .inr ⟨id, hat, hnew, (List.append_assoc ..).symm⟩
  have hnodup : ((w.gone ++ os).map (·.id)).Nodup := h.nodup.sublist (h.ids hfiles).1
  obtain ⟨o', hopens, hid⟩ : ∃ o', (w.tailer.nextLine w.fs).2.opens = o' :: rest ∧ o'.id = o.id := by
    rcases hgave with ⟨-, hrest, -, ho'⟩ | ⟨line, o', -, hread, ho'⟩
    · exact ⟨o, by rw [ho', hrest], rfl⟩
    · exact ⟨o', ho', hread.id⟩
  have hids : (o' :: rest).map (·.id) = (o :: rest).map (·.id) := by
    rw [List.map_cons, List.map_cons, hid]
  obtain ⟨kept, hkept, hsub⟩ : ∃ kept, w.tailer.opens = dropped ++ kept ∧ kept ⊆ o :: rest := by
    rcases hturn_files with heq | ⟨id, -, -, heq⟩
    · exact ⟨o :: rest, heq.symm.trans hos, List.Subset.refl _⟩
    · refine ⟨(o :: rest).dropLast, ?_, List.dropLast_subset _⟩
      have hdrop := congrArg List.dropLast (heq.symm.trans hos)
      rwa [List.dropLast_concat, List.dropLast_append_of_ne_nil (List.cons_ne_nil _ _)] at hdrop
  refine ⟨dropped, o, o', rest, hturn.keeps, hos ▸ hfiles, congrArg (w.gone ++ ·) ?_, hopens,
    hdropped, ?_⟩
  · refine filter_dropped hkept (fun p hp => ?_) fun d hd hmem => ?_
    · rw [hopens, hids]
      exact List.mem_map_of_mem (hsub hp)
    · -- a file let go of has another id than those that are kept
      rw [hopens, hids] at hmem
      rw [hos, List.map_append, List.map_append] at hnodup
      have hdis := (List.nodup_append.mp (List.nodup_append.mp hnodup).2.1).2.2
      exact hdis _ (List.mem_map_of_mem hd) _ hmem rfl
  · rcases hgave with ⟨hnone, hrest, hleft, ho'⟩ | ⟨line, p, hsome, hread, ho'⟩
    · refine .inl ⟨hnone, hrest, ?_, hleft, fun id hat => ?_⟩
      · rw [hopens, hrest] at ho'
        exact (List.cons.inj ho').1
      · rw [hrest] at hos
        rcases hturn.files with ⟨heq, hidle⟩ | ⟨id', hat', -, heq⟩
        · have hlast' := congrArg List.getLast? (hos.symm.trans heq)
          rw [Tailer.opens, hcur, List.getLast?_concat] at hlast'
          rw [hidle hnone id hat]
          simpa using congrArg (Option.map (·.id)) hlast'.symm
        · have hlast' := congrArg List.getLast? (hos.symm.trans heq)
          rw [List.getLast?_concat, List.getLast?_concat] at hlast'
          rw [Option.some.inj hlast']
          exact Option.some.inj (hat.symm.trans hat')
    · rw [hopens] at ho'
      obtain rfl := (List.cons.inj ho').1
      exact .inr ⟨line, hsome, hread⟩

variable {answer : Option Text} {dropped rest : List Open} {o o' : Open}

theorem Moves.id (m : Moves w w' answer dropped o o' rest) : o'.id = o.id := by
  rcases m.read with ⟨-, -, rfl, -⟩ | ⟨line, -, hread⟩
  · rfl
  · exact hread.id

theorem Moves.files_after (m : Moves w w' answer dropped o o' rest) :
    w'.files = w.gone ++ (dropped ++ o' :: rest) := by
  rw [World.files, m.gone, m.opens, List.append_assoc]

/-- The tailer has had the same files open, and the one at the path if it is new. -/
theorem Moves.seen (m : Moves w w' answer dropped o o' rest) :
    w'.seen = (w.gone ++ (dropped ++ o :: rest)).map (·.id) := by
  simp [World.seen, m.files_after, m.id]

/-- Before the call, too, each of the files was read up to the start of a line. -/
theorem Moves.before (h : w.Inv) (m : Moves w w' answer dropped o o' rest) {p : Open}
    (hp : p ∈ w.gone ++ (dropped ++ o :: rest)) :
    p.offset ≤ w.fs.len p.id ∧ Complete ((w.fs.content p.id).take p.offset) := by
  rcases m.files with heq | ⟨id, -, -, heq⟩
  · rw [heq] at hp
    exact ⟨h.offset p hp, h.complete p hp⟩
  · rw [heq] at hp
    rcases List.mem_append.mp hp with hp | hp
    · exact ⟨h.offset p hp, h.complete p hp⟩
    · rw [List.mem_singleton.mp hp]
      exact ⟨Nat.zero_le _, .nil⟩

theorem Moves.after (h : w.Inv) (m : Moves w w' answer dropped o o' rest) :
    o'.offset ≤ w.fs.len o'.id ∧ Complete ((w.fs.content o'.id).take o'.offset)
      ∧ lines ((w.fs.content o'.id).take o'.offset) = w.read o ++ answer.toList := by
  obtain ⟨hoff, hcomplete⟩ := m.before h (p := o) (by simp)
  rcases m.read with ⟨rfl, -, rfl, -⟩ | ⟨line, rfl, hread⟩
  · exact ⟨hoff, hcomplete, (List.append_nil _).symm⟩
  · rw [hread.take]
    refine ⟨by rw [hread.id]; exact hread.length, ?_, ?_⟩
    · exact hcomplete.append (complete_readUntil hread.newline)
    · rw [hcomplete.lines_append, lines_readUntil hread.newline, ← hread.text]
      rfl

/-- Behind the file that gives a line nothing is read so far. -/
theorem Moves.unread (h : w.Inv) (m : Moves w w' answer dropped o o' rest) :
    ∀ p ∈ rest, p.offset = 0 := by
  obtain ⟨cur, hcur⟩ := h.current
  have hne : w.tailer.opens ≠ [] := by simp [Tailer.opens, hcur]
  have htail : rest ⊆ (dropped ++ o :: rest).tail := by
    cases dropped with
    | nil => exact List.Subset.refl _
    | cons d ds => exact fun p hp => List.mem_append_right _ (List.mem_cons_of_mem _ hp)
  intro p hp
  rcases m.files with heq | ⟨id, -, -, heq⟩
  · rw [List.append_cancel_left heq] at htail
    exact h.unread p (htail hp)
  · rw [World.files, List.append_assoc] at heq
    rw [List.append_cancel_left heq, List.tail_append_of_ne_nil hne] at htail
    rcases List.mem_append.mp (htail hp) with hp | hp
    · exact h.unread p hp
    · rw [List.mem_singleton.mp hp]
      rfl

/-- A call keeps the invariant. -/
theorem Inv.next (h : w.Inv) : Inv (w.called (w.tailer.nextLine w.fs)) := by
  obtain ⟨dropped, o, o', rest, m⟩ := h.moves
  obtain ⟨hoff, hcomplete, hlines⟩ := m.after h
  obtain ⟨hsub, hfollowed⟩ := h.ids m.files
  rw [← m.seen] at hsub hfollowed
  have hrest := m.unread h
  -- a file of the world after the call is read as it was, or it is `o`
  have hfile : ∀ p ∈ w.gone ++ (dropped ++ o' :: rest),
      p.offset ≤ w.fs.len p.id ∧ Complete ((w.fs.content p.id).take p.offset) := by
    intro p hp
    by_cases he : p = o'
    · rw [he]
      exact ⟨hoff, hcomplete⟩
    · refine m.before h ?_
      simp only [List.mem_append, List.mem_cons, he, false_or] at hp ⊢
      exact hp.imp_right (Or.imp_right .inr)
  have hnil : ∀ ps : List Open, (∀ p ∈ ps, p.offset = 0) → ps.flatMap w.read = [] := by
    intro ps hps
    refine List.flatMap_eq_nil_iff.mpr fun p hp => ?_
    rw [read, hps p hp, List.take_zero, lines_nil]
  refine ⟨m.keeps.current, h.nodup, hsub, ?_, ?_, ?_, ?_, ?_, ?_, ?_⟩
  · rw [m.keeps.path]
    exact h.atPath
  · rw [m.keeps.path]
    exact hfollowed
  · rw [m.files_after]
    exact fun p hp => (hfile p hp).1
  · rw [m.files_after]
    exact fun p hp => (hfile p hp).2
  · rw [m.opens]
    exact hrest
  · have hbefore : w.out = (w.gone ++ (dropped ++ o :: rest)).flatMap w.read := by
      rcases m.files with heq | ⟨id, -, -, heq⟩
      · rw [heq, h.account]
      · rw [heq, List.flatMap_append, hnil [_] (by simp [Open.fresh]), List.append_nil, h.account]
    show w.out ++ (w.tailer.nextLine w.fs).1.toList = List.flatMap w.read _
    rw [m.files_after, hbefore]
    simp only [List.flatMap_append, List.flatMap_cons, hnil rest hrest, List.append_nil,
      List.append_assoc]
    rw [← hlines]
    rfl
  · rw [m.keeps.filesLost]
    exact h.lost

/-! ## What is written to a file nobody reads -/

theorem mem_seen_iff {id : FileId} : id ∈ w.seen ↔ (∃ o ∈ w.gone, o.id = id) ∨ w.Held id := by
  simp [seen, files, Held]

/-- A file the tailer has let go of is neither open nor at the path. -/
theorem Inv.gone_only (h : w.Inv) {o : Open} (ho : o ∈ w.gone) :
    ¬ w.Held o.id ∧ w.fs.lookup w.tailer.path ≠ some o.id := by
  have hnodup := h.seen_nodup
  rw [seen, files, List.map_append] at hnodup
  have hnot : ¬ w.Held o.id := fun hheld =>
    (List.nodup_append.mp hnodup).2.2 _ (List.mem_map_of_mem ho) _ hheld rfl
  refine ⟨hnot, fun hat => ?_⟩
  obtain ⟨cur, hcur⟩ := h.current
  have hlast : w.seen.getLast? = some cur.id := by simp [seen, files, Tailer.opens, hcur]
  have hid := h.followed o.id hat (mem_seen_iff.mpr (.inl ⟨o, ho, rfl⟩))
  refine hnot ?_
  rw [← Option.some.inj (hlast.symm.trans hid)]
  exact List.mem_map_of_mem ((mem_opens hcur).mpr (.inr rfl))

theorem Inv.spent_write (h : w.Inv) {id : FileId} {t : Text} (hid : id ∈ w.created) :
    Spent { w with fs := w.fs.append id t }
      ↔ w.Spent ∧ ('\n' ∈ t → w.Held id ∨ w.fs.lookup w.tailer.path = some id) := by
  have hunread : ∀ o ∈ w.gone, o.unread (w.fs.append id t)
      = o.unread w.fs ++ if o.id = id then t else [] := by
    intro o ho
    rw [Open.unread, Fs.content_append,
      List.drop_append_of_le_length (h.offset o (List.mem_append_left _ ho))]
    rfl
  constructor
  · rintro ⟨hgone, hunseen⟩
    refine ⟨⟨fun o ho hm => hgone o ho ?_, fun j hj hs hp hm => hunseen j hj hs hp ?_⟩,
      fun ht => ?_⟩
    · rw [hunread o ho]
      exact List.mem_append_left _ hm
    · rw [Fs.content_append]
      exact List.mem_append_left _ hm
    · by_contra hno
      obtain ⟨hheld, hp⟩ := not_or.mp hno
      by_cases hs : id ∈ w.seen
      · obtain ⟨o, ho, hoid⟩ := (mem_seen_iff.mp hs).resolve_right hheld
        refine hgone o ho ?_
        rw [hunread o ho, if_pos hoid]
        exact List.mem_append_right _ ht
      · refine hunseen id hid hs hp ?_
        rw [Fs.content_append, if_pos rfl]
        exact List.mem_append_right _ ht
  · rintro ⟨⟨hgone, hunseen⟩, ht⟩
    refine ⟨fun o ho hm => ?_, fun j hj hs hp hm => ?_⟩
    · rw [hunread o ho] at hm
      refine (List.mem_append.mp hm).elim (hgone o ho) fun hm => ?_
      split at hm
      · rename_i hoid
        rw [← hoid] at ht
        exact (ht hm).elim (h.gone_only ho).1 (h.gone_only ho).2
      · cases hm
    · rw [Fs.content_append] at hm
      refine (List.mem_append.mp hm).elim (hunseen j hj hs hp) fun hm => ?_
      split at hm
      · rename_i hjid
        rw [← hjid] at ht
        exact (ht hm).elim (fun hheld => hs (mem_seen_iff.mpr (.inr hheld))) hp
      · cases hm

theorem Inv.spent_rename (h : w.Inv) {id : FileId} {dst : Text}
    (hat : w.fs.lookup w.tailer.path = some id) (hdst : dst ≠ w.tailer.path) :
    Spent { w with fs := w.fs.rename w.tailer.path dst }
      ↔ w.Spent ∧ ∀ id, w.fs.lookup w.tailer.path = some id →
          w.Held id ∨ '\n' ∉ w.fs.content id := by
  simp only [Spent, Fs.lookup_rename hdst hat, Open.unread, Fs.content_rename]
  constructor
  · rintro ⟨hgone, hunseen⟩
    refine ⟨⟨hgone, fun j hj hs _ => hunseen j hj hs (by simp)⟩, fun j hj => ?_⟩
    by_cases hs : j ∈ w.seen
    · refine .inl ((mem_seen_iff.mp hs).resolve_left ?_)
      rintro ⟨o, ho, rfl⟩
      exact (h.gone_only ho).2 hj
    · exact .inr (hunseen j (List.mem_of_getLast? (h.atPath j hj)) hs (by simp))
  · rintro ⟨⟨hgone, hunseen⟩, hrenamed⟩
    refine ⟨hgone, fun j hj hs _ => ?_⟩
    by_cases hjat : w.fs.lookup w.tailer.path = some j
    · exact (hrenamed j hjat).resolve_left fun hheld => hs (mem_seen_iff.mpr (.inr hheld))
    · exact hunseen j hj hs hjat

theorem Inv.spent_create (h : w.Inv) {id : FileId} (hp : w.fs.lookup w.tailer.path = none)
    (hid : id ∉ w.created) :
    Spent { w with
      fs := w.fs.create w.tailer.path id
      created := w.created ++ [id] } ↔ w.Spent := by
  have hgone : ∀ o ∈ w.gone, o.unread (w.fs.create w.tailer.path id) = o.unread w.fs :=
    fun o ho => by
      rw [Open.unread, content_create_of_mem h hid (List.mem_append_left _ ho)]
      rfl
  simp only [Spent, Fs.lookup_create hp, hp, Fs.content_create]
  refine and_congr (forall₂_congr fun o ho => by rw [hgone o ho]) ?_
  constructor
  · intro hunseen j hj hs _
    have hne : j ≠ id := fun he => hid (he ▸ hj)
    simpa [hne] using hunseen j (List.mem_append_left _ hj) hs (by simpa using hne.symm)
  · intro hunseen j hj hs hat
    have hne : j ≠ id := fun he => hat (by rw [he])
    rw [if_neg hne]
    exact hunseen j ((List.mem_append.mp hj).resolve_right (by simpa using hne)) hs (by simp)

theorem Inv.spent_next (h : w.Inv) :
    Spent (w.called (w.tailer.nextLine w.fs)) ↔ w.Spent := by
  obtain ⟨dropped, o, o', rest, m⟩ := h.moves
  -- what is seen by the call alone is at the path
  have hseen : ∀ j, w.fs.lookup w.tailer.path ≠ some j →
      (j ∈ (w.called (w.tailer.nextLine w.fs)).seen ↔ j ∈ w.seen) := by
    intro j hj
    rw [m.seen]
    rcases m.files with heq | ⟨id, hat, -, heq⟩
    · rw [heq]
      rfl
    · have hne : j ≠ id := fun he => hj (by rw [he, hat])
      rw [heq, List.map_append, List.mem_append]
      simp [World.seen, Open.fresh, hne]
  rw [Spent, Spent, m.gone, m.keeps.path]
  refine and_congr ?_ (forall₂_congr fun j _ => ?_)
  · constructor
    · exact fun hgone p hp => hgone p (List.mem_append_left _ hp)
    · intro hgone p hp
      rcases List.mem_append.mp hp with hp | hp
      · exact hgone p hp
      · exact wholeLines_eq_nil_iff.mp (m.left p hp)
  · constructor
    · exact fun hunseen hs hat => hunseen (fun hm => hs ((hseen j hat).mp hm)) hat
    · exact fun hunseen hs hat => hunseen (fun hm => hs ((hseen j hat).mpr hm)) hat

/-- **One step**: the invariant is kept, and a line is left where nobody reads it exactly
if the step does not meet the condition. -/
theorem Inv.step {e : Event} (h : w.Inv) (hs : step w e = some w') :
    w'.Inv ∧ (w'.Spent ↔ w.Spent ∧ w.Kept e) := by
  cases e with
  | write id t =>
      rw [World.step] at hs
      split at hs
      · rename_i hid
        cases hs
        exact ⟨h.write id t, h.spent_write hid⟩
      · cases hs
  | rename dst =>
      obtain ⟨id, hp, hs⟩ := Option.bind_eq_some_iff.mp hs
      split at hs
      · rename_i hdst
        cases hs
        exact ⟨h.rename hp hdst, h.spent_rename hp hdst⟩
      · cases hs
  | create id =>
      rw [World.step] at hs
      split at hs
      · rename_i hok
        cases hs
        exact ⟨h.create hok.1 hok.2, by rw [h.spent_create hok.1 hok.2]; simp [Kept]⟩
      · cases hs
  | next =>
      cases hs
      exact ⟨h.next, by rw [h.spent_next]; simp [Kept]⟩

/-! ## Reading on until nothing is left -/

/-- The whole lines of the files the tailer has had open, one after another. -/
theorem Inv.length_seen (h : w.Inv) :
    (w.seen.flatMap fun id => wholeLines (w.fs.content id)).length
      = w.out.length + (w.files.flatMap (Open.left w.fs)).length := by
  have hlines : (w.seen.flatMap fun id => wholeLines (w.fs.content id))
      = w.files.flatMap fun o => w.read o ++ o.left w.fs := by
    rw [seen, List.flatMap_map]
    exact List.flatMap_congr fun o ho => h.wholeLines_eq ho
  rw [hlines, h.account]
  simp only [List.length_flatMap, List.length_append, List.sum_map_add]

theorem Inv.seen_sublist (h : w.Inv) :
    (w.seen.flatMap fun id => wholeLines (w.fs.content id)).Sublist w.written :=
  flatMap_sublist _ h.sub

theorem Inv.out_le (h : w.Inv) : w.out.length ≤ w.written.length := by
  have hlen := h.seen_sublist.length_le
  rw [h.length_seen] at hlen
  omega

/-- Once the tailer is dry, what is missing are the lines that nobody reads. -/
theorem Inv.dry_iff (h : w.Inv) (hdry : ∀ o ∈ w.tailer.opens, o.left w.fs = [])
    (hat : ∀ id, w.fs.lookup w.tailer.path = some id → id ∈ w.seen) :
    w.out = w.written ↔ w.Spent := by
  have hlen := h.length_seen
  constructor
  · intro heq
    have hle := h.seen_sublist.length_le
    rw [← heq] at hle
    have hleft : w.files.flatMap (Open.left w.fs) = [] := by
      rw [← List.length_eq_zero_iff]
      omega
    have hall : (w.seen.flatMap fun id => wholeLines (w.fs.content id)) = w.written :=
      h.seen_sublist.eq_of_length (by rw [← heq]; omega)
    refine ⟨fun o ho => wholeLines_eq_nil_iff.mp ?_, fun id hid hs _ => ?_⟩
    · exact List.flatMap_eq_nil_iff.mp hleft o (List.mem_append_left _ ho)
    · exact wholeLines_eq_nil_iff.mp
        ((flatMap_eq_iff_of_sublist _ h.sub h.nodup).mp hall id hid hs)
  · rintro ⟨hgone, hunseen⟩
    have hleft : w.files.flatMap (Open.left w.fs) = [] := by
      refine List.flatMap_eq_nil_iff.mpr fun o ho => ?_
      rcases List.mem_append.mp ho with ho | ho
      · exact wholeLines_eq_nil_iff.mpr (hgone o ho)
      · exact hdry o ho
    have hall : (w.seen.flatMap fun id => wholeLines (w.fs.content id)) = w.written :=
      (flatMap_eq_iff_of_sublist _ h.sub h.nodup).mpr fun id hid hs =>
        wholeLines_eq_nil_iff.mpr (hunseen id hid hs fun hp => hs (hat id hp))
    rw [← hall, h.account, seen, List.flatMap_map]
    refine List.flatMap_congr fun o ho => ?_
    rw [h.wholeLines_eq ho, List.flatMap_eq_nil_iff.mp hleft o ho, List.append_nil]

theorem Inv.poll {n : Nat} (h : w.Inv) (hp : World.poll n w = some w') :
    (w'.out = w'.written ↔ w.Spent) ∧ w'.tailer.filesLost = 0 := by
  induction n generalizing w with
  | zero => cases hp
  | succ n ih =>
      obtain ⟨dropped, o, o', rest, m⟩ := h.moves
      have h' := h.next
      rw [World.poll] at hp
      rw [← h.spent_next]
      split at hp
      · rename_i t he
        cases hp
        rw [he] at m h' ⊢
        refine ⟨h'.dry_iff ?_ ?_, h'.lost⟩
        · rcases m.read with ⟨-, hrest, ho', hleft, -⟩ | ⟨line, hsome, -⟩
          · rw [m.opens, hrest, ho']
            exact fun p hp => List.mem_singleton.mp hp ▸ hleft
          · cases hsome
        · rcases m.read with ⟨-, -, -, -, hat⟩ | ⟨line, hsome, -⟩
          · rw [m.seen, m.keeps.path]
            intro id hid
            rw [hat id hid]
            exact List.mem_map_of_mem (by simp)
          · cases hsome
      · rename_i line t he
        rw [he] at h' ⊢
        exact ih h' hp

/-- The tailer runs dry after finitely many calls. -/
theorem Inv.poll_ends (h : w.Inv) {n : Nat} (hn : w.written.length < w.out.length + n) :
    (World.poll n w).isSome := by
  induction n generalizing w with
  | zero =>
      have := h.out_le
      omega
  | succ n ih =>
      have h' := h.next
      rw [World.poll]
      split
      · rfl
      · rename_i line t he
        rw [he] at h'
        refine ih h' ?_
        have hw : (w.called (some line, t)).written = w.written := rfl
        have ho : (w.called (some line, t)).out = w.out ++ [line] := rfl
        rw [hw, ho, List.length_append, List.length_singleton]
        omega

theorem Inv.start {path : Text} {id : FileId} {t : Text}
    (h : World.start path id t = some w) : w.Inv ∧ w.Spent := by
  have hat : ((Fs.create { names := [], inodes := Table.empty } path id).append id t).lookup
      path = some id := by
    rw [Fs.lookup_append]
    exact Fs.lookup_create rfl id
  rw [World.start, resume_fresh hat, Option.map_some] at h
  cases h
  constructor
  · refine ⟨⟨_, rfl⟩, List.nodup_singleton _, List.Sublist.refl _, ?_, ?_, ?_, ?_, ?_, rfl, rfl⟩
    · exact fun j hj => hat.symm.trans hj
    · exact fun j hj _ => hat.symm.trans hj
    · intro o ho
      rw [List.mem_singleton.mp ho]
      exact Nat.zero_le _
    · intro o ho
      rw [List.mem_singleton.mp ho]
      exact .nil
    · exact fun o ho => nomatch ho
  · exact ⟨fun o ho => (nomatch ho), fun j hj hs => absurd hj hs⟩

/-- **Late writes.** After any run of writers that keep their handles, and of the tailer,
the tailer runs dry, and has then emitted every whole line of every file, each once and
in order, or has counted a lost file, exactly if no newline was written to a file that
the tailer had let go of and no file with a whole line came and went unseen. -/
theorem late_lines_iff (path : Text) (id : FileId) (t : Text) (es : List Event) (w₀ w : World)
    (h₀ : World.start path id t = some w₀) (hr : run step w₀ es = some w) :
    (∃ n, (World.poll n w).isSome)
      ∧ ∀ n w', World.poll n w = some w' →
        ((w'.out = w'.written ∨ 0 < w'.tailer.filesLost) ↔ Meets step Kept w₀ es) := by
  obtain ⟨hinv₀, hspent⟩ := Inv.start h₀
  have hinv := run_preserves (fun _ _ _ h hs => (Inv.step h hs).1) hinv₀ hr
  have hmeets : w.Spent ↔ w₀.Spent ∧ Meets step Kept w₀ es :=
    run_meets_iff (fun _ _ _ h hs => (Inv.step h hs).1) (fun _ _ _ h hs => (Inv.step h hs).2)
      hinv₀ hr
  refine ⟨⟨_, hinv.poll_ends (n := w.written.length + 1) (by omega)⟩, fun n w' hp => ?_⟩
  obtain ⟨hout, hlost⟩ := hinv.poll hp
  rw [hout, hmeets, hlost]
  simp [hspent]

/-! ## A writer that finishes its line late -/

/-- A file rotated with half a line in it; its writer ends the line after the tailer has
looked. -/
def finishedLate : List Event :=
  [.next, .rename ['p', '1'], .create ⟨0, 1⟩, .next, .write ⟨0, 0⟩ ['b', '\n']]

theorem late_lines_iff_finishedLate :
    ∃ w₀ w, World.start ['p'] ⟨0, 0⟩ ['x', '\n', 'a'] = some w₀
      ∧ run step w₀ finishedLate = some w
      ∧ ∀ n w', World.poll n w = some w' →
        ((w'.out = w'.written ∨ 0 < w'.tailer.filesLost) ↔ Meets step Kept w₀ finishedLate) :=
  ⟨_, _, rfl, rfl, (late_lines_iff ['p'] ⟨0, 0⟩ ['x', '\n', 'a'] finishedLate _ _ rfl rfl).2⟩

/-- The line is never emitted, and no file is counted as lost. -/
theorem a_late_line_is_abandoned :
    ((World.start ['p'] ⟨0, 0⟩ ['x', '\n', 'a']).bind fun w =>
        (run step w finishedLate).bind fun w => (World.poll 2 w).map fun w =>
          (w.out, w.written, w.tailer.filesLost))
      = some ([['x']], [['x'], ['a', 'b']], 0) := rfl

end World

end Late

end Tributary.Tail
