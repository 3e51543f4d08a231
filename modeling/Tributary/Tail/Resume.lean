import Tributary.Tail.Rotation

/-!
# Stopping and resuming

The tailer is stopped and built again from its marks, at any moment of a run. A
file is found again under the path or under a name beside it; then the new tailer
has the same lines left as the old one, and those of the file at the path if it is
new. Where the names beside the path cannot be listed, a file that has moved is lost.
-/

namespace Tributary.Tail

open Lib

/-! ## The path a tailer follows -/

theorem checkRotation_path (fs : Fs) (t : Tailer) : (t.checkRotation fs).path = t.path := by
  rw [Tailer.checkRotation]
  split
  · rfl
  · split
    · rfl
    · split
      · rfl
      · split <;> rfl

theorem nextLine_path {fs : Fs} {t : Tailer} : (t.nextLine fs).2.path = t.path := by
  rw [Tailer.nextLine]
  split
  · rfl
  · have hpath := fun os => checkRotation_path fs { t with draining := os }
    dsimp only
    split
    · exact hpath _
    · split
      · exact hpath _
      · split <;> exact hpath _

/-! ## Finding a file again -/

section find

variable {fs : Fs} {path : Text} {o : Open} {os : List Open} {id : FileId}

/-- The file has a name `resume` looks at. -/
def Findable (fs : Fs) (path : Text) (id : FileId) : Prop :=
  (findInode fs (siblingPaths fs path) id).isSome

instance (fs : Fs) (path : Text) (id : FileId) : Decidable (Findable fs path id) :=
  inferInstanceAs (Decidable (_ = true))

theorem findInode_cases {p : Text} (h : findInode fs (siblingPaths fs path) id = some p) :
    fs.lookup p = some id ∧ (p = path ↔ fs.lookup path = some id) := by
  have hp : fs.lookup p = some id := by simpa using List.find?_some h
  refine ⟨hp, fun hpath => hpath ▸ hp, fun hat => ?_⟩
  -- the path itself is looked at first
  rw [findInode, siblingPaths, List.find?_cons_of_pos (by simpa using hat)] at h
  exact (Option.some.inj h).symm

/-- An open file under the name it is found by. -/
def Open.moved (o : Open) (p : Text) : Open := { o with path := p }

@[simp] theorem Open.rest_moved (o : Open) (p : Text) : (o.moved p).rest fs = o.rest fs := rfl

/-- The mark of an open file. -/
def Open.mark (o : Open) : FileMark := { dev := o.id.dev, ino := o.id.ino, offset := o.offset }

theorem marks_eq (t : Tailer) : t.marks = t.opens.map Open.mark := rfl

/-- What `resume` drains of a marked file: nothing of the file at the path once it is read. -/
def Open.again (fs : Fs) (path : Text) (o : Open) : Option Open :=
  (findInode fs (siblingPaths fs path) o.id).bind fun p =>
    if o.offset < fs.len o.id ∨ p ≠ path then some (o.moved p) else none

theorem adopt_mark {t : Tailer} (ht : t.path = path) (hv : o.offset ≤ fs.len o.id) :
    Tailer.adopt fs (siblingPaths fs path) t o.mark = some { t with
      draining := t.draining ++ (o.again fs path).toList
      filesLost := t.filesLost + if Findable fs path o.id then 0 else 1 } := by
  have hid : (⟨o.mark.dev, o.mark.ino⟩ : FileId) = o.id := rfl
  rcases Option.eq_none_or_eq_some (findInode fs (siblingPaths fs path) o.id) with
    hfind | ⟨p, hfind⟩
  · simp [Tailer.adopt, hid, Open.again, Findable, hfind]
  · have hopen : Open.at fs p o.mark.offset = some (o.moved p) := by
      have hp := (findInode_cases hfind).1
      simp [Open.at, hp, Open.moved, Open.mark, Nat.min_eq_left hv]
    subst ht
    by_cases hleft : o.offset < fs.len o.id ∨ p ≠ t.path
    · simp [Tailer.adopt, hid, Open.again, Findable, hfind, hopen, Open.moved, hleft]
    · simp [Tailer.adopt, hid, Open.again, Findable, hfind, hopen, Open.moved, hleft]

/-- The marks in order: what is drained, and how many files are lost. -/
theorem foldlM_adopt {t : Tailer} (ht : t.path = path) (hv : ∀ o ∈ os, o.offset ≤ fs.len o.id) :
    (os.map Open.mark).foldlM (Tailer.adopt fs (siblingPaths fs path)) t = some { t with
      draining := t.draining ++ os.filterMap (Open.again fs path)
      filesLost := t.filesLost + os.countP fun o => ¬ Findable fs path o.id } := by
  induction os generalizing t with
  | nil => simp
  | cons o os ih =>
      rw [List.map_cons, List.foldlM_cons, adopt_mark ht (hv o (List.mem_cons_self ..))]
      rw [Option.bind_eq_bind, Option.bind_some]
      rw [ih (by exact ht) fun o ho => hv o (List.mem_cons_of_mem _ ho)]
      cases ho : o.again fs path <;> by_cases hf : Findable fs path o.id <;>
        simp [ho, hf, Nat.add_comm, Nat.add_assoc]

/-- What is found is another name of an open file. -/
theorem mem_again {o' : Open} (h : o' ∈ os.filterMap (Open.again fs path)) :
    ∃ o ∈ os, o'.id = o.id ∧ o'.offset = o.offset := by
  obtain ⟨o, ho, hagain⟩ := List.mem_filterMap.mp h
  obtain ⟨p, -, hp⟩ := Option.bind_eq_some_iff.mp hagain
  split at hp
  · obtain rfl := Option.some.inj hp
    exact ⟨o, ho, rfl, rfl⟩
  · cases hp

/-- Files that are all found have the same lines left. -/
theorem pending_again (h : ∀ o ∈ os, Findable fs path o.id) :
    pending fs (os.filterMap (Open.again fs path)) = pending fs os := by
  induction os with
  | nil => rfl
  | cons o os ih =>
      have hrest := ih fun o ho => h o (List.mem_cons_of_mem _ ho)
      obtain ⟨p, hp⟩ := Option.isSome_iff_exists.mp (h o (List.mem_cons_self ..))
      by_cases hleft : o.offset < fs.len o.id ∨ p ≠ path
      · have hagain : o.again fs path = some (o.moved p) := by simp [Open.again, hp, hleft]
        rw [List.filterMap_cons_some hagain, pending_cons, pending_cons, hrest, Open.rest_moved]
      · -- read to its end, at the path
        have hagain : o.again fs path = none := by simp [Open.again, hp, hleft]
        rw [List.filterMap_cons_none hagain, pending_cons, hrest,
          Open.rest_of_read fun hlt => hleft (.inl hlt), List.nil_append]

end find

/-! ## What `resume` makes of the marks -/

section resume

variable {fs : Fs} {t : Tailer} {cur : Open} {id : FileId}

/-- The open files `resume` does not find. -/
def Tailer.missing (t : Tailer) (fs : Fs) : Nat :=
  t.opens.countP fun o => ¬ Findable fs t.path o.id

/-- A tailer that drains the found ones of `os`. -/
def Tailer.again (t : Tailer) (fs : Fs) (os : List Open) (current : Option Open) : Tailer :=
  { path := t.path, draining := os.filterMap (Open.again fs t.path), current
    filesLost := t.missing fs, rotations := 0 }

theorem adopt_marks (hv : ∀ o ∈ t.opens, o.Valid fs) :
    t.marks.foldlM (Tailer.adopt fs (siblingPaths fs t.path))
        { path := t.path, draining := [], current := none, filesLost := 0, rotations := 0 }
      = some (t.again fs t.opens none) := by
  let closed : Tailer :=
    { path := t.path, draining := [], current := none, filesLost := 0, rotations := 0 }
  have hfold := foldlM_adopt (rfl : closed.path = t.path) fun o ho => (hv o ho).offset
  rw [marks_eq, hfold]
  simp [closed, Tailer.again, Tailer.missing]

/-- No file at the path. -/
theorem resume_vacant (hv : ∀ o ∈ t.opens, o.Valid fs) (hpath : fs.lookup t.path = none) :
    Tailer.resume fs t.path t.marks = some (t.again fs t.opens none) := by
  simp only [Tailer.resume, adopt_marks hv, hpath]
  rfl

theorem again_ne {os : List Open} (h : ∀ o ∈ os, o.id ≠ id) (path : Text) :
    ∀ o ∈ os.filterMap (Open.again fs path), o.id ≠ id := by
  intro o' ho'
  obtain ⟨o, ho, hid, -⟩ := mem_again ho'
  exact hid ▸ h o ho

/-- A file at the path that the tailer did not have open is read from its start. -/
theorem resume_new (hv : ∀ o ∈ t.opens, o.Valid fs) (hpath : fs.lookup t.path = some id)
    (hnew : ∀ o ∈ t.opens, o.id ≠ id) :
    Tailer.resume fs t.path t.marks
      = some (t.again fs t.opens (some (.fresh t.path id))) := by
  have hfind : (t.opens.filterMap (Open.again fs t.path)).find? (fun o => decide (o.id = id))
      = none := by
    rw [List.find?_eq_none]
    exact fun o ho => by simpa using again_ne hnew t.path o ho
  have hmark : t.marks.find? (fun m => decide ((⟨m.dev, m.ino⟩ : FileId) = id)) = none := by
    rw [marks_eq, List.find?_eq_none]
    intro m hm
    obtain ⟨o, ho, rfl⟩ := List.mem_map.mp hm
    rw [decide_eq_true_iff]
    exact hnew o ho
  simp only [Tailer.resume, adopt_marks hv, hpath, Option.bind_eq_bind, Option.bind_some,
    Tailer.again, hfind, hmark, Option.map_none, Option.getD_none, Open.at_zero hpath]

/-- The file the tailer has open, still at the path, is read on. -/
theorem resume_known (hv : ∀ o ∈ t.opens, o.Valid fs) (hcur : t.current = some cur)
    (hpath : fs.lookup t.path = some cur.id) (hgone : ∀ o ∈ t.draining, o.id ≠ cur.id) :
    Tailer.resume fs t.path t.marks
      = some (t.again fs t.draining (some (cur.moved t.path))) := by
  have hopens : t.opens = t.draining ++ [cur] := by rw [Tailer.opens, hcur]; rfl
  have hoff : cur.offset ≤ fs.len cur.id := (hv cur ((mem_opens hcur).mpr (.inr rfl))).offset
  have hfind : findInode fs (siblingPaths fs t.path) cur.id = some t.path := by
    rw [findInode, siblingPaths, List.find?_cons_of_pos (by simpa using hpath)]
  have hnone : (t.draining.filterMap (Open.again fs t.path)).find?
      (fun o => decide (o.id = cur.id)) = none := by
    rw [List.find?_eq_none]
    exact fun o ho => by simpa using again_ne hgone t.path o ho
  have hopen : Open.at fs t.path cur.offset = some (cur.moved t.path) := by
    simp [Open.at, hpath, Open.moved, Nat.min_eq_left hoff]
  simp only [Tailer.resume, adopt_marks hv, hpath, Option.bind_eq_bind, Option.bind_some,
    Tailer.again, Tailer.missing, hopens, List.filterMap_append, List.find?_append, hnone,
    Option.none_or]
  by_cases hleft : cur.offset < fs.len cur.id
  · have hagain : [cur].filterMap (Open.again fs t.path) = [cur.moved t.path] := by
      simp [Open.again, hfind, hleft]
    have hhere : (cur.moved t.path).id = cur.id := rfl
    have herase : ∀ o ∈ t.draining.filterMap (Open.again fs t.path),
        ¬ decide (o.id = cur.id) = true := List.find?_eq_none.mp hnone
    rw [hagain, List.find?_singleton, if_pos (by simp [hhere])]
    simp only
    rw [List.eraseP_append_right _ herase, List.eraseP_cons_of_pos (by simp [hhere]),
      List.append_nil]
  · have hagain : [cur].filterMap (Open.again fs t.path) = [] := by
      simp [Open.again, hfind, hleft]
    -- the mark still says where the file at the path was read to
    have hmark : t.marks.find? (fun m => decide ((⟨m.dev, m.ino⟩ : FileId) = cur.id))
        = some cur.mark := by
      rw [marks_eq, hopens, List.map_append, List.find?_append]
      have hothers : (t.draining.map Open.mark).find?
          (fun m => decide ((⟨m.dev, m.ino⟩ : FileId) = cur.id)) = none := by
        rw [List.find?_eq_none]
        intro m hm
        obtain ⟨o, ho, rfl⟩ := List.mem_map.mp hm
        rw [decide_eq_true_iff]
        exact hgone o ho
      rw [hothers, Option.none_or, List.map_singleton, List.find?_singleton]
      exact if_pos (decide_eq_true rfl)
    rw [hagain, List.find?_nil]
    simp only [hmark, Option.map_some, Option.getD_some, List.append_nil]
    rw [show cur.mark.offset = cur.offset from rfl, hopen]
    rfl

end resume

/-! ## No file at the path -/

namespace World

/-- What holds while the tailer follows no file: as `Inv`, for the files it drains. -/
structure Vacant (w : World) : Prop where
  current : w.tailer.current = none
  nodup : w.created.Nodup
  sub : w.seen.Sublist w.created
  atPath : ∀ id, w.fs.lookup w.tailer.path = some id → w.created.getLast? = some id
  complete : ∀ id ∈ w.created, (w.fs.content id).Complete
  valid : ∀ o ∈ w.tailer.draining, o.Valid w.fs
  known : ∀ o ∈ w.tailer.draining, o.id ∈ w.created
  gone : ∀ o ∈ w.tailer.draining, w.fs.lookup w.tailer.path ≠ some o.id
  unseen : ∀ id, w.fs.lookup w.tailer.path = some id → id ∉ w.seen
  account : w.out ++ pending w.fs w.tailer.draining
    = w.seen.flatMap fun id => (w.fs.content id).lines

variable {w w' : World} {cur : Open}

/-- The files the tailer has had open keep their lines. -/
theorem seen_lines {fs : Fs} (h : ∀ id ∈ w.seen, fs.content id = w.fs.content id) :
    (w.seen.flatMap fun id => (fs.content id).lines)
      = w.seen.flatMap fun id => (w.fs.content id).lines :=
  List.flatMap_congr fun id hid => by rw [h id hid]

theorem Vacant.append (h : w.Vacant) {id : FileId} {t : Text}
    (hp : w.fs.lookup w.tailer.path = some id) (ht : t.Complete) :
    Vacant { w with fs := w.fs.append id t } where
  current := h.current
  nodup := h.nodup
  sub := h.sub
  atPath := h.atPath
  complete := by
    intro j hj
    rw [Fs.content_append]
    split
    · exact (h.complete j hj).append ht
    · rw [List.append_nil]
      exact h.complete j hj
  valid := fun o ho => (h.valid o ho).append ht
  known := h.known
  gone := h.gone
  unseen := h.unseen
  account := by
    have hdrain : pending (w.fs.append id t) w.tailer.draining = pending w.fs w.tailer.draining :=
      pending_append_other fun o ho he => h.gone o ho (by rw [hp, he])
    have hseen : ∀ j ∈ w.seen, (w.fs.append id t).content j = w.fs.content j := by
      intro j hj
      have hne : j ≠ id := fun he => h.unseen id hp (he ▸ hj)
      rw [Fs.content_append, if_neg hne, List.append_nil]
    rw [hdrain, seen_lines hseen]
    exact h.account

theorem Vacant.rename (h : w.Vacant) {id : FileId} {dst : Text}
    (hp : w.fs.lookup w.tailer.path = some id) (hdst : dst ≠ w.tailer.path) :
    Vacant { w with fs := w.fs.rename w.tailer.path dst } where
  current := h.current
  nodup := h.nodup
  sub := h.sub
  atPath := by simp [Fs.lookup_rename hdst hp]
  complete := by simpa using h.complete
  valid := fun o ho =>
    ⟨by simpa using (h.valid o ho).complete, by simpa [Fs.len] using (h.valid o ho).offset⟩
  known := h.known
  gone := by simp [Fs.lookup_rename hdst hp]
  unseen := by simp [Fs.lookup_rename hdst hp]
  account := by simpa [pending, Open.rest, Open.unread] using h.account

theorem Vacant.create (h : w.Vacant) {id : FileId}
    (hp : w.fs.lookup w.tailer.path = none) (hid : id ∉ w.created) :
    Vacant { w with fs := w.fs.create w.tailer.path id, created := w.created ++ [id] } := by
  have hat := Fs.lookup_create hp id
  have hsame : ∀ j ∈ w.created, (w.fs.create w.tailer.path id).content j = w.fs.content j := by
    intro j hj
    have hne : j ≠ id := fun he => hid (he ▸ hj)
    rw [Fs.content_create, if_neg hne]
  have hpend : pending (w.fs.create w.tailer.path id) w.tailer.draining
      = pending w.fs w.tailer.draining :=
    List.flatMap_congr fun o ho => by
      rw [Open.rest, Open.unread, hsame _ (h.known o ho)]
      rfl
  refine ⟨h.current, ?_, h.sub.trans (List.sublist_append_left _ _), ?_, ?_, ?_, ?_, ?_, ?_, ?_⟩
  · rw [← List.concat_eq_append]
    exact (List.nodup_concat _ id).mpr ⟨hid, h.nodup⟩
  · intro j hj
    rw [← Option.some.inj (hat.symm.trans hj), List.getLast?_concat]
  · intro j hj
    rcases List.mem_append.mp hj with hj | hj
    · rw [hsame j hj]
      exact h.complete j hj
    · rw [List.mem_singleton.mp hj, Fs.content_create, if_pos rfl]
      exact .nil
  · intro o ho
    have hv := h.valid o ho
    exact ⟨by rw [hsame _ (h.known o ho)]; exact hv.complete,
      by rw [Fs.len, hsame _ (h.known o ho)]; exact hv.offset⟩
  · exact fun o ho => List.mem_append_left _ (h.known o ho)
  · intro o ho he
    exact hid (Option.some.inj (hat.symm.trans he) ▸ h.known o ho)
  · intro j hj hs
    exact hid (Option.some.inj (hat.symm.trans hj) ▸ h.sub.subset hs)
  · rw [hpend, seen_lines fun j hj => hsame j (h.sub.subset hj)]
    exact h.account

/-- What every moment of a run has: the lines emitted and those pending are the lines
of the files the tailer has had open. -/
def Tracks (w : World) : Prop := (∃ cur, w.Inv cur) ∨ w.Vacant

theorem Tracks.account (h : w.Tracks) : w.out ++ pending w.fs w.tailer.opens
    = w.seen.flatMap fun id => (w.fs.content id).lines := by
  rcases h with ⟨cur, h⟩ | h
  · exact h.account
  · rw [Tailer.opens, h.current, Option.toList_none, List.append_nil]
    exact h.account

theorem Tracks.valid (h : w.Tracks) : ∀ o ∈ w.tailer.opens, o.Valid w.fs := by
  rcases h with ⟨cur, h⟩ | h
  · exact h.valid
  · intro o ho
    rw [Tailer.opens, h.current, Option.toList_none, List.append_nil] at ho
    exact h.valid o ho

/-- The part that does not depend on what the tailer has open. -/
theorem Tracks.created (h : w.Tracks) : w.created.Nodup ∧ w.seen.Sublist w.created
    ∧ (∀ id, w.fs.lookup w.tailer.path = some id → w.created.getLast? = some id)
    ∧ ∀ id ∈ w.created, (w.fs.content id).Complete := by
  rcases h with ⟨cur, h⟩ | h
  · exact ⟨h.nodup, h.sub, h.atPath, h.complete⟩
  · exact ⟨h.nodup, h.sub, h.atPath, h.complete⟩

/-- An open file that is at the path has been seen. -/
theorem Tracks.opens (h : w.Tracks) : ∀ o ∈ w.tailer.opens,
    o.id ∈ w.created ∧ (w.fs.lookup w.tailer.path = some o.id → o.id ∈ w.seen) := by
  intro o ho
  rcases h with ⟨cur, h⟩ | h
  · rcases (mem_opens h.current).mp ho with ho | rfl
    · exact ⟨h.known o ho, fun hat => absurd hat (h.gone o ho)⟩
    · exact ⟨h.cur_created, fun _ => h.cur_seen⟩
  · rw [Tailer.opens, h.current, Option.toList_none, List.append_nil] at ho
    exact ⟨h.known o ho, fun hat => absurd hat (h.gone o ho)⟩

/-- The tailer takes up the file at the path, new to it. -/
theorem Tracks.opened (h : w.Tracks) {t : Tailer} {out : List Text}
    (hat : w.fs.lookup w.tailer.path = some cur.id) (hnew : cur.id ∉ w.seen)
    (hpath : t.path = w.tailer.path) (hcur : t.current = some cur)
    (hvalid : ∀ o ∈ t.opens, o.Valid w.fs)
    (hfrom : ∀ o ∈ t.draining, ∃ o₀ ∈ w.tailer.opens, o.id = o₀.id)
    (haccount : out ++ pending w.fs t.opens
      = (w.seen ++ [cur.id]).flatMap fun id => (w.fs.content id).lines) :
    Inv { w with tailer := t, seen := w.seen ++ [cur.id], out } cur := by
  obtain ⟨hnodup, hsub, hlast, hcomplete⟩ := h.created
  refine ⟨hcur, List.getLast?_concat, hnodup, ?_, ?_, hcomplete, hvalid, ?_, ?_, ?_, haccount⟩
  · obtain ⟨before, hbefore⟩ := List.getLast?_eq_some_iff.mp (hlast _ hat)
    have hsub' := hsub
    rw [hbefore] at hsub'
    show (w.seen ++ [cur.id]).Sublist w.created
    rw [hbefore]
    exact (sublist_of_sublist_concat hsub' hnew).append_right _
  · exact fun id hid => hlast id (hpath ▸ hid)
  · intro o ho
    obtain ⟨o₀, hmem, hid⟩ := hfrom o ho
    exact hid ▸ (h.opens o₀ hmem).1
  · intro o ho hid
    obtain ⟨o₀, hmem, heq⟩ := hfrom o ho
    have hid : w.fs.lookup w.tailer.path = some o₀.id := heq ▸ hpath ▸ hid
    have hsame : o₀.id = cur.id := Option.some.inj (hid.symm.trans hat)
    exact hnew (hsame ▸ (h.opens o₀ hmem).2 hid)
  · intro id hid _
    exact Option.some.inj ((hpath ▸ hid).symm.trans hat)

/-- The tailer follows no file, and none is at the path. -/
theorem Tracks.closed (h : w.Tracks) {t : Tailer} {out : List Text}
    (hat : w.fs.lookup w.tailer.path = none) (hpath : t.path = w.tailer.path)
    (hcur : t.current = none) (hvalid : ∀ o ∈ t.draining, o.Valid w.fs)
    (hfrom : ∀ o ∈ t.draining, ∃ o₀ ∈ w.tailer.opens, o.id = o₀.id)
    (haccount : out ++ pending w.fs t.draining
      = w.seen.flatMap fun id => (w.fs.content id).lines) :
    Vacant { w with tailer := t, out } := by
  obtain ⟨hnodup, hsub, hlast, hcomplete⟩ := h.created
  have hvacant : w.fs.lookup t.path = none := hpath ▸ hat
  refine ⟨hcur, hnodup, hsub, fun id hid => hlast id (hpath ▸ hid), hcomplete, hvalid, ?_, ?_, ?_,
    haccount⟩
  · intro o ho
    obtain ⟨o₀, hmem, hid⟩ := hfrom o ho
    exact hid ▸ (h.opens o₀ hmem).1
  · exact fun o _ hid => nomatch hvacant.symm.trans hid
  · exact fun id hid => nomatch hvacant.symm.trans hid

/-- A call of a tailer that follows no file drains, or looks at the path. It finds
nothing only if there is no file, or the one there is empty. -/
theorem Vacant.next (h : w.Vacant) :
    Tracks (w.called (w.tailer.nextLine w.fs))
      ∧ ((w.tailer.nextLine w.fs).1 = none →
          pending w.fs (w.tailer.nextLine w.fs).2.opens = [])
      ∧ (w.fs.lookup w.tailer.path = none →
          (w.tailer.nextLine w.fs).2.current = none) := by
  have htracks : w.Tracks := .inr h
  have hopens : w.tailer.opens = w.tailer.draining := by
    rw [Tailer.opens, h.current, Option.toList_none, List.append_nil]
  rcases drainPending_cases h.valid with ⟨hnone, he⟩ | ⟨line, os', he, hp, hos⟩
  · -- nothing to drain: look at the path
    have hacc := h.account
    rw [hnone, List.append_nil] at hacc
    cases hat : w.fs.lookup w.tailer.path with
    | none =>
        have hopen : Open.at w.fs w.tailer.path 0 = none := by simp [Open.at, hat]
        simp only [Tailer.nextLine, he, Tailer.checkRotation, h.current, hopen, Tailer.drainPending]
        refine ⟨.inr (htracks.closed hat rfl rfl (by simp) (by simp) ?_),
          by simp [Tailer.opens, pending], by simp⟩
        simpa [pending] using hacc
    | some id =>
        have hopen := Open.at_zero hat
        have hvnew : (Open.fresh w.tailer.path id).Valid w.fs :=
          ⟨(htracks.created).2.2.2 id (List.mem_of_getLast? (h.atPath id hat)), Nat.zero_le _⟩
        have hnew := h.unseen id hat
        have haccnew : w.out ++ (Open.fresh w.tailer.path id).rest w.fs
            = (w.seen ++ [id]).flatMap fun id => (w.fs.content id).lines := by
          rw [List.flatMap_append, List.flatMap_singleton, hacc, Open.rest_fresh]
        simp only [Tailer.nextLine, he, Tailer.checkRotation, h.current, hopen, Tailer.drainPending]
        rcases hvnew.nextLine with ⟨hrest, hn⟩ | ⟨line, cur', hn, hrest, hcid, hcv⟩
        · have hseen : (Open.fresh w.tailer.path id).id ∉ w.seen := hnew
          simp only [hn, called, if_neg hseen]
          refine ⟨.inl ⟨_, htracks.opened hat hnew rfl rfl (valid_opens rfl (by simp) hvnew)
            (by simp) ?_⟩, fun _ => ?_, by simp⟩
          · rw [pending_opens rfl, Option.toList_none, List.append_nil]
            exact haccnew
          · rw [pending_opens rfl, hrest]
            rfl
        · have hseen : cur'.id ∉ w.seen := hcid ▸ hnew
          simp only [hn, called, if_neg hseen]
          have hid : cur'.id = id := hcid
          refine ⟨.inl ⟨_, htracks.opened (hid ▸ hat) hseen rfl rfl
            (valid_opens rfl (by simp) hcv) (by simp) ?_⟩, by simp, by simp⟩
          rw [pending_opens rfl, hid, ← haccnew, hrest, List.append_assoc]
          rfl
  · simp only [Tailer.nextLine, he, called, h.current]
    refine ⟨.inr ⟨rfl, h.nodup, h.sub, h.atPath, h.complete, fun o ho => (hos o ho).1, ?_, ?_,
      h.unseen, ?_⟩, by simp, by simp⟩
    · intro o ho
      obtain ⟨o₀, hm, hid⟩ := (hos o ho).2
      exact hid ▸ h.known o₀ hm
    · intro o ho hat
      obtain ⟨o₀, hm, hid⟩ := (hos o ho).2
      exact h.gone o₀ hm (hid ▸ hat)
    · rw [← h.account, hp, List.append_assoc]
      rfl

/-! ## Runs with restarts -/

/-- A step of the writer or the tailer, or a stop and start of the agent. -/
inductive Act where
  | ev (e : Event)
  | restart
deriving DecidableEq, Repr

/-- The tailer is dropped and built again from its marks. -/
def restart (w : World) : Option World :=
  (Tailer.resume w.fs w.tailer.path w.tailer.marks).map fun t => w.called (none, t)

/-- The writer's steps between the last call and a restart are what happens while
the agent is stopped. -/
def restep (w : World) : Act → Option World
  | .ev e => step w e
  | .restart => restart w

/-- A directory with no file at the path yet, and a tailer for the path. -/
def idle (fs : Fs) (path : Text) : World :=
  { fs
    tailer := { path, draining := [], current := none, filesLost := 0, rotations := 0 }
    created := [], seen := [], out := [] }

/-- The parent directory of the path can be listed, or no open file was renamed. -/
def Found (w : World) : Prop :=
  '/' ∈ w.tailer.path ∨ ∀ o ∈ w.tailer.opens, w.fs.lookup w.tailer.path = some o.id

/-- Files are renamed to free names that extend the path, and are found again. -/
def Kept (w : World) : Act → Prop
  | .ev (.rename dst) => w.fs.lookup dst = none ∧ w.tailer.path.isPrefixOf dst
  | .ev _ => True
  | .restart => w.Found

instance (w : World) : Decidable w.Found := inferInstanceAs (Decidable (_ ∨ _))

instance : DecidableRel Kept
  | _, .ev (.rename _) => inferInstanceAs (Decidable (_ ∧ _))
  | _, .ev (.append _) => isTrue True.intro
  | _, .ev (.create _) => isTrue True.intro
  | _, .ev .next => isTrue True.intro
  | w, .restart => inferInstanceAs (Decidable w.Found)

/-- Stopping here and starting again loses no file, and reading on from there gives
the lines of the files that were open and of the one at the path, each once and in
order, up to the end. -/
def RestartsExactly (w : World) : Prop :=
  ∃ t, Tailer.resume w.fs w.tailer.path w.tailer.marks = some t ∧ t.filesLost = 0
    ∧ ∃ n v, poll n (w.called (none, t)) = some v
      ∧ v.out = (w.called (none, t)).seen.flatMap fun id => (w.fs.content id).lines

/-! ## Every file keeps a name that extends the path -/

def Named (w : World) : Prop :=
  ∀ id ∈ w.created, ∃ p, w.fs.lookup p = some id ∧ w.tailer.path.isPrefixOf p

theorem Named.rename (hn : w.Named) {id : FileId} {dst : Text}
    (hp : w.fs.lookup w.tailer.path = some id) (hfree : w.fs.lookup dst = none)
    (hext : w.tailer.path.isPrefixOf dst) :
    Named { w with fs := w.fs.rename w.tailer.path dst } := by
  obtain ⟨hdst, hothers⟩ := Fs.lookup_rename_free hp hfree
  intro j hj
  by_cases hid : j = id
  · exact ⟨dst, hid ▸ hdst, hext⟩
  · obtain ⟨p, hat, hpre⟩ := hn j hj
    have hpath : p ≠ w.tailer.path := fun he => hid (Option.some.inj ((he ▸ hat).symm.trans hp))
    have hother : p ≠ dst := fun he => nomatch (he ▸ hat).symm.trans hfree
    exact ⟨p, (hothers p hpath hother).trans hat, hpre⟩

theorem Named.create (hn : w.Named) {id : FileId} (hp : w.fs.lookup w.tailer.path = none) :
    Named { w with fs := w.fs.create w.tailer.path id, created := w.created ++ [id] } := by
  intro j hj
  rcases List.mem_append.mp hj with hj | hj
  · obtain ⟨p, hat, hpre⟩ := hn j hj
    exact ⟨p, Fs.lookup_create_taken hat, hpre⟩
  · obtain rfl := List.mem_singleton.mp hj
    exact ⟨w.tailer.path, Fs.lookup_create hp j, List.isPrefixOf_iff_prefix.mpr (List.prefix_refl _)⟩

/-- With a directory to list, a name that extends the path is looked at. -/
theorem findable_of_named {fs : Fs} {path p : Text} {id : FileId} (hdir : '/' ∈ path)
    (hp : fs.lookup p = some id) (hpre : path.isPrefixOf p) : Findable fs path id := by
  have hname : p ∈ fs.names.map (·.1) := by
    obtain ⟨e, he, -⟩ := Option.map_eq_some_iff.mp hp
    have heq : e.1 = p := by simpa using List.find?_some he
    exact List.mem_map.mpr ⟨e, List.mem_of_find?_eq_some he, heq⟩
  rw [Findable, findInode, List.find?_isSome]
  refine ⟨p, ?_, decide_eq_true hp⟩
  rw [siblingPaths, if_pos hdir, List.mem_cons, List.mem_filter]
  by_cases heq : p = path
  · exact .inl heq
  · exact .inr ⟨hname, by simp [heq, hpre]⟩

/-- A bare file name is the only name looked at. -/
theorem findable_bare {fs : Fs} {path : Text} {id : FileId} (hdir : '/' ∉ path) :
    Findable fs path id ↔ fs.lookup path = some id := by
  simp [Findable, findInode, siblingPaths, hdir]

/-- **What is found**: all open files, if the directory can be listed or they are
all at the path. -/
theorem Tracks.findable_iff (h : w.Tracks) (hn : w.Named) :
    (∀ o ∈ w.tailer.opens, Findable w.fs w.tailer.path o.id) ↔ w.Found := by
  by_cases hdir : '/' ∈ w.tailer.path
  · refine iff_of_true (fun o ho => ?_) (.inl hdir)
    obtain ⟨p, hp, hpre⟩ := hn o.id (h.opens o ho).1
    exact findable_of_named hdir hp hpre
  · simp only [findable_bare hdir, Found, hdir, false_or]

/-! ## One restart -/

/-- The tailer has had the file at the path open. -/
def Settled (w : World) : Prop := ∀ id, w.fs.lookup w.tailer.path = some id → id ∈ w.seen

/-- What `resume` drains was open. -/
theorem Tracks.again (h : w.Tracks) {os : List Open} (hos : os ⊆ w.tailer.opens) :
    ∀ o ∈ os.filterMap (Open.again w.fs w.tailer.path),
      o.Valid w.fs ∧ ∃ o₀ ∈ os, o.id = o₀.id := by
  intro o ho
  obtain ⟨o₀, hmem, hid, hoff⟩ := mem_again ho
  have hv := h.valid o₀ (hos hmem)
  exact ⟨⟨hid ▸ hv.complete, hid ▸ hoff ▸ hv.offset⟩, o₀, hmem, hid⟩

/-- The file the tailer follows is still at the path. -/
theorem Inv.restart (h : w.Inv cur) (hat : w.fs.lookup w.tailer.path = some cur.id)
    (hfind : ∀ o ∈ w.tailer.opens, Findable w.fs w.tailer.path o.id) :
    Inv (w.called (none, w.tailer.again w.fs w.tailer.draining
      (some (cur.moved w.tailer.path)))) (cur.moved w.tailer.path) := by
  have hopens : w.tailer.draining ⊆ w.tailer.opens := List.subset_append_left _ _
  have hagain := Tracks.again (.inl ⟨cur, h⟩) hopens
  have hseen : (w.called (none, w.tailer.again w.fs w.tailer.draining
      (some (cur.moved w.tailer.path)))).seen = w.seen := if_pos h.cur_seen
  have hcur := h.valid cur ((mem_opens h.current).mpr (.inr rfl))
  refine ⟨rfl, hseen ▸ h.last, h.nodup, hseen ▸ h.sub, h.atPath, h.complete, ?_, ?_, ?_, ?_, ?_⟩
  · exact valid_opens rfl (fun o ho => (hagain o ho).1) ⟨hcur.complete, hcur.offset⟩
  · intro o ho
    obtain ⟨o₀, hmem, hid⟩ := (hagain o ho).2
    exact hid ▸ h.known o₀ hmem
  · intro o ho
    obtain ⟨o₀, hmem, hid⟩ := (hagain o ho).2
    exact hid ▸ h.gone o₀ hmem
  · exact fun id hid _ => Option.some.inj (hid.symm.trans hat)
  · have hacc := h.account
    have hfound : ∀ o ∈ w.tailer.draining, Findable w.fs w.tailer.path o.id :=
      fun o ho => hfind o (hopens ho)
    rw [pending_opens h.current, ← pending_again hfound] at hacc
    rw [hseen]
    simp only [called, Option.toList_none, List.append_nil]
    rw [pending_opens rfl, Open.rest_moved]
    exact hacc

/-- **One restart**: it counts the files it does not find, and if it finds them all
it has the same lines left, and follows the file at the path. -/
theorem Tracks.restart (h : w.Tracks) :
    ∃ t, Tailer.resume w.fs w.tailer.path w.tailer.marks = some t
      ∧ t.path = w.tailer.path ∧ t.filesLost = w.tailer.missing w.fs
      ∧ ((∀ o ∈ w.tailer.opens, Findable w.fs w.tailer.path o.id) →
          Tracks (w.called (none, t)) ∧ Settled (w.called (none, t))) := by
  have hagain := h.again (List.Subset.refl _)
  cases hat : w.fs.lookup w.tailer.path with
  | none =>
      refine ⟨_, resume_vacant h.valid hat, rfl, rfl, fun hfind => ⟨.inr ?_, ?_⟩⟩
      · have hacc : w.out ++ [] ++ pending w.fs
            (w.tailer.opens.filterMap (Open.again w.fs w.tailer.path))
            = w.seen.flatMap fun id => (w.fs.content id).lines := by
          rw [List.append_nil, pending_again hfind]
          exact h.account
        exact h.closed hat rfl rfl (fun o ho => (hagain o ho).1) (fun o ho => (hagain o ho).2) hacc
      · exact fun id hid => nomatch hat.symm.trans hid
  | some id =>
      by_cases hseen : id ∈ w.seen
      · rcases h with ⟨cur, hinv⟩ | hvacant
        · obtain rfl := hinv.followed id hat hseen
          refine ⟨_, resume_known hinv.valid hinv.current hat ?_, rfl, rfl, fun hfind => ?_⟩
          · exact fun o ho he => hinv.gone o ho (he ▸ hat)
          · have hinv' := hinv.restart hat hfind
            refine ⟨.inl ⟨_, hinv'⟩, fun id hid => ?_⟩
            obtain rfl := Option.some.inj (hat.symm.trans hid)
            exact hinv'.cur_seen
        · exact absurd hseen (hvacant.unseen id hat)
      · have hnew : ∀ o ∈ w.tailer.opens, o.id ≠ id := by
          intro o ho he
          exact hseen (he ▸ (h.opens o ho).2 (he ▸ hat))
        refine ⟨_, resume_new h.valid hat hnew, rfl, rfl, fun hfind => ?_⟩
        have hnew' : (Open.fresh w.tailer.path id).id ∉ w.seen := hseen
        have hvnew : (Open.fresh w.tailer.path id).Valid w.fs :=
          ⟨h.created.2.2.2 id (List.mem_of_getLast? (h.created.2.2.1 id hat)), Nat.zero_le _⟩
        have hacc : w.out ++ pending w.fs
              (w.tailer.again w.fs w.tailer.opens (some (.fresh w.tailer.path id))).opens
            = (w.seen ++ [(Open.fresh w.tailer.path id).id]).flatMap
                fun id => (w.fs.content id).lines := by
          rw [pending_opens rfl, Open.rest_fresh, List.flatMap_append, List.flatMap_singleton,
            ← h.account, List.append_assoc]
          exact congrArg (fun ls => w.out ++ (ls ++ _)) (pending_again hfind)
        have hinv := h.opened
          (t := w.tailer.again w.fs w.tailer.opens (some (.fresh w.tailer.path id)))
          hat hnew' rfl rfl (valid_opens rfl (fun o ho => (hagain o ho).1) hvnew)
          (fun o ho => (hagain o ho).2) hacc
        have heq : w.called (none, w.tailer.again w.fs w.tailer.opens
            (some (.fresh w.tailer.path id))) = { w with
              tailer := w.tailer.again w.fs w.tailer.opens (some (.fresh w.tailer.path id))
              seen := w.seen ++ [(Open.fresh w.tailer.path id).id] } := by
          simp [called, Tailer.again, hnew']
        rw [heq]
        refine ⟨.inl ⟨_, hinv⟩, fun id' hid => ?_⟩
        obtain rfl := Option.some.inj (hat.symm.trans hid)
        exact hinv.cur_seen

/-! ## Reading on after a restart -/

/-- A call of a tailer that has had the file at the path open opens no file. -/
theorem Tracks.next (h : w.Tracks) (hset : w.Settled) :
    Tracks (w.called (w.tailer.nextLine w.fs)) ∧ Settled (w.called (w.tailer.nextLine w.fs))
      ∧ (w.called (w.tailer.nextLine w.fs)).seen = w.seen
      ∧ ((w.tailer.nextLine w.fs).1 = none →
          pending w.fs (w.tailer.nextLine w.fs).2.opens = []) := by
  rcases h with ⟨cur, hinv⟩ | hvacant
  · obtain ⟨cur', hc, hinv'⟩ := hinv.next
    have hcur : cur'.id ∈ w.seen := by
      rcases hc.follows with he | hat
      · exact he ▸ hinv.cur_seen
      · exact hset _ hat
    have hseen : (w.called (w.tailer.nextLine w.fs)).seen = w.seen := by
      simp only [called, hc.current, if_pos hcur]
    refine ⟨.inl ⟨cur', hinv'⟩, fun id hid => ?_, hseen, fun hnone => (hc.idle hnone).1⟩
    exact hseen ▸ hset id (hc.path ▸ hid)
  · have hat : w.fs.lookup w.tailer.path = none := by
      rw [Option.eq_none_iff_forall_ne_some]
      exact fun id hid => hvacant.unseen id hid (hset id hid)
    obtain ⟨htracks, hdry, hcur⟩ := hvacant.next
    have hseen : (w.called (w.tailer.nextLine w.fs)).seen = w.seen := by
      simp only [called, hcur hat]
    refine ⟨htracks, fun id hid => ?_, hseen, hdry⟩
    exact hseen ▸ hset id (nextLine_path ▸ hid)

/-- What is emitted is part of what the files the tailer has had open hold. -/
theorem Tracks.out_le (h : w.Tracks) :
    w.out.length ≤ (w.seen.flatMap fun id => (w.fs.content id).lines).length := by
  rw [← h.account, List.length_append]
  exact Nat.le_add_right _ _

/-- Reading on gives all lines of the files the tailer has had open, no more. -/
theorem Tracks.poll {n : Nat} (h : w.Tracks) (hset : w.Settled) (hp : World.poll n w = some w') :
    w'.out = w.seen.flatMap fun id => (w.fs.content id).lines := by
  induction n generalizing w with
  | zero => cases hp
  | succ n ih =>
      obtain ⟨htracks, hset', hseen, hdry⟩ := h.next hset
      rw [World.poll] at hp
      split at hp
      · rename_i t he
        cases hp
        have hacc := htracks.account
        rw [hseen] at hacc
        rw [he] at hacc hdry
        have hnil : pending (w.called (none, t)).fs (w.called (none, t)).tailer.opens = [] :=
          hdry rfl
        rw [hnil, List.append_nil] at hacc
        exact hacc
      · rename_i line t he
        rw [he] at htracks hset' hseen
        rw [← hseen]
        exact ih htracks hset' hp

/-- Reading on comes to an end. -/
theorem Tracks.poll_ends (h : w.Tracks) (hset : w.Settled) {n : Nat}
    (hn : (w.seen.flatMap fun id => (w.fs.content id).lines).length < w.out.length + n) :
    (World.poll n w).isSome := by
  induction n generalizing w with
  | zero =>
      have := h.out_le
      omega
  | succ n ih =>
      obtain ⟨htracks, hset', hseen, -⟩ := h.next hset
      rw [World.poll]
      split
      · rfl
      · rename_i line t he
        rw [he] at htracks hset' hseen
        refine ih htracks hset' ?_
        have hfs : (w.called (some line, t)).fs = w.fs := rfl
        have hout : (w.called (some line, t)).out = w.out ++ [line] := rfl
        rw [hseen, hfs, hout, List.length_append, List.length_singleton]
        omega

/-! ## Every run -/

theorem Tracks.exactly_iff (h : w.Tracks) (hn : w.Named) : w.RestartsExactly ↔ w.Found := by
  obtain ⟨t, ht, hpath, hlost, hfound⟩ := h.restart
  rw [← h.findable_iff hn]
  constructor
  · rintro ⟨t', ht', hzero, -⟩ o ho
    obtain rfl := Option.some.inj (ht.symm.trans ht')
    rw [hlost, Tailer.missing, List.countP_eq_zero] at hzero
    by_contra hmiss
    exact hzero o ho (decide_eq_true hmiss)
  · intro hfind
    obtain ⟨htracks, hset⟩ := hfound hfind
    have hzero : t.filesLost = 0 := by
      rw [hlost, Tailer.missing, List.countP_eq_zero]
      intro o ho
      simpa using hfind o ho
    obtain ⟨v, hv⟩ := Option.isSome_iff_exists.mp
      (htracks.poll_ends hset (Nat.lt_of_lt_of_le (Nat.lt_succ_self _) (Nat.le_add_left _ _)))
    exact ⟨t, ht, hzero, _, v, hv, htracks.poll hset hv⟩

/-- A step of the writer or the tailer. -/
theorem Tracks.step {e : Event} (h : w.Tracks) (hs : World.step w e = some w') : w'.Tracks := by
  rcases h with ⟨cur, h⟩ | h
  · exact .inl (h.step hs).1
  · cases e with
    | append t =>
        obtain ⟨id, hp, hs⟩ := Option.bind_eq_some_iff.mp hs
        split at hs
        · rename_i ht
          cases hs
          exact .inr (h.append hp ht)
        · cases hs
    | rename dst =>
        obtain ⟨id, hp, hs⟩ := Option.bind_eq_some_iff.mp hs
        split at hs
        · rename_i hdst
          cases hs
          exact .inr (h.rename hp hdst)
        · cases hs
    | create id =>
        rw [World.step] at hs
        split at hs
        · rename_i hok
          cases hs
          exact .inr (h.create hok.1 hok.2)
        · cases hs
    | next =>
        cases hs
        exact h.next.1

theorem Named.step {e : Event} (hn : w.Named) (hok : w.Kept (.ev e))
    (hs : World.step w e = some w') : w'.Named := by
  cases e with
  | append t =>
      obtain ⟨id, -, hs⟩ := Option.bind_eq_some_iff.mp hs
      split at hs
      · cases hs
        exact hn
      · cases hs
  | rename dst =>
      obtain ⟨id, hp, hs⟩ := Option.bind_eq_some_iff.mp hs
      split at hs
      · cases hs
        exact hn.rename hp hok.1 hok.2
      · cases hs
  | create id =>
      rw [World.step] at hs
      split at hs
      · rename_i hfree
        cases hs
        exact hn.create hfree.1
      · cases hs
  | next =>
      cases hs
      intro id hid
      obtain ⟨p, hat, hpre⟩ := hn id hid
      have hpath : (w.called (w.tailer.nextLine w.fs)).tailer.path = w.tailer.path := nextLine_path
      exact ⟨p, hat, hpath ▸ hpre⟩

/-- **One step**: what is emitted and pending stays the lines of the files that were
open, and every file keeps a name that extends the path. -/
theorem Tracks.restep {a : Act} (h : w.Tracks) (hn : w.Named) (hok : w.Kept a)
    (hs : World.restep w a = some w') : w'.Tracks ∧ w'.Named := by
  cases a with
  | ev e => exact ⟨h.step hs, hn.step hok hs⟩
  | restart =>
      obtain ⟨t, ht, hpath, -, hfound⟩ := h.restart
      rw [World.restep, World.restart, ht] at hs
      obtain rfl := Option.some.inj hs
      refine ⟨(hfound ((h.findable_iff hn).mpr hok)).1, fun id hid => ?_⟩
      obtain ⟨p, hat, hpre⟩ := hn id hid
      exact ⟨p, hat, hpath ▸ hpre⟩

theorem tracks_idle {fs : Fs} {path : Text} (h : fs.lookup path = none) :
    (idle fs path).Tracks ∧ (idle fs path).Named := by
  refine ⟨.inr ⟨rfl, List.nodup_nil, List.Sublist.refl _, ?_, by simp [idle], by simp [idle],
    by simp [idle], by simp [idle], by simp [idle], rfl⟩, by simp [Named, idle]⟩
  exact fun id hid => nomatch h.symm.trans hid

/-- **Stopping and resuming.** In any run of writer, tailer and restarts in which
files are renamed to free names that extend the path, a restart is exact if and
only if the directory of the path can be listed or no open file has been renamed. -/
theorem restarts_exactly_iff (fs : Fs) (path : Text) (as : List Act) (w : World)
    (h₀ : fs.lookup path = none) (hr : run restep (idle fs path) as = some w)
    (hok : Meets restep Kept (idle fs path) as) : w.RestartsExactly ↔ w.Found := by
  have hstep : ∀ s a t, s.Tracks ∧ s.Named → s.Kept a → restep s a = some t →
      t.Tracks ∧ t.Named := fun _ _ _ ⟨h, hn⟩ hok hs => h.restep hn hok hs
  obtain ⟨h, hn⟩ := run_invariant hstep (tracks_idle h₀) hok hr
  exact h.exactly_iff hn

/-! ## A path without a directory -/

/-- One line is read of two, and while the agent is stopped the file is renamed and
a new one created. -/
def rotatedWhileStopped (dst : Text) : List Act :=
  [.ev (.create ⟨0, 1⟩), .ev (.append ['a', '\n', 'b', '\n']), .ev .next, .ev (.rename dst),
    .ev (.create ⟨0, 2⟩), .ev (.append ['c', '\n'])]

theorem restarts_exactly_iff_rotatedWhileStopped :
    ∃ w, run restep (idle ⟨[], Table.empty⟩ ['/', 'p']) (rotatedWhileStopped ['/', 'p', '1']) = some w
      ∧ (w.RestartsExactly ↔ w.Found) ∧ w.Found :=
  ⟨_, rfl, restarts_exactly_iff ⟨[], Table.empty⟩ ['/', 'p'] (rotatedWhileStopped ['/', 'p', '1']) _
    rfl rfl (by decide +kernel), .inl (by decide)⟩

/-- The second line of the renamed file is not found again. -/
theorem a_bare_name_is_lost :
    ∃ w, run restep (idle ⟨[], Table.empty⟩ ['p']) (rotatedWhileStopped ['p', '1']) = some w
      ∧ Meets restep Kept (idle ⟨[], Table.empty⟩ ['p']) (rotatedWhileStopped ['p', '1'])
      ∧ ¬ w.RestartsExactly
      ∧ ((Tailer.resume w.fs w.tailer.path w.tailer.marks).bind fun t =>
          (poll 3 (w.called (none, t))).map fun v => (t.filesLost, v.out, v.written))
        = some (1, [['a'], ['c']], [['a'], ['b'], ['c']]) := by
  refine ⟨_, rfl, by decide +kernel, ?_, by decide +kernel⟩
  rintro ⟨t, ht, hzero, -⟩
  cases ht
  cases hzero

end World

end Tributary.Tail
