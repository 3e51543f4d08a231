import Tributary.Tail.Partial
import Tributary.Tail.Resume

/-!
# A file truncated while the agent was stopped

Copy-and-truncate leaves the inode at the path and cuts the file below the recorded
offset. A tailer that runs notices and starts over; one that resumes opens the file
at its end.
-/

namespace Tributary.Tail

open Lib Text

/-- Call `next_line` until it gives nothing: the lines it gave. -/
def drain (fs : Fs) : Nat → Tailer → Option (List Text)
  | 0, _ => none
  | n + 1, t =>
      match t.nextLine fs with
      | (none, _) => some []
      | (some line, t) => (drain fs n t).map (line :: ·)

/-- The lines files have left. -/
def lefts (fs : Fs) (os : List Open) : List Text := os.flatMap (Open.left fs)

/-- The open file a call goes on with: from the start, if it was cut. -/
def Open.settle (fs : Fs) (o : Open) : Open :=
  if fs.len o.id < o.offset then Open.fresh o.path o.id else o

section

variable {fs : Fs} {t : Tailer} {cur : Open}

theorem lefts_nil {os : List Open} (h : ∀ o ∈ os, o.left fs = []) : lefts fs os = [] :=
  List.flatMap_eq_nil_iff.mpr h

theorem lefts_append (os os' : List Open) : lefts fs (os ++ os') = lefts fs os ++ lefts fs os' :=
  List.flatMap_append ..

/-- One call while the file at the path is the one that is open. -/
theorem nextLine_settle (hcur : t.current = some cur) (hat : fs.lookup t.path = some cur.id)
    (hpath : cur.path = t.path) :
    (∃ line draining, t.nextLine fs = (some line, { t with draining })
        ∧ lefts fs t.draining = line :: lefts fs draining)
      ∨ lefts fs t.draining = [] ∧
        (((cur.settle fs).left fs = [] ∧ (t.nextLine fs).1 = none)
          ∨ ∃ line cur' rotations, t.nextLine fs
              = (some line, { t with draining := [], current := some cur', rotations })
            ∧ (cur.settle fs).Read fs line cur') := by
  rcases drainPending_left fs t.draining with ⟨hall, hd⟩ | ⟨dropped, o, rest, line, o', heq, hdropped,
    hread, hd⟩
  · right
    have hrotation : ∃ rotations, Tailer.checkRotation fs { t with draining := [] }
        = { t with draining := [], current := some (cur.settle fs), rotations } := by
      unfold Tailer.checkRotation Open.settle
      simp only [hcur]
      split
      · exact ⟨t.rotations + 1, by rw [Open.at_zero hat, hpath]⟩
      · exact ⟨t.rotations, by simp [hat, ← hcur]⟩
    obtain ⟨rotations, hrotation⟩ := hrotation
    refine ⟨lefts_nil hall, ?_⟩
    rcases (cur.settle fs).nextLine_left fs with ⟨hleft, hnext⟩ | ⟨line, cur', hnext, hread⟩
    · exact .inl ⟨hleft, by simp [Tailer.nextLine, hd, hrotation, Tailer.drainPending, hnext]⟩
    · refine .inr ⟨line, cur', rotations, ?_, hread⟩
      simp [Tailer.nextLine, hd, hrotation, Tailer.drainPending, hnext]
  · left
    refine ⟨line, o' :: rest, by rw [Tailer.nextLine, hd], ?_⟩
    rw [heq, lefts_append, lefts_nil hdropped, List.nil_append]
    exact congrArg (· ++ lefts fs rest) hread.left

theorem settle_of_le (h : cur.offset ≤ fs.len cur.id) : cur.settle fs = cur :=
  if_neg (Nat.not_lt.mpr h)

theorem settle_id (fs : Fs) (o : Open) : (o.settle fs).id = o.id ∧ (o.settle fs).path = o.path := by
  unfold Open.settle
  split <;> exact ⟨rfl, rfl⟩

variable (fs) in
/-- Until it gives nothing, a tailer gives what the rotated files have left and what
the settled file has left. -/
theorem drain_eq (hcur : t.current = some cur) (hat : fs.lookup t.path = some cur.id)
    (hpath : cur.path = t.path) :
    ∃ n, drain fs n t = some (lefts fs t.draining ++ (cur.settle fs).left fs) := by
  induction hlen : (lefts fs t.draining ++ (cur.settle fs).left fs).length generalizing t cur with
  | zero =>
      have hnil := List.append_eq_nil_iff.mp (List.eq_nil_of_length_eq_zero hlen)
      refine ⟨1, ?_⟩
      rcases nextLine_settle hcur hat hpath with ⟨line, draining, -, hleft⟩ | ⟨-, hdry⟩
      · rw [hnil.1] at hleft
        cases hleft
      · rcases hdry with ⟨-, hnone⟩ | ⟨line, cur', rotations, -, hread⟩
        · rw [hnil.1, hnil.2, drain]
          split
          · rfl
          · rename_i heq
            rw [heq] at hnone
            cases hnone
        · rw [hread.left] at hnil
          cases hnil.2
  | succ k ih =>
      rcases nextLine_settle hcur hat hpath with ⟨line, draining, hnext, hleft⟩ | ⟨hnil, hdry⟩
      · rw [hleft] at hlen ⊢
        obtain ⟨n, hn⟩ := ih (t := { t with draining }) hcur hat hpath (by simpa using hlen)
        exact ⟨n + 1, by rw [drain, hnext]; exact congrArg (Option.map _) hn⟩
      · rw [hnil, List.nil_append] at hlen ⊢
        rcases hdry with ⟨hleft, -⟩ | ⟨line, cur', rotations, hnext, hread⟩
        · rw [hleft] at hlen
          cases hlen
        · have hcur' : cur'.offset ≤ fs.len cur'.id := by
            rw [hread.id]
            exact hread.length
          rw [hread.left] at hlen ⊢
          obtain ⟨n, hn⟩ := ih
            (t := { t with draining := [], current := some cur', rotations }) rfl
            (by rw [hread.id, (settle_id fs cur).1]; exact hat)
            (by rw [hread.path, (settle_id fs cur).2]; exact hpath)
            (by rw [settle_of_le hcur']; simpa [lefts] using hlen)
          rw [settle_of_le hcur'] at hn
          exact ⟨n + 1, by rw [drain, hnext]; exact congrArg (Option.map _) hn⟩

theorem drain_unique {n m : Nat} {out out' : List Text} (h : drain fs n t = some out)
    (h' : drain fs m t = some out') : out = out' := by
  induction n generalizing m t out out' with
  | zero => cases h
  | succ n ih =>
      cases m with
      | zero => cases h'
      | succ m =>
          rw [drain] at h h'
          split at h
          · rename_i heq
            rw [heq] at h'
            exact Option.some.inj (h.symm.trans h')
          · rename_i heq
            rw [heq] at h'
            obtain ⟨rest, hrest, rfl⟩ := Option.map_eq_some_iff.mp h
            obtain ⟨rest', hrest', rfl⟩ := Option.map_eq_some_iff.mp h'
            rw [ih hrest hrest']

end

/-! ## Resuming -/

section resume

variable {fs : Fs} {path : Text} {marks : List FileMark} {id : FileId} {t : Tailer}

/-- The file a mark is of. -/
def fileOf (m : FileMark) : FileId := ⟨m.dev, m.ino⟩

/-- A mark past the end of the file at the path is not drained, whatever is drained of
the others. -/
theorem adopt_truncated {m : FileMark} (hat : fs.lookup path = some id)
    (hcut : fileOf m = id → fs.len id < m.offset) (hpath : t.path = path)
    (hd : ∀ o ∈ t.draining, o.id ≠ id) (hcur : t.current = none) :
    ∃ t', Tailer.adopt fs (siblingPaths fs path) t m = some t' ∧ t'.path = path
      ∧ (∀ o ∈ t'.draining, o.id ≠ id) ∧ t'.current = none := by
  rw [Tailer.adopt]
  rcases Option.eq_none_or_eq_some (findInode fs (siblingPaths fs path) (fileOf m)) with
    hfind | ⟨p, hfind⟩
  · simp only [fileOf] at hfind
    exact ⟨{ t with filesLost := t.filesLost + 1 }, by rw [hfind], hpath, hd, hcur⟩
  · obtain ⟨hp, hname⟩ := findInode_cases hfind
    simp only [fileOf] at hfind hp
    rw [hfind]
    have hopen : Open.at fs p m.offset
        = some { id := fileOf m, path := p, offset := min m.offset (fs.len (fileOf m)) } := by
      simp [Open.at, hp, fileOf]
    simp only [hopen, Option.bind_eq_bind, Option.bind_some]
    by_cases hid : fileOf m = id
    · -- it is found at the path, and `seek` stops at its end
      have hpp : p = path := hname.mpr (by rw [hid]; exact hat)
      have hend := Nat.min_eq_right (Nat.le_of_lt (hcut hid))
      refine ⟨t, ?_, hpath, hd, hcur⟩
      rw [if_neg]
      simp [hid, hend, hpp, hpath]
    · split
      · refine ⟨_, rfl, hpath, fun o ho => ?_, hcur⟩
        rcases List.mem_append.mp ho with ho | ho
        · exact hd o ho
        · rw [List.mem_singleton.mp ho]
          exact hid
      · exact ⟨t, rfl, hpath, hd, hcur⟩

theorem foldlM_adopt_truncated (hat : fs.lookup path = some id)
    (hcut : ∀ m ∈ marks, fileOf m = id → fs.len id < m.offset) (hpath : t.path = path)
    (hd : ∀ o ∈ t.draining, o.id ≠ id) (hcur : t.current = none) :
    ∃ t', marks.foldlM (Tailer.adopt fs (siblingPaths fs path)) t = some t' ∧ t'.path = path
      ∧ (∀ o ∈ t'.draining, o.id ≠ id) ∧ t'.current = none := by
  induction marks generalizing t with
  | nil => exact ⟨t, rfl, hpath, hd, hcur⟩
  | cons m marks ih =>
      obtain ⟨t₁, h₁, hpath₁, hd₁, hcur₁⟩ :=
        adopt_truncated hat (hcut m (List.mem_cons_self ..)) hpath hd hcur
      rw [List.foldlM_cons, h₁]
      exact ih (fun m hm => hcut m (List.mem_cons_of_mem _ hm)) hpath₁ hd₁ hcur₁

/-- **Resuming over a truncated file** opens it at its end. -/
theorem resume_truncated (hat : fs.lookup path = some id)
    (hmark : ∃ m ∈ marks, fileOf m = id)
    (hcut : ∀ m ∈ marks, fileOf m = id → fs.len id < m.offset) :
    ∃ t, Tailer.resume fs path marks = some t ∧ t.path = path
      ∧ t.current = some { id, path, offset := fs.len id } ∧ ∀ o ∈ t.draining, o.id ≠ id := by
  obtain ⟨t, hfold, hpath, hd, -⟩ := foldlM_adopt_truncated
    (t := { path, draining := [], current := none, filesLost := 0, rotations := 0 }) hat hcut rfl
    (fun _ ho => (nomatch ho)) rfl
  have hknown : t.draining.find? (fun o => decide (o.id = id)) = none :=
    List.find?_eq_none.mpr fun o ho => by simpa using hd o ho
  obtain ⟨m, hm⟩ :
      ∃ m, marks.find? (fun m => decide ((⟨m.dev, m.ino⟩ : FileId) = id)) = some m := by
    rw [← Option.isSome_iff_exists, List.find?_isSome]
    obtain ⟨m, hm, hid⟩ := hmark
    exact ⟨m, hm, decide_eq_true hid⟩
  have hfound := List.find?_some hm
  have hlt := hcut m (List.mem_of_find?_eq_some hm) (of_decide_eq_true hfound)
  refine ⟨{ t with current := some { id, path, offset := fs.len id } }, ?_, hpath, rfl, hd⟩
  rw [Tailer.resume, hfold]
  simp only [Option.bind_eq_bind, Option.bind_some, hat, hknown, hm]
  simp [Open.at, hat, Nat.min_eq_right (Nat.le_of_lt hlt)]

end resume

/-! ## What is emitted after a truncation -/

section truncated

variable {fs : Fs} {path : Text} {marks : List FileMark} {id : FileId}

theorem lefts_append_other {os : List Open} (h : ∀ o ∈ os, o.id ≠ id) (x : Text) :
    lefts (fs.append id x) os = lefts fs os := by
  refine List.flatMap_congr fun o ho => ?_
  rw [Open.left, Open.unread, Fs.content_append, if_neg (h o ho), List.append_nil]
  rfl

/-- With text appended, a tailer at the old end of the file has the lines of the
appended text left. -/
theorem left_append_end (x : Text) :
    Open.left (fs.append id x) { id, path, offset := fs.len id } = wholeLines x := by
  rw [Open.left, Open.unread, Fs.content_append, if_pos rfl, Fs.len, List.drop_left]

theorem len_le_append (x : Text) : fs.len id ≤ (fs.append id x).len id := by
  rw [Fs.len, Fs.len, Fs.content_append, List.length_append]
  exact Nat.le_add_right _ _

/-- Only behind nothing is a line that is appended the line it would be alone. -/
theorem eq_nil_of_wholeLines_append {s : Text}
    (h : wholeLines (s ++ ['a', '\n']) = [['a']]) : s = [] := by
  rw [wholeLines_of_mem (by simp)] at h
  by_cases hmem : '\n' ∈ s
  · rw [readUntil_append_of_mem hmem, List.drop_append_of_le_length (length_readUntil_le s)] at h
    exact absurd (by simp) (wholeLines_eq_nil_iff.mp (List.cons.inj h).2)
  · have hline : readUntil (s ++ ['a', '\n']) = (s ++ ['a']) ++ ['\n'] := by
      rw [readUntil_append_of_notMem hmem, List.append_assoc]
      rfl
    rw [hline, stripEol_concat (by simp)] at h
    exact List.append_left_eq_self.mp (List.cons.inj h).1

/-- **A file cut below its mark while the agent was stopped**: the resumed tailer emits
the lines of the file from its first byte, whatever is appended, exactly if the file
is empty when it resumes; a tailer that kept running emits them. -/
theorem resume_restarts_iff (hat : fs.lookup path = some id)
    (hmark : ∃ m ∈ marks, fileOf m = id)
    (hcut : ∀ m ∈ marks, fileOf m = id → fs.len id < m.offset) :
    ∃ t, Tailer.resume fs path marks = some t
      ∧ ((∀ x, ∃ n, drain (fs.append id x) n t
            = some (lefts fs t.draining ++ wholeLines (fs.content id ++ x)))
          ↔ fs.content id = [])
      ∧ ∀ m ∈ marks, fileOf m = id →
          ∃ n, drain fs n { t with current := some { id, path, offset := m.offset } }
            = some (lefts fs t.draining ++ wholeLines (fs.content id)) := by
  obtain ⟨t, hresume, hpath, hcur, hother⟩ := resume_truncated hat hmark hcut
  refine ⟨t, hresume, ?_, fun m hm hid => ?_⟩
  · -- what it emits are the lines of what is appended
    have hdrain : ∀ x, ∃ n, drain (fs.append id x) n t
        = some (lefts fs t.draining ++ wholeLines x) := by
      intro x
      obtain ⟨n, hn⟩ := drain_eq (fs.append id x) hcur (by rw [hpath]; exact hat)
        hpath.symm
      rw [settle_of_le (len_le_append x), left_append_end, lefts_append_other hother] at hn
      exact ⟨n, hn⟩
    constructor
    · intro h
      -- one more line tells whether anything of the file was skipped
      obtain ⟨n, hn⟩ := hdrain ['a', '\n']
      obtain ⟨m, hm⟩ := h ['a', '\n']
      have hlines := List.append_cancel_left (drain_unique hm hn)
      exact eq_nil_of_wholeLines_append (hlines.trans (by decide))
    · intro hempty x
      obtain ⟨n, hn⟩ := hdrain x
      exact ⟨n, by rw [hn, hempty, List.nil_append]⟩
  · have hsettle : Open.settle fs { id, path, offset := m.offset } = Open.fresh path id :=
      if_pos (hcut m hm hid)
    obtain ⟨n, hn⟩ := drain_eq fs
      (t := { t with current := some { id, path, offset := m.offset } }) rfl
      (by rw [hpath]; exact hat) hpath.symm
    rw [hsettle] at hn
    exact ⟨n, hn⟩

end truncated

/-- A file of one line, of which five bytes were read before it was cut. -/
def regrown : Fs where
  names := [("/a".toList, ⟨0, 1⟩)]
  inodes := Table.empty.set ⟨0, 1⟩ "x\n".toList

theorem resume_restarts_iff_regrown :
    ∃ t, Tailer.resume regrown "/a".toList [⟨0, 1, 5⟩] = some t
      ∧ ((∀ x, ∃ n, drain (regrown.append ⟨0, 1⟩ x) n t
            = some (lefts regrown t.draining ++ wholeLines (regrown.content ⟨0, 1⟩ ++ x)))
          ↔ regrown.content ⟨0, 1⟩ = [])
      ∧ ∀ m ∈ [(⟨0, 1, 5⟩ : FileMark)], fileOf m = ⟨0, 1⟩ →
          ∃ n, drain regrown n
              { t with current := some ⟨⟨0, 1⟩, "/a".toList, m.offset⟩ }
            = some (lefts regrown t.draining ++ wholeLines (regrown.content ⟨0, 1⟩)) :=
  resume_restarts_iff (by decide) ⟨_, List.mem_singleton_self _, rfl⟩ (by decide)

/-- The line is skipped by a tailer that resumes, and emitted by one that kept running. -/
theorem regrown_line_skipped :
    ∃ t, Tailer.resume regrown "/a".toList [⟨0, 1, 5⟩] = some t ∧ drain regrown 1 t = some []
      ∧ drain regrown 2
          { t with current := some ⟨⟨0, 1⟩, "/a".toList, 5⟩ }
        = some ["x".toList]
      ∧ wholeLines (regrown.content ⟨0, 1⟩) = ["x".toList] :=
  ⟨⟨"/a".toList, [], some ⟨⟨0, 1⟩, "/a".toList, 2⟩, 0, 0⟩,
    by decide, by decide, by decide, by decide⟩

end Tributary.Tail
