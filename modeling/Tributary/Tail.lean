import Tributary.Checkpoint
import Tributary.Lib.Table
import Tributary.Text

/-!
# Following a log file

The tailer reads one path through rotation. Files are known by their inode; the
ones rotated away are drained before the file at the path is followed. The file
system is a directory of names over inodes; a file stays readable through its
handle after its name is gone.
-/

namespace Tributary

open Lib

/-! ## The file system -/

/-- Inode identity. -/
structure FileId where
  dev : Nat
  ino : Nat
deriving DecidableEq, Repr

/-- One directory, in listing order, and the content of every inode. -/
structure Fs where
  names : List (Text × FileId)
  inodes : Table FileId Text

namespace Fs

def lookup (fs : Fs) (path : Text) : Option FileId :=
  (fs.names.find? fun e => decide (e.1 = path)).map (·.2)

def content (fs : Fs) (id : FileId) : Text := (fs.inodes.get id).getD []

def len (fs : Fs) (id : FileId) : Nat := (fs.content id).length

/-- A writer appends to a file it has open. -/
def append (fs : Fs) (id : FileId) (t : Text) : Fs :=
  { fs with inodes := fs.inodes.set id (fs.content id ++ t) }

/-- `rename`, replacing the target. -/
def rename (fs : Fs) (src dst : Text) : Fs :=
  match fs.lookup src with
  | some id =>
      { fs with
        names := (fs.names.filter fun e => decide (e.1 ≠ src) && decide (e.1 ≠ dst))
          ++ [(dst, id)] }
  | none => fs

/-- A new empty file under a free name. -/
def create (fs : Fs) (path : Text) (id : FileId) : Fs :=
  { names := fs.names ++ [(path, id)], inodes := fs.inodes.set id [] }

@[simp] theorem lookup_append (fs : Fs) (id : FileId) (t : Text) (path : Text) :
    (fs.append id t).lookup path = fs.lookup path := rfl

theorem content_append (fs : Fs) (id j : FileId) (t : Text) :
    (fs.append id t).content j = fs.content j ++ if j = id then t else [] := by
  by_cases h : j = id
  · simp [content, append, h]
  · simp [content, append, Table.get_set, h]

@[simp] theorem content_rename (fs : Fs) (src dst : Text) (j : FileId) :
    (fs.rename src dst).content j = fs.content j := by
  rw [rename]
  split <;> rfl

/-- A file renamed away is no longer at its old name. -/
theorem lookup_rename {fs : Fs} {src dst : Text} (h : dst ≠ src) {id : FileId}
    (hs : fs.lookup src = some id) : (fs.rename src dst).lookup src = none := by
  rw [rename, hs]
  simp only [lookup, Option.map_eq_none_iff, List.find?_eq_none]
  intro e he
  rcases List.mem_append.mp he with he | he
  · have := (List.mem_filter.mp he).2
    simp_all
  · rw [List.mem_singleton.mp he]
    simpa using h

/-- A file renamed to a free name is there, and the other names are kept. -/
theorem lookup_rename_free {fs : Fs} {src dst : Text} {id : FileId}
    (hs : fs.lookup src = some id) (hd : fs.lookup dst = none) :
    (fs.rename src dst).lookup dst = some id
      ∧ ∀ p ≠ src, p ≠ dst → (fs.rename src dst).lookup p = fs.lookup p := by
  have hfree : ∀ e ∈ fs.names, ¬ e.1 = dst := by
    simpa [lookup] using hd
  rw [rename, hs]
  constructor
  · have hnone : (fs.names.filter fun e => decide (e.1 ≠ src) && decide (e.1 ≠ dst)).find?
        (fun e => decide (e.1 = dst)) = none := by
      rw [List.find?_eq_none]
      intro e he
      simpa using hfree e (List.mem_filter.mp he).1
    rw [lookup, List.find?_append, hnone]
    simp
  · intro p hsrc hdst
    have hkeep : (fs.names.filter fun e => decide (e.1 ≠ src) && decide (e.1 ≠ dst)).find?
        (fun e => decide (e.1 = p)) = fs.names.find? fun e => decide (e.1 = p) := by
      rw [List.find?_filter]
      congr 1
      funext e
      by_cases he : e.1 = p
      · simp [he, hsrc, hdst]
      · simp [he]
    rw [lookup, List.find?_append, hkeep, List.find?_singleton, if_neg (by simpa using hdst.symm),
      Option.or_none]
    rfl

theorem content_create (fs : Fs) (path : Text) (id j : FileId) :
    (fs.create path id).content j = if j = id then [] else fs.content j := by
  by_cases h : j = id
  · simp [content, create, h]
  · simp [content, create, Table.get_set, h]

/-- A new file is at the name it was created under. -/
theorem lookup_create {fs : Fs} {path : Text} (h : fs.lookup path = none) (id : FileId) :
    (fs.create path id).lookup path = some id := by
  have hnone : fs.names.find? (fun e => decide (e.1 = path)) = none := by
    simpa [lookup] using h
  simp [lookup, create, List.find?_append, hnone]

/-- The names that were taken are kept. -/
theorem lookup_create_taken {fs : Fs} {path p : Text} {id j : FileId} (h : fs.lookup p = some j) :
    (fs.create path id).lookup p = some j := by
  obtain ⟨e, he, rfl⟩ := Option.map_eq_some_iff.mp h
  simp [lookup, create, List.find?_append, he]

end Fs

namespace Tail

/-! ## One open file -/

structure Open where
  id : FileId
  path : Text
  offset : Nat
deriving DecidableEq, Repr

/-- `Open::at`; `none` is an open error. -/
def Open.at (fs : Fs) (path : Text) (offset : Nat) : Option Open :=
  (fs.lookup path).map fun id => { id, path, offset := min offset (fs.len id) }

/-- The bytes not yet read. -/
def Open.unread (fs : Fs) (o : Open) : Text := (fs.content o.id).drop o.offset

/-- Read one line; `none` is the end of the file for now. -/
def Open.nextLine (fs : Fs) (o : Open) : Option Text × Open :=
  let buf := (o.unread fs).readUntil
  if buf = [] then (none, o)
  -- the writer is in the middle of a line: rewind and wait
  else if buf.getLast? ≠ some '\n' then (none, o)
  else (some (Text.stripEol buf), { o with offset := o.offset + buf.length })

/-! ## The tailer -/

structure Tailer where
  path : Text
  /-- rotated away with bytes unread, oldest first -/
  draining : List Open
  current : Option Open
  filesLost : Nat
  rotations : Nat
deriving DecidableEq, Repr

/-- The path and every name beside it that extends its name. -/
def siblingPaths (fs : Fs) (path : Text) : List Text :=
  path ::
    if '/' ∈ path then (fs.names.map (·.1)).filter fun p => decide (p ≠ path) && path.isPrefixOf p
    -- the parent of a bare file name is the empty path, which `read_dir` refuses
    else []

def findInode (fs : Fs) (candidates : List Text) (id : FileId) : Option Text :=
  candidates.find? fun p => decide (fs.lookup p = some id)

namespace Tailer

/-- One checkpointed file: open it under the name it has now, or count it as
lost. -/
def adopt (fs : Fs) (siblings : List Text) (t : Tailer) (mark : FileMark) : Option Tailer :=
  match findInode fs siblings ⟨mark.dev, mark.ino⟩ with
  | some p => do
      let o ← Open.at fs p mark.offset
      if o.offset < fs.len o.id ∨ p ≠ t.path then
        some { t with draining := t.draining ++ [o] }
      else some t
  | none => some { t with filesLost := t.filesLost + 1 }

/-- Open a stream where the marks say; `none` is an I/O error. -/
def resume (fs : Fs) (path : Text) (marks : List FileMark) : Option Tailer := do
  let t ← marks.foldlM (adopt fs (siblingPaths fs path))
    { path, draining := [], current := none, filesLost := 0, rotations := 0 }
  match fs.lookup path with
  | none => some t
  | some id =>
      match t.draining.find? fun o => decide (o.id = id) with
      | some o =>
          some { t with
            current := some o
            draining := t.draining.eraseP fun o => decide (o.id = id) }
      | none => do
          let start := ((marks.find? fun m => decide ((⟨m.dev, m.ino⟩ : FileId) = id)).map
            (·.offset)).getD 0
          let o ← Open.at fs path start
          some { t with current := some o }

/-- The next line of the rotated files; a file at its end is dropped. -/
def drainPending (fs : Fs) : List Open → Option Text × List Open
  | [] => (none, [])
  | front :: rest =>
      match front.nextLine fs with
      | (some line, front) => (some line, front :: rest)
      | (none, _) => drainPending fs rest

def checkRotation (fs : Fs) (t : Tailer) : Tailer :=
  match t.current with
  | none => { t with current := Open.at fs t.path 0 }
  | some cur =>
      -- copy-and-truncate: same inode, shorter than where we are
      if fs.len cur.id < cur.offset then
        { t with rotations := t.rotations + 1, current := Open.at fs t.path 0 }
      else
        match fs.lookup t.path with
        | none => t
        | some id =>
            if id = cur.id then t
            else
              { t with
                rotations := t.rotations + 1
                draining :=
                  if cur.offset < fs.len cur.id then t.draining ++ [cur] else t.draining
                current := Open.at fs t.path 0 }

/-- The next line of the stream, rotated files first; `none` means nothing is
available right now. -/
def nextLine (fs : Fs) (t : Tailer) : Option Text × Tailer :=
  match drainPending fs t.draining with
  | (some line, draining) => (some line, { t with draining })
  | (none, draining) =>
      let t := checkRotation fs { t with draining }
      -- drain again: the rotation just found moved the old file there
      match drainPending fs t.draining with
      | (some line, draining) => (some line, { t with draining })
      | (none, draining) =>
          let t := { t with draining }
          match t.current with
          | none => (none, t)
          | some cur =>
              match cur.nextLine fs with
              | (some line, cur) => (some line, { t with current := some cur })
              | (none, _) => (none, t)

/-- Everything a checkpoint needs to resume exactly here. -/
def marks (t : Tailer) : List FileMark :=
  (t.draining ++ t.current.toList).map fun o =>
    { dev := o.id.dev, ino := o.id.ino, offset := o.offset }

/-- Bytes written to the files but not yet read. -/
def unreadBytes (fs : Fs) (t : Tailer) : Nat :=
  ((t.draining ++ t.current.toList).map fun o => fs.len o.id - o.offset).sum

end Tailer

end Tail

end Tributary
